/-
Where `dir_add_entry` puts an entry, in a directory whose slots hold anything.  When the slots of
the directory do not do, it takes one cluster more, and does not ask whether that is enough.
-/
import Chimaera.Fat32.Allocation
import Chimaera.Fat32.Entries
import Chimaera.Fat32.Iterators
import Chimaera.Moves

namespace Chimaera.Fat32

open Prog

section Totality

variable {lba : Nat} {b : Sector} {pos : DirPos} {e : DirEntry}

theorem total_getStore : Total getStore := Total.asks

theorem total_ataRead : Total (ataRead lba) :=
  Total.bind Total.asks fun _ => Total.ite (Total.bind Total.modify fun _ =>
    Total.ite Total.pure Total.pure) Total.pure

theorem total_ataWrite : Total (ataWrite lba b) :=
  Total.bind Total.asks fun _ => Total.ite (Total.bind Total.modify fun _ =>
    Total.ite (Total.bind Total.modify fun _ => Total.pure) Total.pure) Total.pure

theorem total_secFlush : Total secFlush :=
  Total.bind Total.asks fun _ => Total.ite (Total.bind total_ataWrite fun _ =>
    Total.ite (Total.bind Total.modify fun _ => Total.pure) Total.pure) Total.pure

theorem total_secRead : Total (secRead lba) := by
  refine Total.bind Total.asks fun _ => Total.ite Total.pure (Total.bind total_secFlush fun _ =>
    Total.ite (Total.bind total_ataRead fun o => ?_) Total.pure)
  cases o with
  | none => exact Total.pure
  | some b => exact Total.bind Total.modify fun _ => Total.pure

theorem total_fatGet (k : Nat) : Total (fatGet k) :=
  Total.bind total_getStore fun _ => Total.bind total_secRead fun _ =>
    Total.ite (Total.bind Total.asks fun _ => Total.pure) Total.pure

theorem total_dirWriteEntry : Total (dirWriteEntry pos e) :=
  Total.bind total_secRead fun _ =>
    Total.ite (Total.bind Total.modify fun _ => total_secFlush) Total.pure

theorem total_dirNext : Total (dirNext pos) := by
  refine Total.bind total_getStore fun _ => ?_
  exact Total.ite Total.pure (Total.ite (Total.bind (total_fatGet _) fun _ =>
    Total.ite Total.pure Total.pure) Total.pure)

theorem total_writeRun (name : CStr) (sum : UInt8) (n i : Nat) (pos : DirPos) :
    Total (writeRun name sum n i pos) := by
  induction i generalizing pos with
  | zero => exact Total.pure
  | succ i ih =>
      exact Total.bind total_dirWriteEntry fun _ => Total.bind total_dirNext fun next => ih next.2

end Totality

namespace Store

variable {c : Store} {a i l s n : Nat} {xs ys : List Nat} {e : DirEntry} {es : List DirEntry}

/-- Write the entry `e` into slot `i`. -/
def setSlot (c : Store) (xs : List Nat) (i : Nat) (e : DirEntry) : Store :=
  c.put (slotPlace c.vol xs i).1
    ((c.disk (slotPlace c.vol xs i).1).patch (slotPlace c.vol xs i).2 e.toList)

/-- Write the entries `es` into the slots from `i` on. -/
def setSlots (c : Store) (xs : List Nat) : Nat → List DirEntry → Store
  | _, [] => c
  | i, e :: es => (c.setSlot xs i e).setSlots xs (i + 1) es

@[simp] theorem vol_setSlot : (c.setSlot xs i e).vol = c.vol := rfl
@[simp] theorem sectors_setSlot : (c.setSlot xs i e).sectors = c.sectors := rfl

@[simp] theorem vol_setSlots : (c.setSlots xs i es).vol = c.vol := by
  induction es generalizing c i with
  | nil => rfl
  | cons e es ih => rw [setSlots, ih, vol_setSlot]

@[simp] theorem sectors_setSlots : (c.setSlots xs i es).sectors = c.sectors := by
  induction es generalizing c i with
  | nil => rfl
  | cons e es ih => rw [setSlots, ih, sectors_setSlot]

theorem setSlots_append {es fs : List DirEntry} :
    c.setSlots xs i (es ++ fs) = (c.setSlots xs i es).setSlots xs (i + es.length) fs := by
  induction es generalizing c i with
  | nil => rfl
  | cons e es ih =>
      have hidx : i + 1 + es.length = i + (es.length + 1) := by omega
      rw [List.cons_append, setSlots, ih, hidx]
      rfl

theorem Chain.setSlot (h : c.Chain a ys) (hs : c.vol.Sound c.sectors) :
    (c.setSlot xs i e).Chain a ys :=
  Links.Chain.congr h fun _ hk => fat_put_data hs (dataLba_le_slotPlace _ _ _) (h.inRange hk)

theorem Chain.setSlots (h : c.Chain a ys) (hs : c.vol.Sound c.sectors) :
    (c.setSlots xs i es).Chain a ys := by
  induction es generalizing c i with
  | nil => exact h
  | cons e es ih => exact ih (h.setSlot hs) hs

theorem Chain.slot_setSlot (h : c.Chain a xs) (hs : c.vol.Sound c.sectors)
    (hi : i < xs.length * c.vol.perCluster) (hl : l < xs.length * c.vol.perCluster) :
    (c.setSlot xs i e).slot xs l = if l = i then e else c.slot xs l := by
  unfold slot
  rw [vol_setSlot, Store.setSlot, disk_put]
  by_cases hlba : (slotPlace c.vol xs l).1 = (slotPlace c.vol xs i).1
  · rw [if_pos hlba]
    by_cases hli : l = i
    · subst hli
      rw [if_pos rfl, Block.slice_patch_same _ e (slotPlace_off_lt _ _ _)]
    · have hoff : (slotPlace c.vol xs l).2 ≠ (slotPlace c.vol xs i).2 := fun heq =>
        hli (posAt_inj (e := 0) hs (h.nodup hs) (fun x hx => h.inRange hx) hl hi hlba heq)
      rw [if_neg hli, hlba, Block.slice_patch_disjoint]
      rw [Block.length_toList]
      simp only [slotPlace, posAt] at hoff ⊢
      omega
  · rw [if_neg hlba, if_neg]
    rintro rfl
    exact hlba rfl

theorem Chain.slot_setSlots (h : c.Chain a xs) (hs : c.vol.Sound c.sectors)
    (hi : i + es.length ≤ xs.length * c.vol.perCluster) (hl : l < xs.length * c.vol.perCluster) :
    (c.setSlots xs i es).slot xs l =
      if h : i ≤ l ∧ l < i + es.length then es[l - i] else c.slot xs l := by
  induction es generalizing c i with
  | nil => rw [dif_neg (by simp), Store.setSlots]
  | cons e es ih =>
      rw [List.length_cons] at hi
      rw [Store.setSlots,
        ih (h.setSlot hs) hs (by rw [vol_setSlot]; omega) (by rw [vol_setSlot]; exact hl),
        h.slot_setSlot hs (by omega) hl]
      by_cases hli : l = i
      · subst hli
        rw [dif_neg (by omega), if_pos rfl, dif_pos ⟨Nat.le_refl l, by simp⟩]
        simp
      · rw [if_neg hli]
        by_cases hin : i + 1 ≤ l ∧ l < i + 1 + es.length
        · rw [dif_pos hin, dif_pos ⟨by omega, by simp; omega⟩]
          have hidx : l - i = l - (i + 1) + 1 := by omega
          simp only [hidx, List.getElem_cons_succ]
        · rw [dif_neg hin, dif_neg]
          simp only [List.length_cons]
          omega

end Store

/-- The sector belongs to a copy of the FAT. -/
def Vol.OnFat (v : Vol) (lba : Nat) : Prop :=
  ∃ f g, f < v.numFats ∧ g < v.fatSize ∧ lba = v.fatLba + f * v.fatSize + g

/-- The sector belongs to one of the clusters `xs`. -/
def Vol.OnClusters (v : Vol) (xs : List Nat) (lba : Nat) : Prop :=
  ∃ k ∈ xs, ∃ j < v.secPerClus, lba = v.secLba k j

/-- From `c` to `c'` no sector was written but those of the FATs and of the clusters `xs`. -/
def Store.Wrote (c : Store) (xs : List Nat) (c' : Store) : Prop :=
  ∃ new, c'.log = new ++ c.log ∧ ∀ p ∈ new, c.vol.OnFat p.1 ∨ c.vol.OnClusters xs p.1

namespace Store

variable {c c' c'' : Store} {a i k lba n j f x prev : Nat} {xs ys : List Nat} {e : DirEntry}
  {es : List DirEntry} {b : Sector}

theorem Wrote.refl (c : Store) (xs : List Nat) : c.Wrote xs c :=
  ⟨[], rfl, fun _ hp => by cases hp⟩

theorem Wrote.trans (h : c.Wrote xs c') (hv : c'.vol = c.vol) (h' : c'.Wrote xs c'') :
    c.Wrote xs c'' := by
  obtain ⟨new, hnew, hin⟩ := h
  obtain ⟨new', hnew', hin'⟩ := h'
  refine ⟨new' ++ new, by rw [hnew', hnew, List.append_assoc], fun p hp => ?_⟩
  rcases List.mem_append.mp hp with hp | hp
  · exact hv ▸ hin' p hp
  · exact hin p hp

theorem wrote_put (h : c.vol.OnFat lba ∨ c.vol.OnClusters xs lba) : c.Wrote xs (c.put lba b) :=
  ⟨[(lba, b)], rfl, fun p hp => by rw [List.mem_singleton.mp hp]; exact h⟩

theorem wrote_setCopies (hk : c.vol.HasEntry k) (hf : f + n ≤ c.vol.numFats) :
    c.Wrote xs (c.setCopies k x n f) := by
  induction n generalizing c f with
  | zero => exact Wrote.refl c xs
  | succ n ih =>
      have hfat : c.vol.OnFat (c.vol.fatSec f k) := ⟨f, k * 4 / 512, by omega, hk.2, rfl⟩
      exact (wrote_put (Or.inl hfat)).trans (vol_put _ _) (ih hk (by rw [vol_put]; omega))

theorem wrote_setFat (hk : c.vol.HasEntry k) : c.Wrote xs (c.setFat k x) :=
  wrote_setCopies hk (by omega)

theorem wrote_zeroFrom (h : ∀ i, j ≤ i → i < j + n → c.vol.OnClusters xs (lba + i)) :
    c.Wrote xs (c.zeroFrom lba n j) := by
  induction n generalizing c j with
  | zero => exact Wrote.refl c xs
  | succ n ih =>
      have hput : c.Wrote xs (c.put (lba + j) (Block.zero 512)) :=
        wrote_put (Or.inr (h j (Nat.le_refl j) (by omega)))
      exact hput.trans (vol_put _ _) (ih fun i hi hi' => h i (by omega) (by omega))

theorem wrote_alloc (hk : c.vol.HasEntry k) (hp : c.vol.HasEntry prev) :
    c.Wrote (xs ++ [k]) (c.alloc prev k) := by
  have hhook : c.Wrote (xs ++ [k]) (c.hook prev k) := by
    unfold hook
    split
    · exact wrote_setFat hk
    · exact (wrote_setFat hk).trans sameVars_setFat.vol
        (wrote_setFat (by rw [sameVars_setFat.vol]; exact hp))
  refine hhook.trans sameVars_hook.vol (wrote_zeroFrom fun i _ hi => ?_)
  rw [sameVars_hook.vol]
  refine ⟨k, by simp, i, by omega, ?_⟩
  unfold Vol.secLba
  omega

theorem onClusters_slotPlace {v : Vol} (hspc : 1 ≤ v.secPerClus)
    (hi : i < xs.length * v.perCluster) : v.OnClusters xs (slotPlace v xs i).1 :=
  ⟨_, getD_mem hi, _, index_lt hspc, rfl⟩

theorem wrote_setSlots (hs : c.vol.Sound c.sectors)
    (hi : i + es.length ≤ xs.length * c.vol.perCluster) : c.Wrote xs (c.setSlots xs i es) := by
  induction es generalizing c i with
  | nil => exact Wrote.refl c xs
  | cons e es ih =>
      rw [List.length_cons] at hi
      exact (wrote_put (Or.inr (onClusters_slotPlace hs.spc_pos (by omega)))).trans (vol_put _ _)
        (ih (c := c.setSlot xs i e) hs (by rw [vol_setSlot]; omega))

theorem Chain.fat_ne_zero (h : c.Chain a xs) (hk : k ∈ xs) : c.fat k ≠ 0 := by
  rcases Links.Chain.next_mem_or_fin h hk with hm | hfin
  · have := (h.inRange hm).1
    omega
  · omega

/-- A free cluster hung behind the last one of a chain. -/
theorem Chain.alloc {p : Nat} (h : c.Chain a (ys ++ [p])) (hs : c.vol.Sound c.sectors)
    (hk : c.FirstFree k) : (c.alloc p k).Chain a (ys ++ [p] ++ [k]) := by
  have hin : p ∈ ys ++ [p] := by simp
  have hp := h.inRange hin
  have hp0 : p ≠ 0 := by
    have := hp.1
    omega
  have hfree : ∀ x ∈ ys ++ [p], x ≠ k := by
    rintro x hx rfl
    exact h.fat_ne_zero hx hk.free
  have hal := allocated hs (Or.inr (hs.hasEntry hp)) hk (hfree p hin)
  have hfat : ∀ i, (c.alloc p k).fat i = (c.alloc p k).entry 0 i % 268435456 := fun _ => rfl
  have hnd := h.nodup hs
  unfold Chain
  rw [hal.vars.vol]
  have htot := hs.total_le
  have hlt := hk.range.2
  apply Links.Chain.snoc h hk.range
  · rw [hfat, hal.next hp0 0 hs.fats]
    omega
  · rw [hfat, hal.eoc 0 hs.fats]
    decide
  · intro x hx
    have hxr := h.inRange (List.mem_append_left _ hx)
    have hxp : x ≠ p := by
      rintro rfl
      exact (List.nodup_append.mp hnd).2.2 x hx x (by simp) rfl
    rw [hfat, hal.entries 0 x hs.fats (hs.hasEntry hxr) (hfree x (List.mem_append_left _ hx))
      (Or.inr hxp)]
    rfl

end Store

section Rules

variable {β : Type} {R : β → Store → Prop} {c : Store} {a i e need : Nat} {xs : List Nat}

theorem On.dirWriteEntry (hs : c.vol.Sound c.sectors) (hch : c.Chain a xs)
    (hi : i < xs.length * c.vol.perCluster) {d : DirEntry} {f : Bool → Prog Drv β}
    (h : On (f true) R (c.setSlot xs i d)) :
    On (dirWriteEntry (posAt c.vol e xs i) d >>= f) R c := by
  have hlt : (posAt c.vol e xs i).lba < c.sectors := hch.slotPlace_lt hs hi
  rw [Fat32.dirWriteEntry, bind_assoc]
  apply On.secRead hlt
  rw [if_pos rfl, bind_assoc]
  exact OnAt.update_flush hlt h

theorem On.writeRun {name : CStr} {sum : UInt8} {s : Nat} (hs : c.vol.Sound c.sectors)
    (hch : c.Chain a xs) (hi : s + i < xs.length * c.vol.perCluster) {f : DirPos → Prog Drv β}
    (h : On (f (posAt c.vol e xs (s + i))) R (c.setSlots xs s (newRun name sum i))) :
    On (writeRun name sum (lfnCount name) i (posAt c.vol e xs s) >>= f) R c := by
  induction i generalizing c s with
  | zero =>
      rw [Fat32.writeRun, pure_bind]
      exact h
  | succ i ih =>
      rw [Fat32.writeRun, bind_assoc]
      apply On.dirWriteEntry hs hch (by omega)
      rw [bind_assoc]
      have hch' : (c.setSlot xs s (lfnEntry name sum (lfnCount name) (i + 1))).Chain a xs :=
        hch.setSlot hs
      refine On.dirNext (c := c.setSlot xs s _) hs hch' (by rw [Store.vol_setSlot]; omega) (fun _ => ?_) ?_
      · have hidx : s + 1 + i = s + (i + 1) := by omega
        refine ih (c := c.setSlot xs s _) hs hch' (by rw [Store.vol_setSlot]; omega) ?_
        rw [hidx]
        exact h
      · intro hend
        rw [Store.vol_setSlot] at hend
        omega

/-- `dir_83_exists` answers and leaves the disk alone. -/
theorem On.dir83Exists (hs : c.vol.Sound c.sectors) (hch : c.Chain a xs) (hne : xs ≠ [])
    {n83 : List UInt8} {f : Bool → Prog Drv β} (h : ∀ b, On (f b) R c) :
    On (dir83Exists a n83 >>= f) R c := by
  rw [Fat32.dir83Exists, bind_assoc]
  apply On.getStore
  rw [hch.dirPosInit_eq hne hs, bind_assoc]
  apply On.scanDir hs hch (Store.Chain.slots_pos hs hne)
  · intro r _
    simp only [pure_bind]
    exact h _
  · intro st _ pos _
    simp only [pure_bind]
    exact h _

/-- A search whose rounds leave the disk alone. -/
theorem On.forUntil {α : Type} {body : Nat → Prog Drv (Option α)}
    (hbody : ∀ i, ∀ f : Option α → Prog Drv β, (∀ o, On (f o) R c) → On (body i >>= f) R c)
    {n i : Nat} {f : Option α → Prog Drv β} (h : ∀ o, On (f o) R c) :
    On (forUntil body n i >>= f) R c := by
  induction n generalizing i with
  | zero =>
      rw [Prog.forUntil, pure_bind]
      exact h none
  | succ n ih =>
      rw [Prog.forUntil, bind_assoc]
      apply hbody
      intro o
      cases o with
      | none => exact ih
      | some a =>
          simp only [pure_bind]
          exact h (some a)

/-- `make_83_unique` answers and leaves the disk alone. -/
theorem On.make83Unique (hs : c.vol.Sound c.sectors) (hch : c.Chain a xs) (hne : xs ≠ [])
    {name : CStr} {f : List UInt8 → Prog Drv β} (h : ∀ n83, On (f n83) R c) :
    On (make83Unique a name >>= f) R c := by
  rw [Fat32.make83Unique, bind_assoc]
  apply On.dir83Exists hs hch hne
  intro b
  cases b with
  | false =>
      simp only [Bool.false_eq_true, if_false, pure_bind]
      exact h _
  | true =>
      simp only [if_true, bind_assoc]
      refine On.forUntil (fun n g hg => ?_) fun o => ?_
      · rw [bind_assoc]
        apply On.dir83Exists hs hch hne
        intro b
        cases b with
        | false =>
            simp only [Bool.false_eq_true, if_false, pure_bind]
            exact hg _
        | true =>
            simp only [if_true, pure_bind]
            exact hg _
      · rw [pure_bind]
        exact h _

/-- The search for `need` free slots in a row. -/
theorem On.findSpace (hs : c.vol.Sound c.sectors) (hch : c.Chain a xs) (hne : xs ≠ [])
    (hneed : 1 ≤ need) {f : Option DirPos → Prog Drv β}
    (hhere : ∀ s, FreeRun (c.slots xs) s need → On (f (some (posAt c.vol 0 xs s))) R c)
    (hfull : (∀ s, ¬ FreeRun (c.slots xs) s need) → (∀ k, c.vol.InRange k → c.fat k ≠ 0) →
      On (f none) R c)
    (hmore : (∀ s, ¬ FreeRun (c.slots xs) s need) → ∀ k, c.FirstFree k → ∀ n e,
      RunInv need (posAt c.vol 0 xs) (c.slots xs) (c.slots xs).length n →
      On (f (some (posAt c.vol e (xs ++ [k]) ((c.slots xs).length - n.freeRun)))) R
        (c.alloc (xs.getLastD 0) k)) :
    On (findSpace a need >>= f) R c := by
  have hp := perCluster_pos hs
  rw [Fat32.findSpace, bind_assoc]
  apply On.getStore
  simp only [bind_assoc]
  have hscan := scan_freeRun need (posAt c.vol 0 xs) (c.slots xs) (c.slots xs) 0
    ⟨0, dirPosInit c.vol a⟩ (by simp) (Nat.zero_le _)
    ⟨Nat.le_refl 0, by simp; omega, by simp, by simp, by simp⟩
  rw [hch.dirPosInit_eq hne hs] at hscan ⊢
  apply On.scanDir hs hch (Store.Chain.slots_pos hs hne)
  · intro r hr
    rw [List.drop_zero] at hr
    simp only [hr] at hscan
    obtain ⟨s, rfl, hrun⟩ := hscan
    simp only [pure_bind]
    exact hhere s hrun
  · intro st hr p hpos
    rw [List.drop_zero] at hr
    simp only [hr] at hscan
    have hnone : ∀ s, ¬ FreeRun (c.slots xs) s need := scan_freeRun_none hneed hr
    have hlast : c.vol.InRange (xs.getLastD 0) := by
      apply hch.inRange
      rw [eq_append_getLastD hne 0]
      simp
    simp only [bind_assoc, hpos]
    apply On.fatAlloc hs (Or.inr (hs.hasEntry hlast))
    · intro hall
      simp only [if_true, pure_bind]
      exact hfull hnone hall
    · intro k hk
      have hk0 : k ≠ 0 := by
        have := hk.range.1
        omega
      simp only [hk0, if_false, pure_bind]
      have hgo := hmore hnone k hk st
      have hlen : (c.slots xs).length = xs.length * c.vol.perCluster := Store.length_slots
      have hle := hscan.le
      by_cases h0 : st.freeRun = 0
      · rw [if_pos h0, dirPosInit_eq_posAt xs hs hk.range, ← hlen]
        have hrun := hgo (4294967296 - (c.slots xs).length % 4294967296) hscan
        rwa [h0, Nat.sub_zero] at hrun
      · rw [if_neg h0, hscan.pos (by omega)]
        have hdiv : ((c.slots xs).length - st.freeRun) / c.vol.perCluster < xs.length :=
          Nat.div_lt_of_lt_mul (by rw [Nat.mul_comm]; omega)
        rw [← posAt_append [k] hdiv]
        exact hgo 0 hscan

end Rules

/-- The outcome of `dir_add_entry` in the directory with the clusters `xs`: its chain has at
most one cluster more, only the FATs and the clusters of the chain were written, and if an entry
was added, the long name and the short entry behind it are in consecutive slots that were free. -/
def PlacedInside (c : Store) (a : Nat) (xs : List Nat) (name : CStr) (attr : UInt8)
    (cluster size : Nat) (o : Option DirPos) (c' : Store) : Prop :=
  ∃ ys, (ys = xs ∨ ∃ k, ys = xs ++ [k]) ∧ c'.Chain a ys ∧ c.Wrote ys c' ∧
    (o.isSome → ∃ i n83, i + (lfnCount name + 1) ≤ ys.length * c.vol.perCluster ∧
      (∀ j, i ≤ j → j < i + (lfnCount name + 1) → j < xs.length * c.vol.perCluster →
        IsFree (c.slot xs j)) ∧
      ∀ j (h : j < (newRun name (lfnChecksum n83) (lfnCount name) ++
        [shortEntry n83 attr cluster size]).length), c'.slot ys (i + j) =
          (newRun name (lfnChecksum n83) (lfnCount name) ++ [shortEntry n83 attr cluster size])[j])

/-- `dir_add_entry` answers, and stays inside the directory. -/
def Drv.InsertsInside (s : Drv) (a : Nat) (xs : List Nat) (name : CStr) (attr : UInt8)
    (cluster size : Nat) : Prop :=
  ∃ o t, (dirAddEntry a name attr cluster size).Runs s o t ∧
    PlacedInside s.toStore a xs name attr cluster size o t.toStore

section Inserting

variable {c : Store} {s : Drv} {a cluster size : Nat} {xs ys : List Nat} {name : CStr} {attr : UInt8}

/-- The long name and the short entry behind it, written from slot `i` on. -/
theorem On.writeEntry {Q : Option DirPos → Store → Prop} {sum : UInt8} {e : DirEntry} {i m : Nat}
    (hs : c.vol.Sound c.sectors) (hch : c.Chain a xs)
    (hi : i + (lfnCount name + 1) ≤ xs.length * c.vol.perCluster)
    (h : ∀ pos, Q (some pos) (c.setSlots xs i (newRun name sum (lfnCount name) ++ [e]))) :
    On (Fat32.writeRun name sum (lfnCount name) (lfnCount name) (posAt c.vol m xs i) >>= fun pos =>
      Fat32.dirWriteEntry pos e >>= fun _ => Pure.pure (some pos)) Q c := by
  apply On.writeRun hs hch (by omega)
  have hvol : (c.setSlots xs i (newRun name sum (lfnCount name))).vol = c.vol := Store.vol_setSlots
  have hput := On.dirWriteEntry (c := c.setSlots xs i (newRun name sum (lfnCount name)))
    (i := i + lfnCount name) (e := m) (d := e) (R := Q)
    (f := fun _ => Pure.pure (some (posAt c.vol m xs (i + lfnCount name))))
    (by rw [hvol, Store.sectors_setSlots]; exact hs) (hch.setSlots hs) (by rw [hvol]; omega)
  rw [hvol] at hput
  refine hput (On.pure ?_)
  have hdone := h (posAt c.vol m xs (i + lfnCount name))
  rwa [Store.setSlots_append, length_newRun] at hdone

/-- The entry is in its slots, and they are those of the chain. -/
theorem placedInside_setSlots {c₁ : Store} {i : Nat} {n83 : List UInt8} {pos : DirPos}
    (hys : ys = xs ∨ ∃ k, ys = xs ++ [k]) (hv : c₁.vol = c.vol) (hs : c₁.vol.Sound c₁.sectors)
    (hch : c₁.Chain a ys) (hw : c.Wrote ys c₁)
    (hi : i + (lfnCount name + 1) ≤ ys.length * c.vol.perCluster)
    (hfree : ∀ j, i ≤ j → j < i + (lfnCount name + 1) → j < xs.length * c.vol.perCluster →
      IsFree (c.slot xs j)) :
    PlacedInside c a xs name attr cluster size (some pos)
      (c₁.setSlots ys i (newRun name (lfnChecksum n83) (lfnCount name) ++
        [shortEntry n83 attr cluster size])) := by
  have hlen : (newRun name (lfnChecksum n83) (lfnCount name) ++
      [shortEntry n83 attr cluster size]).length = lfnCount name + 1 := by
    rw [List.length_append, length_newRun, List.length_singleton]
  have hi' : i + (newRun name (lfnChecksum n83) (lfnCount name) ++
      [shortEntry n83 attr cluster size]).length ≤ ys.length * c₁.vol.perCluster := by
    rw [hlen, hv]
    exact hi
  refine ⟨ys, hys, hch.setSlots hs, hw.trans hv (Store.wrote_setSlots hs hi'), fun _ =>
    ⟨i, n83, hi, hfree, fun j hj => ?_⟩⟩
  rw [hch.slot_setSlots hs hi' (by omega), dif_pos ⟨by omega, by omega⟩]
  simp only [Nat.add_sub_cancel_left]

/-- With room in the directory and a cluster behind it, `dir_add_entry` stays inside. -/
theorem On.dirAddEntry_inside (hs : c.vol.Sound c.sectors) (hch : c.Chain a xs) (hne : xs ≠ [])
    (hroom : (∃ k, c.vol.InRange k ∧ c.fat k = 0) →
      RoomFor (c.slots xs) c.vol.perCluster (lfnCount name + 1)) :
    On (dirAddEntry a name attr cluster size)
      (PlacedInside c a xs name attr cluster size) c := by
  have hlen : (c.slots xs).length = xs.length * c.vol.perCluster := Store.length_slots
  have hfree : ∀ {j}, (∀ e, (c.slots xs)[j]? = some e → IsFree e) →
      j < xs.length * c.vol.perCluster → IsFree (c.slot xs j) := by
    intro j h hj
    rw [← hlen] at hj
    have hget := h _ (List.getElem?_eq_getElem hj)
    rwa [Store.getElem_slots] at hget
  rw [Fat32.dirAddEntry]
  apply On.make83Unique hs hch hne
  intro n83
  apply On.findSpace hs hch hne (by omega)
  · intro i hrun
    have hle := hrun.le
    refine On.writeEntry hs hch (by omega) fun pos => ?_
    refine placedInside_setSlots (Or.inl rfl) rfl hs hch (Store.Wrote.refl c xs) (by omega)
      fun j hj hj' => hfree (hrun.free j hj hj')
  · intro _ _
    exact On.pure ⟨xs, Or.inl rfl, hch, Store.Wrote.refl c xs, fun h => absurd h (by simp)⟩
  · intro hnone k hk st m hinv
    have hneed := (roomFor_iff hnone hinv).mp (hroom ⟨k, hk.range, hk.free⟩)
    have hsplit := eq_append_getLastD hne 0
    have hlast : xs.getLastD 0 ∈ xs := by
      rw [hsplit]
      simp
    have hvars : Store.SameVars c (c.alloc (xs.getLastD 0) k) :=
      Store.sameVars_hook.trans (Store.sameVars_zeroFrom _ _ _)
    have hs₁ : (c.alloc (xs.getLastD 0) k).vol.Sound (c.alloc (xs.getLastD 0) k).sectors := by
      rw [hvars.vol, hvars.sectors]
      exact hs
    have hch₁ : (c.alloc (xs.getLastD 0) k).Chain a (xs ++ [k]) := by
      have hch' := hch
      rw [hsplit] at hch'
      have hnew := hch'.alloc hs hk
      rwa [← hsplit] at hnew
    have hw₁ : c.Wrote (xs ++ [k]) (c.alloc (xs.getLastD 0) k) :=
      Store.wrote_alloc (hs.hasEntry hk.range) (hs.hasEntry (hch.inRange hlast))
    have hle := hinv.le
    have hfit : (c.slots xs).length - st.freeRun + (lfnCount name + 1) ≤
        (xs ++ [k]).length * c.vol.perCluster := by
      rw [List.length_append, List.length_singleton, Nat.succ_mul]
      omega
    rw [← hvars.vol]
    refine On.writeEntry hs₁ hch₁ (by rw [hvars.vol]; exact hfit) fun pos => ?_
    refine placedInside_setSlots (Or.inr ⟨k, rfl⟩) hvars.vol hs₁ hch₁ hw₁ hfit fun j hj _ hlt => ?_
    exact hfree (hinv.free j hj (by omega)) hlt

/-- What stays inside has found room. -/
theorem PlacedInside.roomFor {o : Option DirPos} {c' : Store}
    (h : PlacedInside c a xs name attr cluster size o c') (ho : o.isSome) :
    RoomFor (c.slots xs) c.vol.perCluster (lfnCount name + 1) := by
  have hlen : (c.slots xs).length = xs.length * c.vol.perCluster := Store.length_slots
  obtain ⟨ys, hys, -, -, hplaced⟩ := h
  obtain ⟨i, n83, hi, hfree, -⟩ := hplaced ho
  refine ⟨i, ?_, fun j hj hj' e he => ?_⟩
  · rcases hys with rfl | ⟨k, rfl⟩
    · omega
    · rw [List.length_append, List.length_singleton, Nat.succ_mul] at hi
      omega
  · obtain ⟨hlt, rfl⟩ := List.getElem?_eq_some_iff.mp he
    rw [Store.getElem_slots]
    exact hfree j hj hj' (hlen ▸ hlt)

/-- With a free cluster, an entry is added in any case. -/
theorem dirAddEntry_adds (ht : s.Ready) (hs : s.vol.Sound s.sectors) (hch : s.toStore.Chain a xs)
    (hne : xs ≠ []) (hfree : ∃ k, s.vol.InRange k ∧ s.fat k = 0) :
    ∃ pos t, (dirAddEntry a name attr cluster size).Runs s (some pos) t := by
  have hfound : On (make83Unique a name >>= fun n83 =>
      findSpace a (lfnCount name + 1) >>= fun o => Pure.pure (n83, o))
      (fun r _ => ∃ pos, r.2 = some pos) s.toStore := by
    apply On.make83Unique hs hch hne
    intro n83
    apply On.findSpace hs hch hne (by omega)
    · exact fun i _ => On.pure ⟨_, rfl⟩
    · intro _ hall
      obtain ⟨k, hk, h0⟩ := hfree
      exact absurd h0 (hall k hk)
    · exact fun _ k _ st m _ => On.pure ⟨_, rfl⟩
  obtain ⟨⟨n83, o⟩, t, hrun, -, start, hstart⟩ := hfound s ht rfl
  obtain rfl : o = some start := hstart
  obtain ⟨n83', t₁, hmake, hrest⟩ := runs_bind.mp hrun
  obtain ⟨o, t₂, hspace, hpure⟩ := runs_bind.mp hrest
  obtain ⟨heq, rfl⟩ := runs_pure.mp hpure
  obtain ⟨rfl, rfl⟩ := Prod.mk.inj heq
  obtain ⟨pos, t₃, hwrite⟩ := total_writeRun name (lfnChecksum n83) (lfnCount name) (lfnCount name)
    start t
  have hlast : Total (dirWriteEntry pos (shortEntry n83 attr cluster size)) := total_dirWriteEntry
  obtain ⟨b, t₄, hshort⟩ := hlast t₃
  refine ⟨pos, t₄, runs_bind.mpr ⟨n83, t₁, hmake, runs_bind.mpr ⟨some start, t, hspace,
    runs_bind.mpr ⟨pos, t₃, hwrite, runs_bind.mpr ⟨b, t₄, hshort, runs_pure.mpr ⟨rfl, rfl⟩⟩⟩⟩⟩⟩

/-- Without room, the entry goes past the end of the directory. -/
theorem not_insertsInside_of_noRoom (ht : s.Ready) (hs : s.vol.Sound s.sectors)
    (hch : s.toStore.Chain a xs) (hne : xs ≠ []) (hfree : ∃ k, s.vol.InRange k ∧ s.fat k = 0)
    (hno : ¬ RoomFor (s.toStore.slots xs) s.vol.perCluster (lfnCount name + 1)) :
    ¬ s.InsertsInside a xs name attr cluster size := by
  rintro ⟨o, t, hrun, hin⟩
  obtain ⟨pos, t', hadds⟩ := dirAddEntry_adds ht hs hch hne hfree
  obtain ⟨rfl, rfl⟩ := hrun.det hadds
  exact hno (hin.roomFor rfl)

/-- `dir_add_entry` stays inside the directory if and only if the volume is full, or the entry
fits into the slots of the directory and of one more cluster. -/
theorem insertsInside_iff (ht : s.Ready) (hs : s.vol.Sound s.sectors)
    (hch : s.toStore.Chain a xs) (hne : xs ≠ []) :
    s.InsertsInside a xs name attr cluster size ↔
      ((∃ k, s.vol.InRange k ∧ s.fat k = 0) →
        RoomFor (s.toStore.slots xs) s.vol.perCluster (lfnCount name + 1)) := by
  constructor
  · intro h hfree
    by_contra hno
    exact not_insertsInside_of_noRoom ht hs hch hne hfree hno h
  · intro hroom
    obtain ⟨o, t, hrun, -, hin⟩ := On.dirAddEntry_inside hs hch hne hroom s ht rfl
    exact ⟨o, t, hrun, hin⟩

/-- Two sectors per cluster are enough for every name. -/
theorem insertsInside_of_two (ht : s.Ready) (hs : s.vol.Sound s.sectors)
    (hch : s.toStore.Chain a xs) (hne : xs ≠ []) (hspc : 2 ≤ s.vol.secPerClus)
    (hlen : name.length ≤ 255) : s.InsertsInside a xs name attr cluster size := by
  have hroom : RoomFor (s.toStore.slots xs) s.vol.perCluster (lfnCount name + 1) :=
    roomFor_of_le (by unfold lfnCount Vol.perCluster; omega)
  obtain ⟨o, t, hrun, -, hin⟩ := On.dirAddEntry_inside hs hch hne (fun _ => hroom) s ht rfl
  exact ⟨o, t, hrun, hin⟩

theorem insertsInside_iff_root : (fresh 4).InsertsInside 2 [2] [0x41] 0x20 0 0 ↔
    ((∃ k, (fresh 4).vol.InRange k ∧ (fresh 4).fat k = 0) →
      RoomFor ((fresh 4).toStore.slots [2]) (fresh 4).vol.perCluster (lfnCount [0x41] + 1)) :=
  insertsInside_iff (fresh_ready (by omega)) (fresh_blank (by omega) (by omega)).sound
    (Links.Chain.cons_iff.mpr ⟨rfl, ⟨by decide, by decide⟩,
      Links.Chain.nil_iff.mpr (by decide +kernel)⟩)
    (List.cons_ne_nil 2 [])

/-- The only cluster of the root directory holds the files `A` to `P`. -/
def crowdedSec : Sector :=
  (List.range 16).foldl (fun b i => b.patch (i * 32)
    (shortEntry (padTo 11 [0x41 + UInt8.ofNat i]) 0x20 0 0).toList) (Block.zero 512)

/-- A volume of four clusters, one sector each. -/
def crowded : Drv :=
  { fresh 4 with
    disk := fun lba => if lba = 32 ∨ lba = 40 then fatHead
      else if lba = 48 then crowdedSec else Block.zero 512
    sectors := 52
    vol := ⟨0, 1, 2, 8, 2, 32, 48, 4⟩ }

/-- A name of 255 bytes takes 21 slots, five of which are behind the new cluster. -/
theorem not_insertsInside : crowded.Ready ∧ crowded.vol.Sound crowded.sectors ∧
    crowded.toStore.Chain 2 [2] ∧
    ¬ crowded.InsertsInside 2 [2] (List.replicate 255 0x62) 0x20 0 0 := by
  have ht : crowded.Ready := ⟨rfl, fun _ => rfl, rfl, Or.inl rfl, by decide⟩
  have hs : crowded.vol.Sound crowded.sectors :=
    ⟨by decide, by decide, by decide, by decide, by decide, by decide, by decide, by decide⟩
  have hch : crowded.toStore.Chain 2 [2] :=
    Links.Chain.cons_iff.mpr ⟨rfl, ⟨by decide, by decide⟩,
      Links.Chain.nil_iff.mpr (by decide +kernel)⟩
  refine ⟨ht, hs, hch, not_insertsInside_of_noRoom ht hs hch (List.cons_ne_nil 2 [])
    ⟨3, ⟨by decide, by decide⟩, by decide +kernel⟩ ?_⟩
  have hlive : ∀ i < 16, (crowded.toStore.slot [2] i).first ≠ 0 ∧
      (crowded.toStore.slot [2] i).first ≠ 0xE5 := by decide +kernel
  have hlen : (crowded.toStore.slots [2]).length = 16 := Store.length_slots
  rintro ⟨i, hi, hfree⟩
  have hneed : lfnCount (List.replicate 255 0x62) + 1 = 21 := by
    rw [lfnCount, List.length_replicate]
  have hper : crowded.vol.perCluster = 16 := rfl
  rw [hlen, hneed, hper] at hi
  have hlt : i < (crowded.toStore.slots [2]).length := by omega
  have hget := hfree i (Nat.le_refl i) (by omega) _ (List.getElem?_eq_getElem hlt)
  rw [Store.getElem_slots] at hget
  obtain ⟨h0, h5⟩ := hlive i (by omega)
  exact hget.elim h0 h5

end Inserting

end Chimaera.Fat32
