/-
The driver's changes of a directory, as changes of its listing:
`dir_add_entry`, the deletion loop of `fat32_unlink`, and a rewritten short
entry.
-/
import Chimaera.Fat32.Insert

namespace Chimaera.Fat32

open Prog

variable {β : Type} {R : β → View → Prop} {w w' : View} {a : Nat} {xs xs' : List Nat}
  {l l' : Listing}

/-- The links of a chain are neither free nor bad. -/
theorem View.Chain.fat_ne (h : w.Chain a xs) {n : Nat} (hs : w.vol.Sound n) {x : Nat}
    (hx : x ∈ xs) : w.fat x ≠ 0 ∧ w.fat x ≠ 0x0FFFFFF7 := by
  have htot := hs.total_le
  rcases Links.Chain.next_mem_or_fin h hx with hm | hfin
  · have hr := h.inRange hm
    have := hr.1
    have := hr.2
    omega
  · omega

/-- Hang a free cluster behind the last one of a chain. -/
theorem View.Chain.alloc_last {ys : List Nat} {p k n : Nat} (h : w.Chain a (ys ++ [p]))
    (hs : w.vol.Sound n) (hk : w.vol.InRange k) (h0 : w.fat k = 0) :
    (w.alloc p k).Chain a (ys ++ [p] ++ [k]) := by
  have hp : p ∈ ys ++ [p] := by simp
  have hpr := h.inRange hp
  have hp0 : p ≠ 0 := by
    have := hpr.1
    omega
  have hne : ∀ x ∈ ys ++ [p], x ≠ k := by
    rintro x hx rfl
    exact (h.fat_ne hs hx).1 h0
  have hnd := h.nodup hs
  unfold View.Chain
  rw [View.vol_alloc]
  apply Links.Chain.snoc h hk
  · rw [View.fat_alloc (hne p hp), if_neg (hne p hp), if_pos ⟨hp0, rfl⟩]
  · rw [View.fat_alloc (hne p hp), if_pos rfl]
    omega
  · intro x hx
    have hxk := hne x (by simp [hx])
    have hxp : x ≠ p := by
      rintro rfl
      exact (List.nodup_append.mp hnd).2.2 x hx x (by simp) rfl
    rw [View.fat_alloc (hne p hp), if_neg hxk, if_neg (fun hc => hxp hc.2)]

/-- The directory as it was, or with one more cluster of unused slots. -/
inductive View.Grown (w : View) (xs : List Nat) (l : Listing) :
    View → List Nat → Listing → Prop
  | same : Grown w xs l w xs l
  | more (k : Nat) (hk : w.vol.InRange k) (h0 : w.fat k = 0) :
      Grown w xs l (w.alloc (xs.getLastD 0) k) (xs ++ [k]) (l.grow w.vol.perCluster)

theorem View.Grown.lists (hg : w.Grown xs l w' xs' l') (h : w.Lists a xs l) {n : Nat}
    (hs : w.vol.Sound n) : w'.Lists a xs' l' := by
  cases hg with
  | same => exact h
  | more k hk h0 =>
      have hxs := eq_append_getLastD h.ne 0
      have hch := h.chain
      rw [hxs] at hch
      have hch' := hch.alloc_last hs hk h0
      rw [← hxs] at hch'
      have hkx : k ∉ xs := fun hm => (h.chain.fat_ne hs hm).1 h0
      refine ⟨hch', by simp, ?_⟩
      have hp : 0 < (w.alloc (xs.getLastD 0) k).vol.perCluster := by
        rw [View.vol_alloc]
        exact perCluster_pos hs
      rw [View.slots_snoc hp, Listing.slots_grow, ← h.slots]
      congr 1
      · apply View.slots_congr View.vol_alloc
        intro x hx
        rw [View.sec_alloc, Function.update_of_ne]
        rintro rfl
        exact hkx hx
      · rw [View.slots_zero, View.vol_alloc]
        intro j
        rw [View.sec_alloc, Function.update_self]

theorem View.Grown.vol (hg : w.Grown xs l w' xs' l') : w'.vol = w.vol := by
  cases hg with
  | same => rfl
  | more k hk h0 => exact View.vol_alloc

theorem View.Grown.fds (hg : w.Grown xs l w' xs' l') : w'.fds = w.fds := by
  cases hg with
  | same => rfl
  | more k hk h0 => exact View.fds_alloc

theorem View.Grown.items (hg : w.Grown xs l w' xs' l') : l'.items = l.items := by
  cases hg with
  | same => rfl
  | more k hk h0 => rfl

theorem posAt_append {v : Vol} {e i : Nat} (ys : List Nat) (h : i / v.perCluster < xs.length) :
    posAt v e (xs ++ ys) i = posAt v e xs i := by
  unfold posAt
  rw [List.getD_append _ _ _ _ h]

variable (xs) in
theorem dirPosInit_eq_posAt {v : Vol} {n k : Nat} (hs : v.Sound n) (hk : v.InRange k) :
    dirPosInit v k =
      posAt v (4294967296 - xs.length * v.perCluster % 4294967296) (xs ++ [k])
        (xs.length * v.perCluster) := by
  have hp := perCluster_pos hs
  have hdiv : xs.length * v.perCluster / v.perCluster = xs.length := Nat.mul_div_cancel _ hp
  have hmod : xs.length * v.perCluster % v.perCluster = 0 := Nat.mul_mod_left _ _
  have h16 : xs.length * v.perCluster % 16 = 0 := by
    unfold Vol.perCluster
    rw [Nat.mul_left_comm]
    omega
  have hidx : u32 (4294967296 - xs.length * v.perCluster % 4294967296 +
      xs.length * v.perCluster) = 0 := by
    unfold u32
    omega
  unfold posAt
  rw [hdiv, hmod, h16, hidx, List.getD_append_right _ _ _ _ (Nat.le_refl _), Nat.sub_self]
  simp [Fat32.dirPosInit, hs.clusterToLba_eq hk]

/-- The search for `need` free slots: the directory grows only when they are not
there, and the disk is full only when no cluster is left for that. -/
theorem Holds.findSpace (hl : w.Lists a xs l) {need : Nat} (hneed : 1 ≤ need)
    (hfit : 1 ≤ w.freeCount → RoomFor l.slots w.vol.perCluster need)
    {f : Option DirPos → Prog Drv β}
    (hfull : GrowsBy l.slots need 1 → w.freeCount = 0 → Holds (f none) R w)
    (hroom : ∀ w' xs' l' m, w.Grown xs l w' xs' l' → GrowsBy l.slots need m →
      w'.freeCount + m = w.freeCount → ∀ s e, FreeRun l'.slots s need →
      Holds (f (some (posAt w.vol e xs' s))) R w') :
    Holds (findSpace a need >>= f) R w := by
  refine Holds.of_sound fun n hn => ?_
  have hp := perCluster_pos hn
  rw [Fat32.findSpace, bind_assoc]
  apply Holds.getStore
  intro c hc
  simp only [bind_assoc]
  have hscan := scan_freeRun need (posAt w.vol 0 xs) l.slots l.slots 0 ⟨0, dirPosInit c.vol a⟩
    (by simp) (Nat.zero_le _)
    ⟨Nat.le_refl 0, by simp; omega, by simp, by simp, by simp⟩
  rw [← List.drop_zero (l := l.slots), ← hl.slots] at hscan
  rw [hc.vol, hl.dirPosInit hn] at hscan ⊢
  apply Holds.scanDir hl.chain (hl.pos hn)
  · intro r hr
    simp only [hr] at hscan
    obtain ⟨s, rfl, hrun⟩ := hscan
    simp only [pure_bind]
    rw [hl.slots, List.drop_zero] at hrun
    exact hroom w xs l 0 View.Grown.same (Or.inl ⟨rfl, s, hrun⟩) rfl s 0 hrun
  · intro st hr p hpos
    simp only [hr] at hscan
    rw [List.drop_zero, hl.slots] at hscan
    have hnone : ∀ s, ¬ FreeRun l.slots s need := by
      rw [hl.slots] at hr
      exact scan_freeRun_none hneed hr
    have hgrows : GrowsBy l.slots need 1 := Or.inr ⟨rfl, hnone⟩
    have hmem : xs.getLastD 0 ∈ xs := by
      rw [eq_append_getLastD hl.ne 0]
      simp
    have hlast := hl.chain.inRange hmem
    simp only [bind_assoc, hpos]
    apply Holds.fatAlloc (Or.inr hlast)
    · intro hall
      simp only [if_true, pure_bind]
      exact hfull hgrows (View.freeCount_eq_zero.mpr hall)
    · intro k hk h0 _
      have hk0 : k ≠ 0 := by
        have := hk.1
        omega
      simp only [hk0, if_false, pure_bind]
      have hlen := hl.length_slots
      have hnz := (hl.chain.fat_ne hn hmem).1
      have hcount : (w.alloc (xs.getLastD 0) k).freeCount + 1 = w.freeCount :=
        View.freeCount_alloc (fun heq => hnz (heq ▸ h0)) hk h0 fun _ => hnz
      have hfit' := (roomFor_iff hnone hscan).mp (hfit (by omega))
      obtain ⟨hle, hlt, hfree, hstart, hrun⟩ := hscan
      have hgrown := hroom _ _ _ 1 (View.Grown.more k hk h0) hgrows hcount
      have hfr : FreeRun (l.grow w.vol.perCluster).slots (l.slots.length - st.freeRun) need := by
        rw [Listing.slots_grow]
        refine ⟨?_, ?_, ?_⟩
        · rw [List.length_append, List.length_replicate]
          omega
        · intro j hj hj' e he
          rcases Nat.lt_or_ge j l.slots.length with h | h
          · rw [List.getElem?_append_left h] at he
            exact hfree j hj h e he
          · rw [List.getElem?_append_right h] at he
            have hmem := List.mem_of_getElem? he
            rw [List.eq_of_mem_replicate hmem]
            exact Or.inl (Block.byte_zero 0)
        · intro hpos e he
          rw [List.getElem?_append_left (by omega)] at he
          exact hstart (by omega) e he
      by_cases h0' : st.freeRun = 0
      · rw [if_pos h0', dirPosInit_eq_posAt xs hn hk]
        have hs : xs.length * w.vol.perCluster = l.slots.length - st.freeRun := by omega
        rw [hs]
        exact hgrown _ _ hfr
      · rw [if_neg h0', hrun (by omega)]
        have hdiv : (l.slots.length - st.freeRun) / w.vol.perCluster < xs.length :=
          Nat.div_lt_of_lt_mul (by rw [Nat.mul_comm]; omega)
        rw [← posAt_append [k] hdiv]
        exact hgrown _ _ hfr

theorem Holds.writeRun {name : CStr} {sum : UInt8} {i s e : Nat} (hch : w.Chain a xs)
    (hs : s + i < xs.length * w.vol.perCluster) {f : DirPos → Prog Drv β}
    (h : Holds (f (posAt w.vol e xs (s + i))) R (w.setSlots xs s (newRun name sum i))) :
    Holds (writeRun name sum (lfnCount name) i (posAt w.vol e xs s) >>= f) R w := by
  induction i generalizing w s with
  | zero =>
      rw [Fat32.writeRun, pure_bind]
      exact h
  | succ i ih =>
      rw [Fat32.writeRun, bind_assoc]
      apply Holds.dirWriteEntry hch (by omega)
      rw [bind_assoc]
      have hch' : (w.setSlot xs s (lfnEntry name sum (lfnCount name) (i + 1))).Chain a xs :=
        hch.of_fat rfl fun _ _ => rfl
      refine Holds.dirNext hch' (by rw [View.vol_setSlot]; omega) (fun _ => ?_) ?_
      · refine ih hch' (by rw [View.vol_setSlot]; omega) ?_
        rw [newRun, View.setSlots] at h
        have hidx : s + 1 + i = s + (i + 1) := by omega
        rw [hidx]
        exact h
      · intro hend
        rw [View.vol_setSlot] at hend
        omega

/-- The entry that `dir_add_entry` builds for a name. -/
def newEntry (l : Listing) (name : CStr) (attr : UInt8) (cluster size : Nat) : DirEntry :=
  shortEntry (pick83 l.has name) attr cluster size

/-- The long name that `dir_add_entry` builds. -/
def newPieces (l : Listing) (name : CStr) : List DirEntry :=
  newRun name (lfnChecksum (pick83 l.has name)) (lfnCount name)

variable (l) in
theorem newEntry_first (name : CStr) (attr : UInt8) (cluster size : Nat) :
    (newEntry l name attr cluster size).first = (pick83 l.has name).getD 0 0 :=
  shortEntry_byte (by omega) (length_pick83 _ _)

theorem newEntry_ok {name : CStr} {attr : UInt8} {cluster size : Nat}
    (hlen : name.length ≤ 255) (hz : ∀ c ∈ name, c ≠ 0)
    (hfirst : (pick83 l.has name).getD 0 0 ≠ 0xE5) (hattr : attr ≠ 0x0F) :
    (Item.entry (newPieces l name) (newEntry l name attr cluster size)).Ok := by
  have hne : ∀ b : UInt8, b = 0 ∨ b = 0x2E → (pick83 l.has name).getD 0 0 ≠ b := by
    intro b hb heq
    rcases pick83_first l.has name with h | h | ⟨hd, c, hc, h⟩
    · rw [heq] at h
      rcases hb with rfl | rfl <;> exact absurd h (by decide)
    · rw [heq] at h
      rcases hb with rfl | rfl <;> exact absurd h (by decide)
    · rcases hb with rfl | rfl
      · exact fToupper_ne_zero (hz c hc) (h ▸ heq)
      · exact hd heq
  refine ⟨?_, ?_, ?_, ?_, ?_⟩
  · rw [newEntry, shortEntry_name (length_pick83 _ _)]
    exact newRun_ok _ hlen
  · rw [newEntry_first]
    exact hne 0 (Or.inl rfl)
  · rw [newEntry_first]
    exact hfirst
  · rw [newEntry, DirEntry.isLfn, shortEntry_attr]
    simpa using hattr
  · have hb : (newEntry l name attr cluster size).byte 0 ≠ 0x2E := by
      have := newEntry_first l name attr cluster size
      rw [DirEntry.first] at this
      rw [this]
      exact hne 0x2E (Or.inr rfl)
    simp [DirEntry.isDot, hb]

/-- `dir_add_entry` for a name whose slots have room in the directory and one
more cluster: the disk is full, or a new listing with the entry. -/
theorem Holds.dirAddEntry_fit (hl : w.Lists a xs l) {name : CStr} {attr : UInt8}
    {cluster size : Nat}
    (hfit : 1 ≤ w.freeCount → RoomFor l.slots w.vol.perCluster (lfnCount name + 1))
    {f : Option DirPos → Prog Drv β}
    (hfull : GrowsBy l.slots (lfnCount name + 1) 1 → w.freeCount = 0 → Holds (f none) R w)
    (hroom : ∀ w' xs' l' m, w.Grown xs l w' xs' l' → GrowsBy l.slots (lfnCount name + 1) m →
      w'.freeCount + m = w.freeCount → ∀ s e, FreeRun l'.slots s (lfnCount name + 1) →
      Holds (f (some (posAt w.vol e xs' (s + lfnCount name)))) R
        (w'.setSlots xs' s (newPieces l name ++ [newEntry l name attr cluster size]))) :
    Holds (dirAddEntry a name attr cluster size >>= f) R w := by
  refine Holds.of_sound fun n hn => ?_
  rw [Fat32.dirAddEntry, bind_assoc]
  apply Holds.make83Unique hl
  rw [bind_assoc]
  apply Holds.findSpace hl (by omega) hfit
  · intro hgrows h0
    simp only [pure_bind]
    exact hfull hgrows h0
  · intro w' xs' l' m hg hgrows hcount s e hrun
    simp only [bind_assoc]
    have hlists := hg.lists hl hn
    have hle := hrun.le
    rw [hlists.length_slots] at hle
    rw [← hg.vol]
    apply Holds.writeRun hlists.chain (by omega)
    have hch' : (w'.setSlots xs' s (newRun name (lfnChecksum (pick83 l.has name))
        (lfnCount name))).Chain a xs' := hlists.chain.setSlots
    have hdone := hroom w' xs' l' m hg hgrows hcount s e hrun
    rw [View.setSlots_append] at hdone
    unfold newPieces at hdone
    rw [length_newRun, ← hg.vol] at hdone
    have hvol : (w'.setSlots xs' s (newRun name (lfnChecksum (pick83 l.has name))
        (lfnCount name))).vol = w'.vol := View.vol_setSlots
    rw [← hvol]
    apply Holds.dirWriteEntry hch' (by rw [hvol]; omega)
    simp only [pure_bind]
    rw [hvol]
    exact hdone

/-- `dir_add_entry` on a directory with at least two sectors per cluster. -/
theorem Holds.dirAddEntry (hl : w.Lists a xs l) (hspc : 2 ≤ w.vol.secPerClus) {name : CStr}
    {attr : UInt8} {cluster size : Nat} (hlen : name.length ≤ 255)
    {f : Option DirPos → Prog Drv β}
    (hfull : (∀ k, w.vol.InRange k → w.fat k ≠ 0) → Holds (f none) R w)
    (hroom : ∀ w' xs' l', w.Grown xs l w' xs' l' → ∀ s e,
      FreeRun l'.slots s (lfnCount name + 1) →
      Holds (f (some (posAt w.vol e xs' (s + lfnCount name)))) R
        (w'.setSlots xs' s (newPieces l name ++ [newEntry l name attr cluster size]))) :
    Holds (dirAddEntry a name attr cluster size >>= f) R w := by
  have hcount := lfnCount_le hlen
  refine Holds.dirAddEntry_fit hl (fun _ => roomFor_of_le ?_)
    (fun _ h0 => hfull (View.freeCount_eq_zero.mp h0))
    (fun w' xs' l' _ hg _ _ s e hrun => hroom w' xs' l' hg s e hrun)
  unfold Vol.perCluster
  omega

theorem View.setSlot_deleted {i e : Nat} : w.setSec (xs.getD (i / w.vol.perCluster) 0)
    (i % w.vol.perCluster / 16)
    ((w.sec (xs.getD (i / w.vol.perCluster) 0) (i % w.vol.perCluster / 16)).patch
      (posAt w.vol e xs i).off [0xE5]) = w.setSlot xs i (w.slot xs i).deleted := by
  unfold View.setSlot View.setEntry DirEntry.deleted View.slot View.entryAt posAt
  rw [Block.patch_slice _ (by simp), Nat.add_zero]

theorem Store.Shows.mark {c : Store} {i : Nat} (hc : c.Shows w) (hr : ∀ x ∈ xs, w.vol.InRange x)
    (hi : i < xs.length * w.vol.perCluster) :
    (c.mark (slotPlace c.vol xs i)).Shows (w.setSlot xs i (w.slot xs i).deleted) := by
  have hk := hr _ (getD_mem hi)
  have hj : i % w.vol.perCluster / 16 < w.vol.secPerClus := index_lt (hc.vol ▸ hc.sound.spc_pos)
  have hset := hc.setSec hk hj ((w.sec (xs.getD (i / w.vol.perCluster) 0)
    (i % w.vol.perCluster / 16)).patch (posAt w.vol 0 xs i).off [0xE5])
  rw [View.setSlot_deleted, ← hc.sec hk hj, ← hc.vol] at hset
  exact hset

/-- Marking the slots `es`. -/
theorem Store.Shows.marks {c : Store} {es : List DirEntry} {j : Nat} (hc : c.Shows w)
    (hch : w.Chain a xs) (hes : ∀ i (h : i < es.length), w.slot xs (j + i) = es[i])
    (hj : j + es.length ≤ xs.length * w.vol.perCluster) :
    (c.marks xs j es.length).Shows (w.setSlots xs j (es.map DirEntry.deleted)) := by
  induction es generalizing c w j with
  | nil => exact hc
  | cons d ds ih =>
      rw [List.length_cons] at hj
      have hlt : j < xs.length * w.vol.perCluster := by omega
      have hmark := hc.mark (fun x hx => hch.inRange hx) hlt
      have hslot : w.slot xs j = d := hes 0 (by simp)
      rw [hslot] at hmark
      refine ih hmark (hch.of_fat rfl fun _ _ => rfl) (fun i hi => ?_)
        (by rw [View.vol_setSlot]; omega)
      have hthis := hes (i + 1) (by simpa using hi)
      rw [List.getElem_cons_succ] at hthis
      rw [View.slot_setSlot, if_neg, ← hthis]
      · congr 1
        omega
      · rintro ⟨hk, hs, ho⟩
        have hi' : j + 1 + i < xs.length * w.vol.perCluster := by omega
        have hnd := hch.nodup (hc.vol ▸ hc.sound)
        rw [List.getD_eq_getElem _ _ (div_lt_length hi'),
          List.getD_eq_getElem _ _ (div_lt_length hlt)] at hk
        have := index_ext ((hnd.getElem_inj_iff).mp hk) hs ho
        omega

end Chimaera.Fat32
