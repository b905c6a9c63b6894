/-
The slots of a directory: the 32-byte entries of the clusters of its chain, by
number.  Reading, writing and scanning a directory become list operations.
-/
import Chimaera.Fat32.Positions
import Chimaera.Fat32.View

namespace Chimaera.Fat32

open Prog

namespace View

/-- Entry `o` of sector `j` of cluster `k`. -/
def entryAt (w : View) (k j o : Nat) : DirEntry := (w.sec k j).slice (o * 32) 32

def setEntry (w : View) (k j o : Nat) (e : DirEntry) : View :=
  w.setSec k j ((w.sec k j).patch (o * 32) e.toList)

/-- Slot `i` of the directory with the clusters `xs`. -/
def slot (w : View) (xs : List Nat) (i : Nat) : DirEntry :=
  w.entryAt (xs.getD (i / w.vol.perCluster) 0) (i % w.vol.perCluster / 16) (i % 16)

def setSlot (w : View) (xs : List Nat) (i : Nat) (e : DirEntry) : View :=
  w.setEntry (xs.getD (i / w.vol.perCluster) 0) (i % w.vol.perCluster / 16) (i % 16) e

def slots (w : View) (xs : List Nat) : List DirEntry :=
  (List.range (xs.length * w.vol.perCluster)).map (w.slot xs)

variable {w : View} {xs ys : List Nat} {i j k : Nat} {e : DirEntry}

@[simp] theorem vol_setSlot : (w.setSlot xs i e).vol = w.vol := rfl
@[simp] theorem fat_setSlot : (w.setSlot xs i e).fat = w.fat := rfl
@[simp] theorem fds_setSlot : (w.setSlot xs i e).fds = w.fds := rfl

@[simp] theorem length_slots : (w.slots xs).length = xs.length * w.vol.perCluster := by
  simp [slots]

theorem getElem_slots (h : i < (w.slots xs).length) : (w.slots xs)[i] = w.slot xs i := by
  simp [slots]

theorem entryAt_setEntry {k' j' o o' : Nat} (ho : o < 16) (ho' : o' < 16) :
    (w.setEntry k j o e).entryAt k' j' o' =
      if k' = k ∧ j' = j ∧ o' = o then e else w.entryAt k' j' o' := by
  unfold entryAt setEntry
  rw [sec_setSec]
  by_cases hk : k' = k
  · by_cases hj : j' = j
    · subst hk hj
      rw [Function.update_self, Function.update_self]
      by_cases hoo : o' = o
      · subst hoo
        rw [if_pos ⟨rfl, rfl, rfl⟩, Block.slice_patch_same _ e (by omega)]
      · rw [if_neg (fun h => hoo h.2.2),
          Block.slice_patch_disjoint _ (by rw [Block.length_toList]; omega)]
    · subst hk
      rw [Function.update_self, Function.update_of_ne hj, if_neg (fun h => hj h.2.1)]
  · rw [Function.update_of_ne hk, if_neg (fun h => hk h.1)]

theorem slot_setSlot {l : Nat} : (w.setSlot xs i e).slot ys l =
    if ys.getD (l / w.vol.perCluster) 0 = xs.getD (i / w.vol.perCluster) 0 ∧
      l % w.vol.perCluster / 16 = i % w.vol.perCluster / 16 ∧ l % 16 = i % 16 then e
    else w.slot ys l :=
  entryAt_setEntry (by omega) (by omega)

theorem slots_setSlot (hnd : xs.Nodup) (hi : i < xs.length * w.vol.perCluster) :
    (w.setSlot xs i e).slots xs = (w.slots xs).set i e := by
  apply List.ext_getElem (by simp)
  intro l hl _
  rw [length_slots, vol_setSlot] at hl
  rw [getElem_slots, List.getElem_set, getElem_slots, slot_setSlot]
  by_cases hil : i = l
  · subst hil
    rw [if_pos ⟨rfl, rfl, rfl⟩, if_pos rfl]
  · rw [if_neg, if_neg hil]
    rintro ⟨hk, hj, ho⟩
    rw [List.getD_eq_getElem _ _ (div_lt_length hl),
      List.getD_eq_getElem _ _ (div_lt_length hi)] at hk
    have hq := (hnd.getElem_inj_iff).mp hk
    exact hil (index_ext hq hj ho).symm

/-- The slots of a chain depend on the sectors of its clusters only. -/
theorem slots_congr {w' : View} (hv : w'.vol = w.vol) (hsec : ∀ k ∈ xs, w'.sec k = w.sec k) :
    w'.slots xs = w.slots xs := by
  unfold slots
  rw [hv]
  apply List.map_congr_left
  intro l hl
  rw [List.mem_range] at hl
  unfold slot entryAt
  rw [hv, hsec _ (getD_mem hl)]

theorem slots_snoc (hp : 0 < w.vol.perCluster) :
    w.slots (xs ++ [k]) = w.slots xs ++ w.slots [k] := by
  apply List.ext_getElem
  · simp [Nat.succ_mul]
  · intro l hl _
    rw [getElem_slots, List.getElem_append]
    rw [length_slots, List.length_append, List.length_singleton, Nat.succ_mul] at hl
    split
    · next h =>
        rw [length_slots] at h
        rw [getElem_slots, slot, slot, List.getD_append _ _ _ _ (div_lt_length h)]
    · next h =>
        rw [length_slots] at h
        rw [getElem_slots]
        obtain ⟨r, rfl⟩ : ∃ r, l = xs.length * w.vol.perCluster + r :=
          ⟨l - xs.length * w.vol.perCluster, by omega⟩
        have hr : r < w.vol.perCluster := by omega
        rw [length_slots, Nat.add_sub_cancel_left]
        have hdiv : (xs.length * w.vol.perCluster + r) / w.vol.perCluster = xs.length := by
          rw [Nat.mul_comm, Nat.mul_add_div hp, Nat.div_eq_of_lt hr, Nat.add_zero]
        have hmod : (xs.length * w.vol.perCluster + r) % w.vol.perCluster = r := by
          rw [Nat.mul_comm, Nat.mul_add_mod, Nat.mod_eq_of_lt hr]
        have h16 : (xs.length * w.vol.perCluster + r) % 16 = r % 16 := by
          rw [Vol.perCluster, Nat.mul_left_comm]
          omega
        rw [slot, slot, hdiv, hmod, h16, Nat.div_eq_of_lt hr, Nat.mod_eq_of_lt hr]
        simp

theorem slots_zero (h : ∀ j, w.sec k j = Block.zero 512) :
    w.slots [k] = List.replicate w.vol.perCluster (Block.zero 32) := by
  apply List.ext_getElem (by simp)
  intro l hl _
  rw [length_slots, List.length_singleton, Nat.one_mul] at hl
  rw [getElem_slots, List.getElem_replicate, slot, entryAt, Nat.div_eq_of_lt hl]
  rw [List.getD_cons_zero, h]
  ext b hb
  rw [Block.byte_slice _ _ hb, Block.byte_zero, Block.byte_zero]

end View

/-- A scan over a list of slots, the first of which has number `i`: the answer
of the step that left it, or the state at the end. -/
def scanSlots {L R : Type} (step : L → DirPos → DirEntry → L ⊕ R) (pos : Nat → DirPos) :
    L → Nat → List DirEntry → R ⊕ L
  | st, _, [] => .inr st
  | st, i, e :: es => match step st (pos i) e with
    | .inr r => .inl r
    | .inl st' => scanSlots step pos st' (i + 1) es

theorem scanSlots_append {L R : Type} {step : L → DirPos → DirEntry → L ⊕ R}
    {pos : Nat → DirPos} {st : L} {i : Nat} {es fs : List DirEntry} :
    scanSlots step pos st i (es ++ fs) = match scanSlots step pos st i es with
      | .inl r => .inl r
      | .inr st' => scanSlots step pos st' (i + es.length) fs := by
  induction es generalizing st i with
  | nil => rfl
  | cons e es ih =>
      rw [List.cons_append, scanSlots, scanSlots]
      cases step st (pos i) e with
      | inl st' =>
          simp only [ih, List.length_cons]
          have hlen : i + 1 + es.length = i + (es.length + 1) := by omega
          rw [hlen]
      | inr r => rfl

/-- The driver's scan of a directory is the scan of the slots on the disk. -/
theorem On.scanDir {β L M : Type} {R : β → Store → Prop} {c : Store} {a i e : Nat} {xs : List Nat}
    (hs : c.vol.Sound c.sectors) (hch : c.Chain a xs) (hi : i < xs.length * c.vol.perCluster)
    {step : L → DirPos → DirEntry → L ⊕ M} {st : L} {f : ScanEnd L M → Prog Drv β}
    (hstop : ∀ r, scanSlots step (posAt c.vol e xs) st i ((c.slots xs).drop i) = .inl r →
      On (f (.stop r)) R c)
    (hend : ∀ st', scanSlots step (posAt c.vol e xs) st i ((c.slots xs).drop i) = .inr st' →
      ∀ pos, pos.cluster = xs.getLastD 0 → On (f (.endOfDir st' pos)) R c) :
    On (scanDir step st (posAt c.vol e xs i) >>= f) R c := by
  apply On.bind
  rw [Fat32.scanDir]
  induction hm : xs.length * c.vol.perCluster - i generalizing i st with
  | zero => omega
  | succ m ih =>
      have hlen : i < (c.slots xs).length := by
        rw [Store.length_slots]
        exact hi
      have hcons : (c.slots xs).drop i = c.slot xs i :: (c.slots xs).drop (i + 1) := by
        rw [List.drop_eq_getElem_cons hlen, Store.getElem_slots]
      rw [hcons] at hstop hend
      simp only [scanSlots] at hstop hend
      apply On.loop
      apply On.dirReadEntry hs hch hi
      cases hstep : step st (posAt c.vol e xs i) (c.slot xs i) with
      | inr r =>
          simp only [hstep] at hstop ⊢
          exact On.pure (hstop r rfl)
      | inl st' =>
          simp only [hstep] at hstop hend ⊢
          apply On.dirNext hs hch hi
          · intro hlt
            simp only [if_true]
            exact On.pure (ih hlt hstop hend (by omega))
          · intro hlast pos hpos
            simp only [Bool.false_eq_true, if_false]
            apply On.pure
            have hnil : (c.slots xs).drop (i + 1) = [] := by
              apply List.drop_eq_nil_of_le
              rw [Store.length_slots, hlast]
            exact hend st' (by rw [hnil]; rfl) pos hpos

section Rules

variable {β L M : Type} {R : β → View → Prop} {w : View} {a i e : Nat} {xs : List Nat}

theorem View.Chain.inRange (h : w.Chain a xs) {k : Nat} (hk : k ∈ xs) : w.vol.InRange k :=
  Links.Chain.mem_ok h k hk

theorem View.Chain.fat_getD (h : w.Chain a xs) (hi : i + 1 < xs.length) :
    w.fat (xs.getD i 0) = xs.getD (i + 1) 0 := by
  rw [List.getD_eq_getElem _ _ hi, List.getD_eq_getElem _ _ (Nat.lt_of_succ_lt hi)]
  exact Links.Path.next_getElem h.choose_spec.2 hi

theorem View.Chain.fat_last (h : w.Chain a xs) (hne : xs ≠ []) :
    0x0FFFFFF8 ≤ w.fat (xs.getLastD 0) := by
  have hsplit : w.Chain a (xs.dropLast ++ [xs.getLastD 0]) := by
    rw [← eq_append_getLastD hne 0]
    exact h
  exact Links.Chain.fin_next_last hsplit

theorem Store.Shows.chain {c : Store} (hc : c.Shows w) (h : w.Chain a xs) : c.Chain a xs := by
  obtain ⟨b, hb, hp⟩ := h
  refine ⟨b, hb, ?_⟩
  rw [hc.vol]
  exact hp.congr fun k hk => hc.fat (hp.mem_ok k hk)

theorem Store.Shows.slot {c : Store} (hc : c.Shows w) (hr : ∀ k ∈ xs, w.vol.InRange k)
    (hi : i < xs.length * w.vol.perCluster) : c.slot xs i = w.slot xs i := by
  have hj : i % w.vol.perCluster / 16 < w.vol.secPerClus := index_lt (hc.vol ▸ hc.sound.spc_pos)
  rw [View.slot, View.entryAt, ← hc.sec (hr _ (getD_mem hi)) hj, ← hc.vol]
  rfl

theorem Store.Shows.slots {c : Store} (hc : c.Shows w) (hr : ∀ k ∈ xs, w.vol.InRange k) :
    c.slots xs = w.slots xs := by
  rw [Store.slots, View.slots, hc.vol]
  exact List.map_congr_left fun i hi => hc.slot hr (List.mem_range.mp hi)

theorem Store.Shows.freeChain {c : Store} (hc : c.Shows w) (hr : ∀ k ∈ xs, w.vol.InRange k) :
    (c.freeChain xs).Shows (w.freeChain xs) := by
  induction xs generalizing c w with
  | nil => exact hc.congr (by simp [View.freeChain])
  | cons k ks ih =>
      have hset := hc.setFat (hr k List.mem_cons_self) (x := 0) (by omega)
      refine (ih hset fun y hy => hr y (List.mem_cons_of_mem k hy)).congr ?_
      unfold View.freeChain View.setFat
      congr 1
      funext y
      by_cases hy : y = k
      · subst hy
        simp
      · simp [hy]

theorem Holds.fatFreeChain (hch : w.Chain a xs) {f : Unit → Prog Drv β}
    (h : Holds (f ()) R (w.freeChain xs)) : Holds (fatFreeChain a >>= f) R w :=
  fun _ hc => On.fatFreeChain hc.sound (hc.chain hch)
    (h _ (hc.freeChain fun _ hk => hch.inRange hk))

theorem Holds.dirWriteEntry (hch : w.Chain a xs) (hi : i < xs.length * w.vol.perCluster)
    {d : DirEntry} {f : Bool → Prog Drv β} (h : Holds (f true) R (w.setSlot xs i d)) :
    Holds (dirWriteEntry (posAt w.vol e xs i) d >>= f) R w := by
  refine Holds.of_sound fun n hn => ?_
  have hk := hch.inRange (getD_mem hi)
  have hj : i % w.vol.perCluster / 16 < w.vol.secPerClus := index_lt hn.spc_pos
  rw [Fat32.dirWriteEntry, bind_assoc]
  apply Holds.secRead rfl hk hj
  rw [if_pos rfl, bind_assoc]
  exact HoldsAt.update_flush hk hj h

/-- The next slot, or the end of the directory. -/
theorem Holds.dirNext (hch : w.Chain a xs) (hi : i < xs.length * w.vol.perCluster)
    {f : Bool × DirPos → Prog Drv β}
    (hnext : i + 1 < xs.length * w.vol.perCluster →
      Holds (f (true, posAt w.vol e xs (i + 1))) R w)
    (hend : i + 1 = xs.length * w.vol.perCluster → ∀ pos, pos.cluster = xs.getLastD 0 →
      Holds (f (false, pos)) R w) :
    Holds (dirNext (posAt w.vol e xs i) >>= f) R w := by
  intro c hc
  have hcv := hc.vol
  rw [← hcv] at hi hnext hend ⊢
  exact On.dirNext hc.sound (hc.chain hch) hi (fun h => hnext h c hc)
    fun h pos hpos => hend h pos hpos c hc

/-- The driver's scan of a directory is the scan of its slots. -/
theorem Holds.scanDir (hch : w.Chain a xs) (hi : i < xs.length * w.vol.perCluster)
    {step : L → DirPos → DirEntry → L ⊕ M} {st : L} {f : ScanEnd L M → Prog Drv β}
    (hstop : ∀ r, scanSlots step (posAt w.vol e xs) st i ((w.slots xs).drop i) = .inl r →
      Holds (f (.stop r)) R w)
    (hend : ∀ st', scanSlots step (posAt w.vol e xs) st i ((w.slots xs).drop i) = .inr st' →
      ∀ pos, pos.cluster = xs.getLastD 0 → Holds (f (.endOfDir st' pos)) R w) :
    Holds (scanDir step st (posAt w.vol e xs i) >>= f) R w := by
  intro c hc
  rw [← hc.slots fun k hk => hch.inRange hk, ← hc.vol] at hstop hend
  rw [← hc.vol] at hi ⊢
  exact On.scanDir hc.sound (hc.chain hch) hi (fun r hr => hstop r hr c hc)
    fun st' hst pos hpos => hend st' hst pos hpos c hc

end Rules

end Chimaera.Fat32
