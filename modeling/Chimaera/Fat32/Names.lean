/-
The names that `dir_add_entry` stores: the short name it picks, the long-name
pieces it builds, and that the pieces spell the name they were built from.
-/
import Chimaera.Fat32.Listing

namespace Chimaera.Fat32

open Prog

theorem length_padTo {k : Nat} {bs : List UInt8} (h : bs.length ≤ k) :
    (padTo k bs).length = k := by
  simp [padTo]
  omega

theorem length_make83 (name : CStr) : (make83 name).length = 11 := by
  rw [make83, List.length_append, length_padTo, length_padTo]
  · simp
  · exact List.length_take_le _ _

theorem length_decimal {n : Nat} (h : n < 10000) : (decimal n).length ≤ 4 := by
  rw [decimal, List.length_map]
  exact (Nat.length_toDigits_le_iff (by omega) (by omega)).mpr (by simpa using h)

theorem length_make83Tail (name : CStr) {n : Nat} (h : n < 10000) :
    (make83Tail name n).length = 11 := by
  have hd := length_decimal h
  have hs : (stem83 name (7 - (decimal n).length)).length ≤ 7 - (decimal n).length :=
    List.length_take_le _ _
  rw [make83Tail, List.length_append, length_padTo, List.length_drop, length_make83]
  simp only [List.length_append, List.length_cons]
  omega

/-- The first byte of a padded stem. -/
theorem getD_padTo_append {k : Nat} (hk : 0 < k) (bs cs : List UInt8) :
    (padTo k bs ++ cs).getD 0 0 = bs.headD 0x20 := by
  cases bs with
  | nil =>
      obtain ⟨k, rfl⟩ : ∃ j, k = j + 1 := ⟨k - 1, by omega⟩
      simp [padTo, List.replicate_succ]
  | cons b bs => simp [padTo]

theorem getD_make83 (name : CStr) : (make83 name).getD 0 0 = (stem83 name 8).headD 0x20 :=
  getD_padTo_append (by omega) _ _

/-- A numeric tail keeps the first character of the stem. -/
theorem getD_make83Tail (name : CStr) {n : Nat} (h : n < 10000) :
    (make83Tail name n).getD 0 0 = (stem83 name 8).headD 0x7E := by
  have hd := length_decimal h
  rw [make83Tail, getD_padTo_append (by omega)]
  unfold stem83
  obtain ⟨k, hk⟩ : ∃ k, 7 - (decimal n).length = k + 1 := ⟨6 - (decimal n).length, by omega⟩
  rw [hk]
  cases List.filter (fun c => c != 0x20 && c != 0x2E)
    (List.map fToupper (splitDot name).1) <;> simp

/-- The short name that `make_83_unique` picks when `taken` tells the short
names of the directory. -/
def pick83 (taken : List UInt8 → Bool) (name : CStr) : List UInt8 :=
  if taken (make83 name) then
    ((List.range' 1 9999).findSome? fun n =>
      if taken (make83Tail name n) then none else some (make83Tail name n)).getD (make83 name)
  else make83 name

theorem pick83_cases (taken : List UInt8 → Bool) (name : CStr) :
    pick83 taken name = make83 name ∨ ∃ n, n < 10000 ∧ pick83 taken name = make83Tail name n := by
  unfold pick83
  split
  · cases hf : (List.range' 1 9999).findSome? fun n =>
      if taken (make83Tail name n) then none else some (make83Tail name n) with
    | none => exact Or.inl rfl
    | some r =>
        obtain ⟨n, hn, hr⟩ := List.exists_of_findSome?_eq_some hf
        rw [List.mem_range'] at hn
        obtain ⟨i, hi, rfl⟩ := hn
        refine Or.inr ⟨1 + 1 * i, by omega, ?_⟩
        split at hr
        · cases hr
        · exact (Option.some.inj hr).symm
  · exact Or.inl rfl

theorem length_pick83 (taken : List UInt8 → Bool) (name : CStr) :
    (pick83 taken name).length = 11 := by
  rcases pick83_cases taken name with h | ⟨n, hn, h⟩
  · rw [h, length_make83]
  · rw [h, length_make83Tail name hn]

theorem getD_pick83 (taken : List UInt8 → Bool) (name : CStr) :
    (pick83 taken name).getD 0 0 = (stem83 name 8).headD 0x20 ∨
      (pick83 taken name).getD 0 0 = (stem83 name 8).headD 0x7E := by
  rcases pick83_cases taken name with h | ⟨n, hn, h⟩
  · exact Or.inl (by rw [h, getD_make83])
  · exact Or.inr (by rw [h, getD_make83Tail name hn])

theorem mem_of_mem_splitDot {name : CStr} {c : UInt8} (h : c ∈ (splitDot name).1) :
    c ∈ name := by
  unfold splitDot at h
  rw [List.span_eq_takeWhile_dropWhile] at h
  cases hd : List.dropWhile (fun x => x != 0x2E) name.reverse with
  | nil => simpa [hd] using h
  | cons d stem =>
      simp only [hd, List.mem_reverse] at h
      have hsub := List.dropWhile_sublist (l := name.reverse) fun x => x != 0x2E
      rw [hd] at hsub
      exact List.mem_reverse.mp (hsub.subset (List.mem_cons_of_mem d h))

theorem mem_stem83 {name : CStr} {k : Nat} {b : UInt8} (h : b ∈ stem83 name k) :
    b ≠ 0x2E ∧ ∃ c ∈ name, b = fToupper c := by
  obtain ⟨hmap, hf⟩ := List.mem_filter.mp (List.mem_of_mem_take h)
  simp only [Bool.and_eq_true, bne_iff_ne, ne_eq] at hf
  obtain ⟨c, hc, rfl⟩ := List.mem_map.mp hmap
  exact ⟨hf.2, c, mem_of_mem_splitDot hc, rfl⟩

/-- The first byte of a picked name is a space, a tilde, or the upper case of
a character of the name other than a dot. -/
theorem pick83_first (taken : List UInt8 → Bool) (name : CStr) :
    (pick83 taken name).getD 0 0 = 0x20 ∨ (pick83 taken name).getD 0 0 = 0x7E ∨
      ((pick83 taken name).getD 0 0 ≠ 0x2E ∧
        ∃ c ∈ name, (pick83 taken name).getD 0 0 = fToupper c) := by
  cases hs : stem83 name 8 with
  | nil =>
      rcases getD_pick83 taken name with h | h
      · exact Or.inl (by rw [h, hs, List.headD_nil])
      · exact Or.inr (Or.inl (by rw [h, hs, List.headD_nil]))
  | cons b bs =>
      have hb : b ≠ 0x2E ∧ ∃ c ∈ name, b = fToupper c := mem_stem83 (k := 8) (by simp [hs])
      have hgot : (pick83 taken name).getD 0 0 = b := by
        rcases getD_pick83 taken name with h | h
        · rw [h, hs, List.headD_cons]
        · rw [h, hs, List.headD_cons]
      rw [hgot]
      exact Or.inr (Or.inr hb)

theorem fToupper_ne_zero {c : UInt8} (h : c ≠ 0) : fToupper c ≠ 0 := by
  unfold fToupper
  split
  · next hc =>
      intro heq
      have h₁ := UInt8.le_iff_toNat_le.mp hc.1
      have h₂ := congrArg UInt8.toNat heq
      rw [UInt8.toNat_sub_of_le _ _ (UInt8.le_iff_toNat_le.mpr (by simp at h₁ ⊢; omega))] at h₂
      simp at h₁ h₂
      omega
  · exact h

/-- Upper-casing only changes ASCII letters. -/
theorem fToupper_eq_iff {c b : UInt8} (hb : 0x7F ≤ b) : fToupper c = b ↔ c = b := by
  unfold fToupper
  split
  · next hc =>
      have h₁ := UInt8.le_iff_toNat_le.mp hc.1
      have h₂ := UInt8.le_iff_toNat_le.mp hc.2
      have h₃ := UInt8.le_iff_toNat_le.mp hb
      have hsub : (c - 0x20).toNat = c.toNat - 32 := by
        rw [UInt8.toNat_sub_of_le _ _ (UInt8.le_iff_toNat_le.mpr (by simp at h₁ ⊢; omega))]
        rfl
      simp at h₁ h₂ h₃
      constructor
      · intro heq
        have := congrArg UInt8.toNat heq
        omega
      · rintro rfl
        omega
  · exact Iff.rfl

section ShortEntry

variable {n83 : List UInt8} {attr : UInt8} {cluster size : Nat}

theorem shortEntry_byte {i : Nat} (hi : i < 11) (h : n83.length = 11) :
    (shortEntry n83 attr cluster size).byte i = n83.getD i 0 := by
  unfold shortEntry DirEntry.setSize DirEntry.setCluster
  rw [Block.byte_patch_of_outside _ (by simp; omega), Block.byte_patch_of_outside _ (by simp; omega),
    Block.byte_patch_of_outside _ (by simp; omega), Block.byte_patch_of_outside _ (by simp; omega),
    Block.byte_patch_of_outside _ (by simp; omega)]
  have hb := Block.byte_patch_of_inside (Block.zero 32) (o := 0) (s := n83.take 11) (i := i)
    (by simp [h]; omega) (by omega)
  rw [Nat.zero_add] at hb
  rw [hb, List.take_of_length_le (by omega)]

theorem shortEntry_name (h : n83.length = 11) :
    (shortEntry n83 attr cluster size).name = n83 := by
  apply List.ext_getElem (by simp [DirEntry.name, h])
  intro i hi hi'
  rw [← List.getD_eq_getElem _ 0 hi, ← List.getD_eq_getElem _ 0 hi', DirEntry.name,
    Block.getD_toList, Block.byte_slice _ _ (by omega), Nat.zero_add,
    shortEntry_byte (by omega) h]

@[simp] theorem shortEntry_attr : (shortEntry n83 attr cluster size).attr = attr := by
  unfold shortEntry DirEntry.setSize DirEntry.setCluster DirEntry.attr
  rw [Block.byte_patch_of_outside _ (by simp), Block.byte_patch_of_outside _ (by simp),
    Block.byte_patch_of_outside _ (by simp), Block.byte_patch_of_outside _ (by simp)]
  exact Block.byte_patch_of_inside _ (s := [attr]) (i := 0) (by simp) (by omega)

theorem shortEntry_cluster (h : cluster < 4294967296) :
    (shortEntry n83 attr cluster size).cluster = cluster := by
  unfold shortEntry DirEntry.setSize DirEntry.setCluster DirEntry.cluster
  rw [Block.word_patch_disjoint _ (by simp), Block.word_patch_disjoint _ (by simp),
    Block.word_patch_disjoint _ (by simp), Block.word_patch_same _ (by omega),
    Block.word_patch_disjoint _ (by simp), Block.word_patch_disjoint _ (by simp),
    Block.word_patch_same _ (by omega)]
  omega

theorem shortEntry_size (h : size < 4294967296) :
    (shortEntry n83 attr cluster size).size = size := by
  unfold shortEntry DirEntry.setSize DirEntry.size
  rw [Block.word_patch_disjoint _ (by simp), Block.word_patch_same _ (by omega)]
  omega

end ShortEntry

/-- The pieces that `dir_add_entry` writes for a name, in disk order. -/
def newRun (name : CStr) (sum : UInt8) : Nat → List DirEntry
  | 0 => []
  | i + 1 => lfnEntry name sum (lfnCount name) (i + 1) :: newRun name sum i

@[simp] theorem length_newRun (name : CStr) (sum : UInt8) (i : Nat) :
    (newRun name sum i).length = i := by
  induction i with
  | zero => rfl
  | succ i ih => simp [newRun, ih]

theorem length_lfnChar (name : CStr) (ci : Nat) : (lfnChar name ci).length = 2 := by
  unfold lfnChar
  split
  · rfl
  · split <;> rfl

theorem length_lfnChars (name : CStr) (start k : Nat) :
    (lfnChars name start k).length = 2 * k := by
  rw [lfnChars, List.length_flatMap]
  simp [length_lfnChar, Nat.mul_comm]

/-- The low byte of a character on disk. -/
def lfnLow (name : CStr) (ci : Nat) : UInt8 := (lfnChar name ci).getD 0 0

theorem getD_lfnChars (name : CStr) (start : Nat) {k j : Nat} (hj : j < k) :
    (lfnChars name start k).getD (2 * j) 0 = lfnLow name (start + j) := by
  induction k generalizing j with
  | zero => omega
  | succ k ih =>
      have hsnoc : lfnChars name start (k + 1) =
          lfnChars name start k ++ lfnChar name (start + k) := by
        simp [lfnChars, List.range_succ]
      rw [hsnoc]
      rcases Nat.lt_or_ge j k with hlt | hge
      · rw [List.getD_append _ _ _ _ (by rw [length_lfnChars]; omega), ih hlt]
      · have heq : j = k := by omega
        subst heq
        rw [List.getD_append_right _ _ _ _ (by rw [length_lfnChars]), length_lfnChars,
          Nat.sub_self]
        rfl

section LfnEntry

variable {name : CStr} {sum : UInt8} {count i : Nat}

/-- The bytes before the characters: order, attribute and checksum. -/
theorem lfnEntry_head {b : Nat} (hb : b = 0 ∨ b = 11 ∨ b = 13) :
    (lfnEntry name sum count i).byte b =
      ((((Block.zero 32).patch 0 [UInt8.ofNat i ||| (if i = count then 0x40 else 0)]).patch 11
        [0x0F]).patch 13 [sum]).byte b := by
  unfold lfnEntry
  rw [Block.byte_patch_of_outside _ (by rw [length_lfnChars]; omega),
    Block.byte_patch_of_outside _ (by rw [length_lfnChars]; omega),
    Block.byte_patch_of_outside _ (by rw [length_lfnChars]; omega)]

variable (name sum count i) in
theorem lfnEntry_piece : Piece sum i (decide (i = count)) (lfnEntry name sum count i) := by
  refine ⟨?_, ?_, ?_⟩
  · rw [DirEntry.isLfn, DirEntry.attr, lfnEntry_head (by omega),
      Block.byte_patch_of_outside _ (by simp)]
    have := Block.byte_patch_of_inside ((Block.zero 32).patch 0
      [UInt8.ofNat i ||| (if i = count then 0x40 else 0)]) (o := 11) (s := [0x0F]) (i := 0)
      (by simp) (by omega)
    simpa using this
  · rw [DirEntry.checksum, lfnEntry_head (by omega)]
    exact Block.byte_patch_of_inside _ (o := 13) (s := [sum]) (i := 0) (by simp) (by omega)
  · rw [DirEntry.first, lfnEntry_head (by omega), Block.byte_patch_of_outside _ (by simp),
      Block.byte_patch_of_outside _ (by simp)]
    have := Block.byte_patch_of_inside (Block.zero 32) (o := 0)
      (s := [UInt8.ofNat i ||| (if i = count then 0x40 else 0)]) (i := 0) (by simp) (by omega)
    rw [Nat.zero_add] at this
    rw [this]
    simp [orderByte]

/-- The characters of a piece. -/
theorem lfnExtract_lfnEntry : lfnExtract (lfnEntry name sum count i) =
    (List.range 13).map fun j => lfnLow name ((i - 1) * 13 + j) := by
  have h1 : ∀ j, j < 5 → (lfnEntry name sum count i).byte (1 + 2 * j) =
      lfnLow name ((i - 1) * 13 + j) := by
    intro j hj
    unfold lfnEntry
    rw [Block.byte_patch_of_outside _ (by rw [length_lfnChars]; omega),
      Block.byte_patch_of_outside _ (by rw [length_lfnChars]; omega),
      Block.byte_patch_of_inside _ (by rw [length_lfnChars]; omega) (by omega),
      getD_lfnChars _ _ hj]
  have h2 : ∀ j, j < 6 → (lfnEntry name sum count i).byte (14 + 2 * j) =
      lfnLow name ((i - 1) * 13 + (5 + j)) := by
    intro j hj
    unfold lfnEntry
    rw [Block.byte_patch_of_outside _ (by rw [length_lfnChars]; omega),
      Block.byte_patch_of_inside _ (by rw [length_lfnChars]; omega) (by omega),
      getD_lfnChars _ _ hj, Nat.add_assoc]
  have h3 : ∀ j, j < 2 → (lfnEntry name sum count i).byte (28 + 2 * j) =
      lfnLow name ((i - 1) * 13 + (11 + j)) := by
    intro j hj
    unfold lfnEntry
    rw [Block.byte_patch_of_inside _ (by rw [length_lfnChars]; omega) (by omega),
      getD_lfnChars _ _ hj, Nat.add_assoc]
  have hsplit : List.range 13 = List.range 5 ++ (List.range 6).map (5 + ·) ++
      (List.range 2).map (11 + ·) := by decide
  rw [lfnExtract, hsplit, List.map_append, List.map_append, List.map_map, List.map_map]
  congr 1
  · congr 1
    · exact List.map_congr_left fun j hj => h1 j (List.mem_range.mp hj)
    · exact List.map_congr_left fun j hj => h2 j (List.mem_range.mp hj)
  · exact List.map_congr_left fun j hj => h3 j (List.mem_range.mp hj)

end LfnEntry

theorem newRun_pieces (name : CStr) (sum : UInt8) {i : Nat} (hi : i < lfnCount name) :
    Pieces sum false (newRun name sum i) := by
  induction i with
  | zero => exact trivial
  | succ i ih =>
      refine ⟨?_, ih (by omega)⟩
      have hp := lfnEntry_piece name sum (lfnCount name) (i + 1)
      rw [decide_eq_false (by omega)] at hp
      rw [length_newRun]
      exact hp

theorem lfnCount_le {name : CStr} (h : name.length ≤ 255) : lfnCount name ≤ 20 := by
  unfold lfnCount
  omega

/-- The pieces of a name that fits a name buffer are a complete long name. -/
theorem newRun_ok (sum : UInt8) {name : CStr} (h : name.length ≤ 255) :
    RunOk sum (newRun name sum (lfnCount name)) := by
  have hle := lfnCount_le h
  refine ⟨?_, by rw [length_newRun]; omega⟩
  cases hc : lfnCount name with
  | zero => exact trivial
  | succ i =>
      refine ⟨?_, newRun_pieces name sum (by omega)⟩
      have hp := lfnEntry_piece name sum (lfnCount name) (i + 1)
      rw [decide_eq_true hc.symm] at hp
      rw [length_newRun]
      exact hp

theorem lfnLow_of_lt {name : CStr} {ci : Nat} (h : ci < name.length) :
    lfnLow name ci = name.getD ci 0 := by
  simp [lfnLow, lfnChar, h]

theorem lfnLow_length (name : CStr) : lfnLow name name.length = 0 := by
  simp [lfnLow, lfnChar]

/-- Storing characters of the name where the buffer holds nothing past the end
of the name. -/
theorem lfnStore_name {name : CStr} (hz : ∀ c ∈ name, c ≠ 0) (hlen : name.length ≤ 255)
    {k : Nat} {buf : NameBuf} {p : Nat} (hp : p ≤ name.length)
    (hbuf : ∀ q, name.length ≤ q → buf q = 0) :
    lfnStore buf p ((List.range' p k).map (lfnLow name)) =
      fun q => if p ≤ q ∧ q < p + k ∧ q < name.length then name.getD q 0 else buf q := by
  induction k generalizing buf p with
  | zero =>
      funext q
      simp [lfnStore]
      omega
  | succ k ih =>
      rw [List.range'_succ, List.map_cons, lfnStore]
      rcases Nat.eq_or_lt_of_le hp with heq | hlt
      · rw [heq, lfnLow_length]
        have hsame : (if name.length < 255 then Function.update buf name.length 0 else buf) =
            buf := by
          split
          · rw [← hbuf name.length (Nat.le_refl _), Function.update_eq_self]
          · rfl
        simp only [if_true]
        rw [hsame]
        funext q
        rw [if_neg (by omega)]
      · have hc : lfnLow name p ≠ 0 := by
          rw [lfnLow_of_lt hlt, List.getD_eq_getElem _ _ hlt]
          exact hz _ (List.getElem_mem hlt)
        rw [if_pos (by omega), if_neg hc, ih (by omega)]
        · funext q
          rw [Function.update_apply]
          by_cases hq : q = p
          · subst hq
            rw [if_neg (by omega), if_pos rfl, if_pos (by omega), lfnLow_of_lt hlt]
          · by_cases hin : p + 1 ≤ q ∧ q < p + 1 + k ∧ q < name.length
            · rw [if_pos hin, if_pos (by omega)]
            · rw [if_neg hin, if_neg hq, if_neg (by omega)]
        · intro q hq
          rw [Function.update_of_ne (by omega), hbuf q hq]

/-- The buffer after the pieces `lfnCount name`, ..., `i + 1`. -/
def bufFrom (name : CStr) (i : Nat) : NameBuf := fun q =>
  if i * 13 ≤ q ∧ q < name.length then name.getD q 0 else 0

theorem lfnFeed_newRun {name : CStr} (hz : ∀ c ∈ name, c ≠ 0) (hlen : name.length ≤ 255)
    (sum : UInt8) {i : Nat} (hi : i < lfnCount name) :
    lfnFeed (if i + 1 = lfnCount name then fun _ => 0 else bufFrom name (i + 1))
      (lfnEntry name sum (lfnCount name) (i + 1)) = bufFrom name i := by
  have hle := lfnCount_le hlen
  have hcount : i * 13 ≤ name.length := by
    unfold lfnCount at hi
    omega
  have hp := lfnEntry_piece name sum (lfnCount name) (i + 1)
  rw [lfnFeed, hp.isLast (by omega) (by omega), hp.seq (by omega) (by omega)]
  simp only [decide_eq_true_eq]
  rw [if_pos (by omega), Nat.add_sub_cancel, lfnExtract_lfnEntry, Nat.add_sub_cancel]
  have hrange : ((List.range 13).map fun j => lfnLow name (i * 13 + j)) =
      (List.range' (i * 13) 13).map (lfnLow name) := by
    rw [List.range'_eq_map_range, List.map_map]
    rfl
  rw [hrange]
  have hbase : (if i + 1 = lfnCount name then (fun _ => 0 : NameBuf) else
      if i + 1 = lfnCount name then fun _ => 0 else bufFrom name (i + 1)) =
      bufFrom name (i + 1) := by
    by_cases hlast : i + 1 = lfnCount name
    · rw [if_pos hlast]
      funext q
      unfold bufFrom
      rw [if_neg]
      unfold lfnCount at hlast
      omega
    · rw [if_neg hlast, if_neg hlast]
  rw [hbase, lfnStore_name hz hlen hcount]
  · funext q
    unfold bufFrom
    by_cases hq : i * 13 ≤ q ∧ q < name.length
    · rw [if_pos hq]
      by_cases hin : q < i * 13 + 13
      · rw [if_pos (by omega)]
      · rw [if_neg (by omega), if_pos (by omega)]
    · rw [if_neg hq, if_neg (by omega), if_neg (by omega)]
  · intro q hq
    unfold bufFrom
    rw [if_neg (by omega)]

theorem foldl_newRun {name : CStr} (hz : ∀ c ∈ name, c ≠ 0) (hlen : name.length ≤ 255)
    (sum : UInt8) {i : Nat} (hi : i < lfnCount name) :
    (newRun name sum i).foldl lfnFeed (bufFrom name i) = bufFrom name 0 := by
  induction i with
  | zero => rfl
  | succ i ih =>
      have hfeed := lfnFeed_newRun hz hlen sum (i := i) (by omega)
      rw [if_neg (by omega)] at hfeed
      rw [newRun, List.foldl_cons, hfeed, ih (by omega)]

theorem runBuf_newRun {name : CStr} (hz : ∀ c ∈ name, c ≠ 0) (hlen : name.length ≤ 255)
    (sum : UInt8) : runBuf (newRun name sum (lfnCount name)) = bufFrom name 0 := by
  cases hc : lfnCount name with
  | zero =>
      have : name.length = 0 := by
        unfold lfnCount at hc
        omega
      funext q
      simp [newRun, runBuf, bufFrom, this]
  | succ i =>
      have hfeed := lfnFeed_newRun hz hlen sum (i := i) (by omega)
      rw [if_pos hc.symm] at hfeed
      rw [runBuf, newRun, List.foldl_cons, hfeed, foldl_newRun hz hlen sum (by omega)]

/-- Writing a name as pieces and reading the pieces back gives the name. -/
theorem runName_newRun {name : CStr} (hz : ∀ c ∈ name, c ≠ 0) (hlen : name.length ≤ 255)
    (sum : UInt8) : runName (newRun name sum (lfnCount name)) = name := by
  rw [runName, runBuf_newRun hz hlen, NameBuf.str]
  have hsplit : List.range 256 = List.range name.length ++
      (List.range' name.length (256 - name.length)) := by
    have happ := @List.range'_append_1 0 name.length (256 - name.length)
    rw [Nat.zero_add] at happ
    rw [List.range_eq_range', List.range_eq_range', happ]
    congr 1
    omega
  have hhead : (List.range name.length).map (bufFrom name 0) = name := by
    apply List.ext_getElem (by simp)
    intro q _ hq
    simp [bufFrom, hq]
  rw [hsplit, List.map_append, hhead, List.takeWhile_append_of_pos]
  · obtain ⟨m, hm⟩ : ∃ m, 256 - name.length = m + 1 := ⟨255 - name.length, by omega⟩
    rw [hm, List.range'_succ, List.map_cons, List.takeWhile_cons_of_neg, List.append_nil]
    simp [bufFrom]
  · intro c hc
    simpa using hz c hc

end Chimaera.Fat32
