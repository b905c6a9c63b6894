/-
The short name that `make_83_unique` picks is new in its directory: the numeric
tails differ, and the directory has too few entries to take all of them.
-/
import Chimaera.Fat32.Endings
import Chimaera.Fat32.Names

namespace Chimaera.Fat32

open Prog

section Tails

variable {n m : Nat} {name : CStr} {taken : List UInt8 → Bool} {names : List (List UInt8)}

theorem digit_bounds {c : Char} (hc : c ∈ Nat.toDigits 10 n) : 48 ≤ c.toNat ∧ c.toNat ≤ 57 :=
  Char.isDigit_iff_toNat.mp (Nat.isDigit_of_mem_toDigits (by decide) (by decide) hc)

theorem mem_decimal {b : UInt8} (hb : b ∈ decimal n) : 48 ≤ b.toNat ∧ b.toNat ≤ 57 := by
  obtain ⟨c, hc, rfl⟩ := List.mem_map.mp hb
  have hd := digit_bounds hc
  rw [UInt8.toNat_ofNat_of_lt' (hd.2.trans_lt (by decide))]
  exact hd

theorem decimal_ne_nil : decimal n ≠ [] := by
  unfold decimal
  rw [Ne, List.map_eq_nil_iff]
  exact Nat.toDigits_ne_nil

/-- The characters of a number are read back from its bytes. -/
theorem toDigits_of_decimal :
    (decimal n).map (fun b => Char.ofNat b.toNat) = Nat.toDigits 10 n := by
  unfold decimal
  rw [List.map_map]
  conv_rhs => rw [← List.map_id (Nat.toDigits 10 n)]
  apply List.map_congr_left
  intro c hc
  have hd := digit_bounds hc
  rw [Function.comp_apply, UInt8.toNat_ofNat_of_lt' (hd.2.trans_lt (by decide)), Char.ofNat_toNat, id_eq]

theorem decimal_inj (h : decimal n = decimal m) : n = m := by
  have hdigits : Nat.toDigits 10 n = Nat.toDigits 10 m := by
    rw [← toDigits_of_decimal, h, toDigits_of_decimal]
  have hparsed := congrArg (fun digits => Nat.ofDigitChars 10 digits 0) hdigits
  simpa only [Nat.ofDigitChars_ten_toDigits] using hparsed

/-- Behind the last tilde of a padded stem stands the number. -/
theorem decimal_of_padTo (k : Nat) (stem : List UInt8) :
    ((padTo k (stem ++ 0x7E :: decimal n)).reverse.dropWhile (· == 0x20)).takeWhile (· != 0x7E) =
      (decimal n).reverse := by
  have hdigit : ∀ b ∈ (decimal n).reverse, (b == 0x20) = false ∧ (b != 0x7E) = true := by
    intro b hb
    have hd := mem_decimal (List.mem_reverse.mp hb)
    constructor
    · rw [beq_eq_false_iff_ne]
      rintro rfl
      exact absurd hd.1 (by decide)
    · rw [bne_iff_ne]
      rintro rfl
      exact absurd hd.2 (by decide)
  rw [padTo, List.reverse_append, List.reverse_replicate, List.reverse_append, List.reverse_cons,
    List.append_assoc, List.dropWhile_append_of_pos fun b hb => ?_]
  · obtain ⟨b, bs, hcons⟩ := List.exists_cons_of_ne_nil
      (show (decimal n).reverse ≠ [] by simpa using decimal_ne_nil)
    have hb := hdigit b (by rw [hcons]; exact List.mem_cons_self)
    have hdrop : List.dropWhile (· == 0x20) ((decimal n).reverse ++ ([0x7E] ++ stem.reverse)) =
        (decimal n).reverse ++ ([0x7E] ++ stem.reverse) := by
      rw [hcons, List.cons_append, List.dropWhile_cons_of_neg (by simp [hb.1])]
    rw [hdrop, List.takeWhile_append_of_pos fun b hb => (hdigit b hb).2]
    simp
  · rw [List.mem_replicate] at hb
    simp [hb.2]

theorem length_padded {n : Nat} (h : n < 10000) (name : CStr) :
    (padTo 8 (stem83 name (7 - (decimal n).length) ++ 0x7E :: decimal n)).length = 8 := by
  have hd := length_decimal h
  have hs : (stem83 name (7 - (decimal n).length)).length ≤ 7 - (decimal n).length :=
    List.length_take_le _ _
  apply length_padTo
  simp only [List.length_append, List.length_cons]
  omega

theorem make83Tail_inj (hn : n < 10000) (hm : m < 10000)
    (h : make83Tail name n = make83Tail name m) : n = m := by
  have hpad := congrArg (List.take 8) h
  rw [make83Tail, make83Tail, List.take_left' (length_padded hn name),
    List.take_left' (length_padded hm name)] at hpad
  have hrev : (decimal n).reverse = (decimal m).reverse := by
    rw [← decimal_of_padTo 8 (stem83 name (7 - (decimal n).length)), hpad, decimal_of_padTo]
  exact decimal_inj (List.reverse_injective hrev)

/-- Fewer names than there are tails leave one over. -/
theorem not_mem_pick83 (name : CStr) (h : names.length < 9999) :
    pick83 (fun x => decide (x ∈ names)) name ∉ names := by
  unfold pick83
  split
  · cases hf : (List.range' 1 9999).findSome? fun n =>
      if decide (make83Tail name n ∈ names) then none else some (make83Tail name n) with
    | none =>
        -- all tails are taken, so there are as many names
        rw [List.findSome?_eq_none_iff] at hf
        have hnodup : ((List.range' 1 9999).map (make83Tail name)).Nodup := by
          refine List.Nodup.map_on (fun n hn m hm heq => ?_) List.nodup_range'
          rw [List.mem_range'_1] at hn hm
          exact make83Tail_inj (by omega) (by omega) heq
        have hsub : (List.range' 1 9999).map (make83Tail name) ⊆ names := by
          intro x hx
          obtain ⟨n, hn, rfl⟩ := List.mem_map.mp hx
          by_contra hno
          have := hf n hn
          simp [hno] at this
        have hle := (List.subperm_of_subset hnodup hsub).length_le
        rw [List.length_map, List.length_range'] at hle
        omega
    | some r =>
        obtain ⟨n, -, hr⟩ := List.exists_of_findSome?_eq_some hf
        rw [Option.getD_some]
        split at hr
        · cases hr
        · next hno =>
            rw [← Option.some.inj hr]
            simpa using hno
  · next hno => simpa using hno

/-- The extension is the plain one. -/
theorem drop_pick83 (taken : List UInt8 → Bool) (name : CStr) :
    (pick83 taken name).drop 8 = (make83 name).drop 8 := by
  rcases pick83_cases taken name with h | ⟨n, hn, h⟩
  · rw [h]
  · rw [h, make83Tail, List.drop_left' (length_padded hn name)]

end Tails

section Directory

variable {c : Store} {s : Drv} {a k i : Nat} {xs : List Nat} {es : List DirEntry} {name : CStr}

theorem Store.Sees.make83Unique (h : c.Sees a 0 es) (hspc : c.vol.secPerClus ≤ 128)
    (hpos : 0 < c.vol.perCluster) (name : CStr) : Stays c.Behind (make83Unique a name)
      (pick83 (fun x => decide (x ∈ shortNames es)) name) := by
  refine Moves.bind (h.dir83Exists hspc hpos _) ?_
  unfold pick83
  split
  · refine Moves.bind (Moves.forUntil (fun n => ?_) 9999 1) Moves.pure
    refine Moves.bind (h.dir83Exists hspc hpos _) ?_
    split
    · exact Moves.pure
    · exact Moves.pure
  · exact Moves.pure

/-- The slots of a cluster; those that cannot be read are missing. -/
def Store.clusterSlots (c : Store) (k : Nat) : List (Option DirEntry) :=
  (List.range c.vol.perCluster).map (c.slotOf k)

/-- The entries before the first unused or unreadable slot. -/
def visible : List (Option DirEntry) → List DirEntry
  | some e :: os => if e.first = 0 then [] else e :: visible os
  | _ => []

theorem visible_zero {e : DirEntry} {os : List (Option DirEntry)} (h : e.first = 0) :
    visible (some e :: os) = [] := if_pos h

theorem visible_some {e : DirEntry} {os : List (Option DirEntry)} (h : e.first ≠ 0) :
    visible (some e :: os) = e :: visible os := if_neg h

theorem Store.sees_cluster {os : List (Option DirEntry)} (hi : i < c.vol.perCluster)
    (hrest : ¬ IsLink (c.link k) ∧ os = [] ∨
      IsLink (c.link k) ∧ c.Sees (c.link k) 0 (visible os)) :
    c.Sees k i (visible ((c.clusterSlots k).drop i ++ os)) := by
  have hlen : (c.clusterSlots k).length = c.vol.perCluster := by simp [Store.clusterSlots]
  induction hm : c.vol.perCluster - i generalizing i with
  | zero => omega
  | succ m ih =>
      have hdrop : (c.clusterSlots k).drop i = c.slotOf k i :: (c.clusterSlots k).drop (i + 1) := by
        rw [List.drop_eq_getElem_cons (by omega)]
        simp [Store.clusterSlots]
      rw [hdrop, List.cons_append]
      cases hslot : c.slotOf k i with
      | none => exact .unreadable hslot
      | some e =>
          by_cases h0 : e.first = 0
          · rw [visible_zero h0]
            exact .zero hslot h0
          rw [visible_some h0]
          rcases Nat.lt_or_ge (i + 1) c.vol.perCluster with hlt | hge
          · exact .next hslot h0 hlt (ih hlt (by omega))
          have hnil : (c.clusterSlots k).drop (i + 1) = [] := List.drop_eq_nil_of_le (by omega)
          rw [hnil, List.nil_append]
          rcases hrest with ⟨hl, rfl⟩ | ⟨hl, hsees⟩
          · exact .last hslot h0 (by omega) hl
          · exact .hop hslot h0 (by omega) hl hsees

/-- A directory whose links end shows the entries of its clusters. -/
theorem Store.sees_chain (hpos : 0 < c.vol.perCluster)
    (hch : Links.Chain c.link IsLink (fun x => ¬ IsLink x) a xs) (hne : xs ≠ []) :
    c.Sees a 0 (visible (xs.flatMap c.clusterSlots)) := by
  induction xs generalizing a with
  | nil => exact absurd rfl hne
  | cons x xs ih =>
      obtain ⟨rfl, -, hrest⟩ := Links.Chain.cons_iff.mp hch
      rw [List.flatMap_cons]
      refine Store.sees_cluster (i := 0) hpos ?_
      cases xs with
      | nil =>
          obtain ⟨b, hb, rfl⟩ := hrest
          exact Or.inl ⟨hb, rfl⟩
      | cons y ys =>
          obtain ⟨heq, hy, -⟩ := Links.Chain.cons_iff.mp hrest
          exact Or.inr ⟨heq ▸ hy, ih hrest (List.cons_ne_nil y ys)⟩

/-- In a directory whose links end and whose entries leave a tail over,
`make_83_unique` answers a name of eleven bytes that no entry has, with the plain
extension. -/
theorem make83Unique_fresh (hs : s.Steady) (hv : s.vol.Sound s.sectors)
    (hch : Links.Chain s.link IsLink (fun x => ¬ IsLink x) a xs) (hne : xs ≠ [])
    (hfew : (shortNames (visible (xs.flatMap s.clusterSlots))).length < 9999) (name : CStr) :
    ∃ n83 s', (make83Unique a name).Runs s n83 s' ∧ n83.length = 11 ∧
      n83.drop 8 = (make83 name).drop 8 ∧ (dir83Exists a n83).Answers s' false := by
  have hpos := perCluster_pos hv
  have hsees := Store.sees_chain hpos hch hne
  obtain ⟨s', hr, hs'⟩ := hsees.make83Unique hv.spc_le hpos name s ⟨hs, rfl⟩
  refine ⟨_, s', hr, length_pick83 _ name, drop_pick83 _ name, ?_⟩
  rw [← decide_eq_false (not_mem_pick83 name hfew)]
  exact (hsees.dir83Exists hv.spc_le hpos _).answers hs'

/-- A directory of two files, which have the plain short name of `a` and its first tail. -/
def takenSector : Sector :=
  ((Block.zero 512).patch 0 (shortEntry (make83 [0x61]) 0x20 0 0).toList).patch 32
    (shortEntry (make83Tail [0x61] 1) 0x20 0 0).toList

theorem make83Unique_fresh_taken :
    shortNames (visible ([2].flatMap (one 0x0FFFFFFF takenSector).clusterSlots)) =
      [make83 [0x61], make83Tail [0x61] 1] ∧
    ∃ n83 s', (make83Unique 2 [0x61]).Runs (one 0x0FFFFFFF takenSector) n83 s' ∧
      n83.length = 11 ∧ n83.drop 8 = (make83 [0x61]).drop 8 ∧
      (dir83Exists 2 n83).Answers s' false := by
  have hlink : (one 0x0FFFFFFF takenSector).link 2 = 0x0FFFFFFF := by decide +kernel
  have hnames : shortNames (visible ([2].flatMap (one 0x0FFFFFFF takenSector).clusterSlots)) =
      [make83 [0x61], make83Tail [0x61] 1] := by decide +kernel
  have hch : Links.Chain (one 0x0FFFFFFF takenSector).link IsLink (fun x => ¬ IsLink x) 2 [2] :=
    ⟨0x0FFFFFFF, by decide, rfl, by decide, hlink⟩
  refine ⟨hnames, make83Unique_fresh (one_steady _ _) (one_sound _ _) hch (by decide) ?_ [0x61]⟩
  rw [hnames]
  decide

end Directory

end Chimaera.Fat32
