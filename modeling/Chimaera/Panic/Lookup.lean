/-
What the panic handler prints for an address, over every embedded table.
-/
import Chimaera.Panic.Symtab
import Mathlib.Data.List.Pairwise

namespace Chimaera.Panic

def ElfSym.start (f : ElfSym) : Nat := f.stValue.toNat

def ElfSym.stop (f : ElfSym) : Nat := f.stValue.toNat + f.stSize.toNat

def ElfSym.Covers (f : ElfSym) (a : UInt32) : Prop := f.start ≤ a.toNat ∧ a.toNat < f.stop

instance (f : ElfSym) (a : UInt32) : Decidable (f.Covers a) := inferInstanceAs (Decidable (_ ∧ _))

/-- The name in the string table, `"?"` for one outside of it. -/
def ElfSym.nameIn (f : ElfSym) (strtab : List UInt8) : List UInt8 :=
  if f.stName.toNat < strtab.length then (strtab.drop f.stName.toNat).takeWhile (· ≠ 0) else [63]

/-- What the caller of `lookup_symbol` prints. -/
def Symtab.answer (t : Symtab) (a : UInt32) : Option (List UInt8 × UInt32) :=
  (lookupSymbol t a).map fun r => (t.text r.1, r.2)

/-- The answer is the function that covers the address, or none. -/
def Symtab.Answers (t : Symtab) (raw : List ElfSym) (strtab : List UInt8) (a : UInt32) : Prop :=
  (∀ f ∈ funcs raw, f.Covers a → t.answer a = some (f.nameIn strtab, a - f.stValue)) ∧
    ((∀ f ∈ funcs raw, ¬ f.Covers a) → t.answer a = none)

/-- An embedded table: its functions lie apart from each other within the
address space, and the heap has room for their copy. -/
structure Embedded (raw : List ElfSym) (strtab : List UInt8) (h : Heap) : Prop where
  strtab_ne : strtab ≠ []
  max : (funcs raw).length ≤ panicMaxSyms
  size_pos : ∀ f ∈ funcs raw, f.start < f.stop
  no_wrap : ∀ f ∈ funcs raw, f.stop ≤ 4294967296
  apart : (funcs raw).Pairwise fun f g => f.stop ≤ g.start ∨ g.stop ≤ f.start
  heap : h.ptr + (strtab.length + 4) / 4 * 4 + (funcs raw).length * 12 ≤ heapSize

/-- What `symtab_init` leaves of a table with functions. -/
structure Symtab.Loaded (t : Symtab) (raw : List ElfSym) (strtab : List UInt8) : Prop where
  strtab_eq : t.strtab = some (strtab ++ [0])
  loaded : ∃ syms, t.syms = some syms ∧ SortedTo SymEntry.start t.symCount syms ∧
    (firsts syms t.symCount).Perm ((funcs raw).map (ElfSym.entry strtab.length))

variable {raw : List ElfSym} {strtab : List UInt8} {h : Heap} {m : Mem} {f g : ElfSym}
  {a : UInt32} {t : Symtab}

theorem symtabInit_of_no_funcs (he : Embedded raw strtab h) (hnil : funcs raw = []) :
    (symtabInit raw strtab Symtab.initial h m).1.syms = none := by
  rw [symtabInit]
  split
  · rfl
  have hroom := he.heap
  unfold heapSize at hroom
  have hcount : countFuncs raw 0 = 0 := by
    rw [countFuncs_eq (by simp [hnil]), hnil]
    rfl
  rw [Nat.mod_eq_of_lt (by omega), kmalloc_of_room (by unfold heapSize; omega)]
  simp [hcount, Symtab.initial]

theorem symtabInit_loaded (he : Embedded raw strtab h) (hne : funcs raw ≠ []) :
    (symtabInit raw strtab Symtab.initial h m).1.Loaded raw strtab := by
  have hroom := he.heap
  unfold heapSize at hroom
  have hraw : raw ≠ [] := by
    rintro rfl
    exact hne rfl
  have hpos := List.length_pos_of_ne_nil hne
  have hcount : countFuncs raw 0 = (funcs raw).length := by
    rw [countFuncs_eq (by simpa using he.max), Nat.zero_add]
  have hroom₀ : 0 + (funcs raw).length ≤ (funcs raw).length := by omega
  obtain ⟨hidx, hfirsts⟩ := @copyFuncs_spec raw 0 (funcs raw).length strtab.length zeroSyms hroom₀
  rw [Nat.zero_add] at hidx hfirsts
  rw [symtabInit, if_neg (by simp [hraw, he.strtab_ne]), Nat.mod_eq_of_lt (by omega),
    kmalloc_of_room (by unfold heapSize; omega)]
  simp only [hcount]
  rw [if_neg (by omega), kmalloc_of_room (by unfold heapSize; simp only; omega)]
  refine ⟨rfl, _, rfl, ?_, ?_⟩
  · exact insertionSort_spec.2.2
  · simp only [hidx]
    rw [sortSyms]
    have hperm := (@insertionSort_spec _ _ _ SymEntry.start
      (copyFuncs strtab.length (funcs raw).length raw 0 zeroSyms).2 (funcs raw).length).2.1
    rw [hfirsts] at hperm
    exact hperm

theorem Symtab.Loaded.text (hl : t.Loaded raw strtab) :
    (f.entry strtab.length).name.map t.text = some (f.nameIn strtab) := by
  rw [ElfSym.entry, Option.map_some, ElfSym.nameIn]
  split
  · rename_i hlt
    rw [Symtab.text, hl.strtab_eq, Option.getD_some, List.drop_append_of_le_length (Nat.le_of_lt hlt),
      List.takeWhile_append]
    split
    · rename_i hlen
      rw [(List.takeWhile_prefix _).eq_of_length hlen]
      simp
    · rfl
  · rfl

/-- The best entry is the function with the greatest start not above the
address. -/
theorem Symtab.Loaded.answer_cases (hl : t.Loaded raw strtab) :
    (t.answer a = none ∧ ∀ f ∈ funcs raw, a.toNat < f.start) ∨
    ∃ g ∈ funcs raw, g.start ≤ a.toNat ∧ (∀ f ∈ funcs raw, f.start ≤ a.toNat → f.start ≤ g.start) ∧
      t.answer a = if a > (g.entry strtab.length).limit then none
        else some (g.nameIn strtab, a - g.stValue) := by
  obtain ⟨syms, hsyms, hsorted, hperm⟩ := hl.loaded
  have hentry : ∀ f ∈ funcs raw, f.entry strtab.length ∈ firsts syms t.symCount :=
    fun f hf => hperm.mem_iff.mpr (List.mem_map_of_mem hf)
  rcases @lastBelow_sorted a t.symCount syms hsorted with ⟨hscan, habove⟩ | ⟨k, hscan, hk, hle, hmax⟩
  · refine Or.inl ⟨?_, fun f hf => habove _ (hentry f hf)⟩
    simp [answer, lookupSymbol, hsyms, hscan]
  · obtain ⟨g, hg, heq⟩ := List.mem_map.mp (hperm.mem_iff.mp hk)
    rw [← heq] at hle hmax
    refine Or.inr ⟨g, hg, hle, fun f hf => hmax _ (hentry f hf), ?_⟩
    simp only [answer, lookupSymbol, hsyms, hscan, ← heq]
    split
    · rfl
    · have htext := hl.text (f := g)
      revert htext
      cases (g.entry strtab.length).name with
      | none => simp
      | some name =>
          intro htext
          have hname : t.text name = g.nameIn strtab := by simpa using htext
          simp [hname, ElfSym.entry]

theorem answer_of_no_funcs (hsyms : t.syms = none) : t.answer a = none := by
  simp [Symtab.answer, lookupSymbol, hsyms]

namespace Embedded

theorem stValue_pos (hf : f ∈ funcs raw) : 0 < f.start := by
  have hfunc : f.IsFunc := by simpa using (List.mem_filter.mp hf).2
  exact UInt32.lt_iff_toNat_lt.mp (UInt32.pos_iff_ne_zero.mpr hfunc.2.2)

/-- The bound wraps exactly for the function that ends with the address space. -/
theorem limit_toNat (he : Embedded raw strtab h) (hf : f ∈ funcs raw) :
    (f.entry strtab.length).limit.toNat = f.stop % 4294967296 := by
  have hpos := he.size_pos f hf
  rw [ElfSym.start, ElfSym.stop] at hpos
  have hne : f.stSize ≠ 0 := by
    intro hz
    rw [hz] at hpos
    exact Nat.lt_irrefl _ hpos
  rw [ElfSym.entry, SymEntry.limit, if_pos hne, UInt32.toNat_add, ElfSym.stop]

theorem eq_or_apart (he : Embedded raw strtab h) (hf : f ∈ funcs raw) (hg : g ∈ funcs raw) :
    f = g ∨ f.stop ≤ g.start ∨ g.stop ≤ f.start := by
  by_cases heq : f = g
  · exact Or.inl heq
  · have hsymm : Std.Symm fun f g : ElfSym => f.stop ≤ g.start ∨ g.stop ≤ f.start :=
      ⟨fun _ _ hfg => hfg.symm⟩
    exact Or.inr (he.apart.forall hf hg heq)

/-- The function with the greatest start is the only one that can cover the
address. -/
theorem eq_of_covers (he : Embedded raw strtab h) (hf : f ∈ funcs raw) (hg : g ∈ funcs raw)
    (hc : f.Covers a) (hga : g.start ≤ a.toNat) (hmax : f.start ≤ g.start) : f = g := by
  have hg' := he.size_pos g hg
  have hca := hc.2
  rcases he.eq_or_apart hf hg with heq | hfg | hgf
  · exact heq
  · omega
  · omega

/-- It is the only one that can end there too, unless it covers it. -/
theorem eq_of_stop (he : Embedded raw strtab h) (hf : f ∈ funcs raw) (hg : g ∈ funcs raw)
    (hstop : f.stop = a.toNat) (hga : g.start ≤ a.toNat) (hmax : f.start ≤ g.start)
    (hc : ¬ g.Covers a) : f = g := by
  have hg' := he.size_pos g hg
  rw [ElfSym.Covers] at hc
  rcases he.eq_or_apart hf hg with heq | hfg | hgf
  · exact heq
  · omega
  · omega

/-- A lookup is right unless the address is the end of a function and belongs
to none, or the function that covers it ends with the address space. -/
theorem answers_iff (he : Embedded raw strtab h) :
    (symtabInit raw strtab Symtab.initial h m).1.Answers raw strtab a ↔
      (∀ f ∈ funcs raw, f.stop = a.toNat → ∃ g ∈ funcs raw, g.Covers a) ∧
        ∀ f ∈ funcs raw, f.Covers a → f.stop < 4294967296 := by
  by_cases hnil : funcs raw = []
  · have hnone := answer_of_no_funcs (a := a) (symtabInit_of_no_funcs (m := m) he hnil)
    simp [Symtab.Answers, hnil, hnone]
  have hl := symtabInit_loaded (m := m) he hnil
  rcases hl.answer_cases (a := a) with ⟨hnone, habove⟩ | ⟨g, hg, hga, hmax, hans⟩
  · have hno : ∀ f ∈ funcs raw, ¬ f.Covers a := fun f hf hc =>
      Nat.not_le_of_lt (habove f hf) hc.1
    constructor
    · intro _
      refine ⟨fun f hf hstop => ?_, fun f hf hc => absurd hc (hno f hf)⟩
      have hlt := habove f hf
      have hpos := he.size_pos f hf
      omega
    · intro _
      exact ⟨fun f hf hc => absurd hc (hno f hf), fun _ => hnone⟩
  have hlimit := he.limit_toNat hg
  have hwrap := he.no_wrap g hg
  have hlt : a.toNat < 4294967296 := a.toNat_lt
  have hgt : a > (g.entry strtab.length).limit ↔ g.stop % 4294967296 < a.toNat := by
    rw [gt_iff_lt, UInt32.lt_iff_toNat_lt, hlimit]
  have hpos := stValue_pos hg
  rw [Symtab.Answers, hans]
  by_cases hc : g.Covers a
  · have hca := hc.2
    have honly : ∀ f ∈ funcs raw, f.Covers a → f = g := fun f hf hfc =>
      he.eq_of_covers hf hg hfc hga (hmax f hf hfc.1)
    constructor
    · intro hright
      refine ⟨fun _ _ _ => ⟨g, hg, hc⟩, fun f hf hfc => ?_⟩
      obtain rfl := honly f hf hfc
      have hsome := hright.1 f hf hc
      split at hsome
      · simp at hsome
      · rename_i hle
        rw [hgt] at hle
        omega
    · intro hright
      have hend := hright.2 g hg hc
      refine ⟨fun f hf hfc => ?_, fun hnone => absurd hc (hnone g hg)⟩
      obtain rfl := honly f hf hfc
      rw [if_neg (by rw [hgt]; omega)]
  · have hga' : g.stop ≤ a.toNat := by
      rw [ElfSym.Covers] at hc
      omega
    have hno : ∀ f ∈ funcs raw, ¬ f.Covers a := by
      intro f hf hfc
      obtain rfl := he.eq_of_covers hf hg hfc hga (hmax f hf hfc.1)
      exact hc hfc
    constructor
    · intro hright
      refine ⟨fun f hf hstop => ?_, fun f hf hfc => absurd hfc (hno f hf)⟩
      have hpos' := he.size_pos f hf
      obtain rfl := he.eq_of_stop hf hg hstop hga (hmax f hf (by omega)) hc
      have hnone := hright.2 hno
      split at hnone
      · rename_i hlt'
        rw [hgt] at hlt'
        omega
      · simp at hnone
    · intro hright
      refine ⟨fun f hf hfc => absurd hfc (hno f hf), fun _ => ?_⟩
      have hne : g.stop ≠ a.toNat := by
        intro hstop
        obtain ⟨f, hf, hfc⟩ := hright.1 g hg hstop
        exact hno f hf hfc
      rw [if_pos (by rw [hgt]; omega)]

/-- Two functions with padding between them, the later one first. -/
def idleMain : List ElfSym :=
  [⟨6, 0x1020, 0x20, 0x12, 1⟩, ⟨0, 0x2000, 4, 0x11, 2⟩, ⟨1, 0x1000, 0x10, 0x12, 1⟩]

/-- The names `main` and `idle`. -/
def idleMainNames : List UInt8 := [0, 109, 97, 105, 110, 0, 105, 100, 108, 101, 0]

theorem idleMain_embedded : Embedded idleMain idleMainNames ⟨0x100000, 0⟩ where
  strtab_ne := by decide
  max := by decide
  size_pos := by decide
  no_wrap := by decide
  apart := by decide
  heap := by decide

theorem answers_idle : (symtabInit idleMain idleMainNames Symtab.initial ⟨0x100000, 0⟩
    (fun _ => 0)).1.Answers idleMain idleMainNames 0x1030 :=
  (answers_iff idleMain_embedded).mpr (by decide)

/-- The first byte of the padding after `main` is reported as part of it. -/
theorem not_answers_padding : ¬ ∀ (raw : List ElfSym) (strtab : List UInt8) (h : Heap) (m : Mem)
    (a : UInt32), Embedded raw strtab h →
      (symtabInit raw strtab Symtab.initial h m).1.Answers raw strtab a := by
  intro hall
  have hright := hall idleMain idleMainNames ⟨0x100000, 0⟩ (fun _ => 0) 0x1010 idleMain_embedded
  have hnone := hright.2 (by decide)
  have hmain : (symtabInit idleMain idleMainNames Symtab.initial ⟨0x100000, 0⟩
      (fun _ => 0)).1.answer 0x1010 = some ([109, 97, 105, 110], 16) := by decide
  rw [hmain] at hnone
  simp at hnone

end Embedded

end Chimaera.Panic
