/-
The symbol table of the panic handler: the functions of the ELF table in the
kernel image, copied to the heap and sorted by address.
-/
import Chimaera.Insertion
import Chimaera.Mm

namespace Chimaera.Panic

def panicMaxSyms : Nat := 512

/-- An entry of the embedded table, `st_other` left out. -/
structure ElfSym where
  stName : UInt32
  stValue : UInt32
  stSize : UInt32
  stInfo : UInt8
  stShndx : UInt16

def elf32StType (i : UInt8) : UInt8 := i &&& 0xf
def sttFunc : UInt8 := 2
def stnUndef : UInt16 := 0

/-- The test of both passes: a function, defined, at a non-zero address. -/
def ElfSym.IsFunc (s : ElfSym) : Prop :=
  elf32StType s.stInfo = sttFunc ∧ s.stShndx ≠ stnUndef ∧ s.stValue ≠ 0

instance (s : ElfSym) : Decidable s.IsFunc := inferInstanceAs (Decidable (_ ∧ _))

/-- What a name points to: the literal `"?"`, or a position in `g_strtab`. -/
inductive NamePtr where
  | unknown
  | strtab (pos : UInt32)

/-- `sym_entry_t`, the name nothing for NULL. -/
structure SymEntry where
  addr : UInt32
  size : UInt32
  name : Option NamePtr

def SymEntry.start (e : SymEntry) : Nat := e.addr.toNat

/-- `g_syms` and `g_strtab`, nothing for NULL, and their lengths. -/
structure Symtab where
  syms : Option (Nat → SymEntry)
  symCount : Nat
  strtab : Option (List UInt8)
  strtabSz : Nat

/-- Before `symtab_init`. -/
def Symtab.initial : Symtab := ⟨none, 0, none, 0⟩

/-- `sort_syms`, with `j + 1` for the signed index of the inner loop. -/
def sortSyms (arr : Nat → SymEntry) (n : Nat) : Nat → SymEntry :=
  insertionSort SymEntry.start arr n

def countFuncs : List ElfSym → Nat → Nat
  | [], funcCount => funcCount
  | s :: raw, funcCount =>
    if funcCount < panicMaxSyms then
      countFuncs raw (if s.IsFunc then funcCount + 1 else funcCount)
    else funcCount

/-- The entry that the copying pass makes of a symbol. -/
def ElfSym.entry (strtabSz : Nat) (s : ElfSym) : SymEntry where
  addr := s.stValue
  size := s.stSize
  name := some (if s.stName.toNat < strtabSz then .strtab s.stName else .unknown)

def copyFuncs (strtabSz funcCount : Nat) :
    List ElfSym → Nat → (Nat → SymEntry) → Nat × (Nat → SymEntry)
  | [], idx, syms => (idx, syms)
  | s :: raw, idx, syms =>
    if idx < funcCount then
      if s.IsFunc then
        copyFuncs strtabSz funcCount raw (idx + 1) (Function.update syms idx (s.entry strtabSz))
      else copyFuncs strtabSz funcCount raw idx syms
    else (idx, syms)

def zeroSyms : Nat → SymEntry := fun _ => ⟨0, 0, none⟩

/-- `symtab_init` on the tables between the linker's bounds. -/
def symtabInit (raw : List ElfSym) (strtab : List UInt8) (t : Symtab) (h : Heap) (m : Mem) :
    Symtab × Heap × Mem :=
  if raw.length = 0 ∨ strtab.length = 0 then (t, h, m)
  else
    match kmalloc h m ((strtab.length + 1) % 4294967296) with
    | (none, h, m) => ({ t with strtab := none }, h, m)
    | (some _, h, m) =>
      let t := { t with strtab := some (strtab ++ [0]), strtabSz := strtab.length }
      let funcCount := countFuncs raw 0
      if funcCount = 0 then (t, h, m)
      else
        match kmalloc h m (funcCount * 12) with
        | (none, h, m) => ({ t with syms := none }, h, m)
        | (some _, h, m) =>
          let filled := copyFuncs t.strtabSz funcCount raw 0 zeroSyms
          ({ t with syms := some (sortSyms filled.2 filled.1), symCount := filled.1 }, h, m)

/-- The scan of `lookup_symbol` from entry `i`, the table sorted. -/
def lastBelow (syms : Nat → SymEntry) (addr : UInt32) : Nat → Nat → Option Nat → Option Nat
  | 0, _, best => best
  | n + 1, i, best =>
    if (syms i).addr ≤ addr then lastBelow syms addr n (i + 1) (some i) else best

/-- The bound that `lookup_symbol` computes for its best entry. -/
def SymEntry.limit (e : SymEntry) : UInt32 :=
  if e.size ≠ 0 then e.addr + e.size else e.addr + 0x10000

/-- `lookup_symbol`: the name and the offset, or nothing for NULL. -/
def lookupSymbol (t : Symtab) (addr : UInt32) : Option (NamePtr × UInt32) :=
  match t.syms with
  | none => none
  | some syms =>
    match lastBelow syms addr t.symCount 0 none with
    | none => none
    | some best =>
      if addr > (syms best).limit then none
      else (syms best).name.map fun name => (name, addr - (syms best).addr)

def Symtab.text (t : Symtab) : NamePtr → List UInt8
  | .unknown => [63]
  | .strtab pos => ((t.strtab.getD []).drop pos.toNat).takeWhile (· ≠ 0)

def funcs (raw : List ElfSym) : List ElfSym := raw.filter fun s => s.IsFunc

variable {raw : List ElfSym} {strtab : List UInt8} {h : Heap} {m : Mem} {f g s : ElfSym}
  {a addr : UInt32} {i idx n c k strtabSz : Nat} {syms : Nat → SymEntry} {best : Option Nat}

theorem funcs_cons_of_isFunc (hs : s.IsFunc) : funcs (s :: raw) = s :: funcs raw :=
  List.filter_cons_of_pos (by simpa using hs)

theorem funcs_cons_of_not_isFunc (hs : ¬ s.IsFunc) : funcs (s :: raw) = funcs raw :=
  List.filter_cons_of_neg (by simpa using hs)

theorem countFuncs_eq (h : c + (funcs raw).length ≤ panicMaxSyms) :
    countFuncs raw c = c + (funcs raw).length := by
  induction raw generalizing c with
  | nil => rfl
  | cons s raw ih =>
      rw [countFuncs]
      by_cases hs : s.IsFunc
      · rw [funcs_cons_of_isFunc hs, List.length_cons] at h ⊢
        rw [if_pos (by omega), if_pos hs, ih (by omega)]
        omega
      · rw [funcs_cons_of_not_isFunc hs] at h ⊢
        rw [if_neg hs]
        split
        · exact ih h
        · omega

/-- With room for every function the copying pass appends their entries in the
order of the table. -/
theorem copyFuncs_spec (h : idx + (funcs raw).length ≤ n) :
    (copyFuncs strtabSz n raw idx syms).1 = idx + (funcs raw).length ∧
    firsts (copyFuncs strtabSz n raw idx syms).2 (idx + (funcs raw).length) =
      firsts syms idx ++ (funcs raw).map (ElfSym.entry strtabSz) := by
  induction raw generalizing idx syms with
  | nil => simp [copyFuncs, funcs]
  | cons s raw ih =>
      rw [copyFuncs]
      by_cases hs : s.IsFunc
      · rw [funcs_cons_of_isFunc hs, List.length_cons] at h ⊢
        obtain ⟨hidx, hfirsts⟩ :=
          @ih (idx + 1) (Function.update syms idx (s.entry strtabSz)) (by omega)
        rw [if_pos (by omega), if_pos hs]
        rw [firsts_succ, firsts_update_of_le (Nat.le_refl idx), Function.update_self] at hfirsts
        rw [Nat.add_assoc, Nat.add_comm 1] at hidx hfirsts
        refine ⟨hidx, ?_⟩
        rw [hfirsts, List.map_cons, List.append_assoc]
        rfl
      · rw [funcs_cons_of_not_isFunc hs] at h ⊢
        rw [if_neg hs]
        split
        · exact ih h
        · have hnil : funcs raw = [] := List.length_eq_zero_iff.mp (by omega)
          simp [hnil]

/-- The scan stops at once, or at the last entry before the end or before the
first one that starts above the address. -/
theorem lastBelow_cases :
    (lastBelow syms addr n i best = best ∧ (n = 0 ∨ addr < (syms i).addr)) ∨
    ∃ k, lastBelow syms addr n i best = some k ∧ i ≤ k ∧ k < i + n ∧ (syms k).addr ≤ addr ∧
      (k + 1 = i + n ∨ addr < (syms (k + 1)).addr) := by
  induction n generalizing i best with
  | zero => exact Or.inl ⟨rfl, Or.inl rfl⟩
  | succ n ih =>
      rw [lastBelow]
      by_cases hle : (syms i).addr ≤ addr
      · rw [if_pos hle]
        right
        rcases @ih (i + 1) (some i) with ⟨heq, hend⟩ | ⟨k, heq, hik, hk, hbelow, hend⟩
        · refine ⟨i, heq, Nat.le_refl i, by omega, hle, ?_⟩
          rcases hend with rfl | hlt
          · exact Or.inl rfl
          · exact Or.inr hlt
        · exact ⟨k, heq, by omega, by omega, hbelow, hend.imp (fun h => by omega) id⟩
      · rw [if_neg hle]
        exact Or.inl ⟨rfl, Or.inr (UInt32.not_le.mp hle)⟩

/-- Over a sorted table the scan finds the greatest start that is not above
the address. -/
theorem lastBelow_sorted (hs : SortedTo SymEntry.start n syms) :
    (lastBelow syms addr n 0 none = none ∧ ∀ e ∈ firsts syms n, addr.toNat < e.start) ∨
    ∃ k, lastBelow syms addr n 0 none = some k ∧ syms k ∈ firsts syms n ∧
      (syms k).start ≤ addr.toNat ∧
      ∀ e ∈ firsts syms n, e.start ≤ addr.toNat → e.start ≤ (syms k).start := by
  rcases @lastBelow_cases addr 0 n syms none with
    ⟨heq, hend⟩ | ⟨k, heq, -, hk, hbelow, hend⟩
  · refine Or.inl ⟨heq, fun e he => ?_⟩
    obtain ⟨j, hj, rfl⟩ := mem_firsts.mp he
    have hlt : addr.toNat < (syms 0).start :=
      UInt32.lt_iff_toNat_lt.mp (hend.resolve_left (by omega))
    exact Nat.lt_of_lt_of_le hlt (hs 0 j (Nat.zero_le j) hj)
  · rw [Nat.zero_add] at hk hend
    refine Or.inr ⟨k, heq, mem_firsts.mpr ⟨k, hk, rfl⟩, UInt32.le_iff_toNat_le.mp hbelow, ?_⟩
    intro e he hle
    obtain ⟨j, hj, rfl⟩ := mem_firsts.mp he
    by_cases hjk : j ≤ k
    · exact hs j k hjk hk
    · have hlt : addr.toNat < (syms (k + 1)).start :=
        UInt32.lt_iff_toNat_lt.mp (hend.resolve_left (by omega))
      have hup := hs (k + 1) j (by omega) hj
      omega

end Chimaera.Panic
