/-
From the ELF file of the kernel to the names in a panic: the build extracts the symbol
table from the file, the linker embeds it, and the panic handler loads it.
-/
import Chimaera.Panic.Lookup
import Chimaera.Unpack

namespace Chimaera.Panic

/-- `.symtab` -/
def symtabName : List UInt8 := [0x2E, 0x73, 0x79, 0x6D, 0x74, 0x61, 0x62]

/-- `.strtab` -/
def strtabName : List UInt8 := [0x2E, 0x73, 0x74, 0x72, 0x74, 0x61, 0x62]

def shtSymtab : Nat := 2
def shtStrtab : Nat := 3
def shtNobits : Nat := 8

/-- `get_name`: nothing for the exception, where no zero byte follows.  The decoded name is
one of the two below just where its bytes are. -/
def getName (shstrtab : List UInt8) (nameIdx : Nat) : Option (List UInt8) :=
  if 0 ∈ shstrtab.drop nameIdx then some ((shstrtab.drop nameIdx).takeWhile (· ≠ 0)) else none

/-- Offset and size of the two sections, as far as they are found. -/
structure Found where
  symtab : Nat × Nat
  strtab : Nat × Nat

def Found.add (r : Found) (name : List UInt8) (shType shOff shSize : Nat) : Found :=
  if name = symtabName ∧ shType = shtSymtab then { r with symtab := (shOff, shSize) }
  else if name = strtabName ∧ shType = shtStrtab then { r with strtab := (shOff, shSize) }
  else r

/-- The loop over `n` section headers, from `hdr` on. -/
def scanSections (data shstrtab : List UInt8) (shentsize : Nat) :
    Nat → Nat → Found → Option Found
  | 0, _, r => some r
  | n + 1, hdr, r => do
      let nameIdx ← unpackFrom 4 data hdr
      let shType ← unpackFrom 4 data (hdr + 4)
      let shOff ← unpackFrom 4 data (hdr + 16)
      let shSize ← unpackFrom 4 data (hdr + 20)
      let name ← getName shstrtab nameIdx
      scanSections data shstrtab shentsize n (hdr + shentsize) (r.add name shType shOff shSize)

/-- `extract_sections` on the contents of the file: the two blobs that it writes, or
nothing where it ends with an error. -/
def extractSections (data : List UInt8) : Option (List UInt8 × List UInt8) := do
  if data.take 4 ≠ [0x7F, 0x45, 0x4C, 0x46] then none
  else
    let eiClass ← data[4]?
    if eiClass ≠ 1 then none
    else
      let eShoff ← unpackFrom 4 data 32
      let eShentsize ← unpackFrom 2 data 46
      let eShnum ← unpackFrom 2 data 48
      let eShstrndx ← unpackFrom 2 data 50
      if eShoff = 0 ∨ eShnum = 0 then none
      else
        let shstrtabHdr := eShoff + eShstrndx * eShentsize
        let shstrOff ← unpackFrom 4 data (shstrtabHdr + 16)
        let shstrSize ← unpackFrom 4 data (shstrtabHdr + 20)
        let shstrtab := bytesAt data shstrOff shstrSize
        let r ← scanSections data shstrtab eShentsize eShnum eShoff ⟨(0, 0), (0, 0)⟩
        if r.symtab.2 = 0 then some ([], [])
        else some (bytesAt data r.symtab.1 r.symtab.2, bytesAt data r.strtab.1 r.strtab.2)

def elfSymOf (bs : List UInt8) : ElfSym where
  stName := UInt32.ofNat (leVal (bytesAt bs 0 4))
  stValue := UInt32.ofNat (leVal (bytesAt bs 4 4))
  stSize := UInt32.ofNat (leVal (bytesAt bs 8 4))
  stInfo := (bs.drop 12).headD 0
  stShndx := UInt16.ofNat (leVal (bytesAt bs 14 2))

/-- `raw_syms`, the bytes from `__symtab_start` on as entries of 16 bytes. -/
def rawSyms (blob : List UInt8) : List ElfSym :=
  (List.range (blob.length / 16)).map fun i => elfSymOf (blob.drop (16 * i))

structure Section where
  name : List UInt8
  type : Nat
  contents : List UInt8

/-- The section header at `hdr` is that of `s`. -/
def DescribedAt (data shstrtab : List UInt8) (hdr : Nat) (s : Section) : Prop :=
  ∃ nameIdx off, nameIdx < 4294967296 ∧ s.type < 4294967296 ∧ off < 4294967296 ∧
    s.contents.length < 4294967296 ∧
    At data hdr (leBytes 4 nameIdx) ∧ At data (hdr + 4) (leBytes 4 s.type) ∧
    At data (hdr + 16) (leBytes 4 off) ∧ At data (hdr + 20) (leBytes 4 s.contents.length) ∧
    (s.type ≠ shtNobits → At data off s.contents) ∧
    At shstrtab nameIdx (s.name ++ [0]) ∧ 0 ∉ s.name

/-- A 32-bit ELF file with the given sections. -/
structure Elf32 (data : List UInt8) (sections : List Section) : Prop where
  magic : At data 0 [0x7F, 0x45, 0x4C, 0x46, 1]
  table : ∃ eShoff eShentsize eShstrndx, 0 < eShoff ∧ eShoff < 4294967296 ∧
    eShentsize < 65536 ∧ eShstrndx < 65536 ∧
    At data 32 (leBytes 4 eShoff) ∧ At data 46 (leBytes 2 eShentsize) ∧
    At data 48 (leBytes 2 sections.length) ∧ At data 50 (leBytes 2 eShstrndx) ∧
    ∃ names, sections[eShstrndx]? = some names ∧ names.type ≠ shtNobits ∧
      ∀ i s, sections[i]? = some s →
        DescribedAt data names.contents (eShoff + i * eShentsize) s
  count : sections.length < 65536

variable {data shstrtab names bs c c₁ c₂ : List UInt8} {ss : List Section} {s : Section}
  {name : List UInt8} {hdr size type nameIdx : Nat} {pos : Nat × Nat} {r : Found}

theorem getName_of_at (h : At shstrtab nameIdx (name ++ [0])) (hname : 0 ∉ name) :
    getName shstrtab nameIdx = some name := by
  obtain ⟨rest, hrest⟩ := h
  have hne : ∀ b ∈ name, (decide (b ≠ 0)) = true := fun b hb => by
    refine decide_eq_true fun hzero => hname ?_
    rwa [← hzero]
  rw [getName, ← hrest, if_pos (by simp), List.append_assoc, List.takeWhile_append_of_pos hne]
  simp

def Section.Is (s : Section) (name : List UInt8) (type : Nat) : Prop :=
  s.name = name ∧ s.type = type

instance : Decidable (s.Is name type) := inferInstanceAs (Decidable (_ ∧ _))

/-- The contents of the last such section, `c` if there is none. -/
def lastOf (name : List UInt8) (type : Nat) : List UInt8 → List Section → List UInt8
  | c, [] => c
  | c, s :: ss => lastOf name type (if s.Is name type then s.contents else c) ss

/-- Offset and size are those of the bytes `c`. -/
def Tracks (data : List UInt8) (pos : Nat × Nat) (c : List UInt8) : Prop :=
  bytesAt data pos.1 pos.2 = c ∧ pos.2 = c.length

/-- The two tests exclude each other. -/
theorem Found.add_eq (r : Found) (s : Section) (shOff shSize : Nat) :
    (r.add s.name s.type shOff shSize).symtab =
        (if s.Is symtabName shtSymtab then (shOff, shSize) else r.symtab) ∧
      (r.add s.name s.type shOff shSize).strtab =
        if s.Is strtabName shtStrtab then (shOff, shSize) else r.strtab := by
  by_cases hsym : s.Is symtabName shtSymtab
  · have hstr : ¬ s.Is strtabName shtStrtab := fun h => absurd (hsym.2.symm.trans h.2) (by decide)
    have hadd : r.add s.name s.type shOff shSize = { r with symtab := (shOff, shSize) } :=
      if_pos hsym
    rw [hadd, if_pos hsym, if_neg hstr]
    exact ⟨rfl, rfl⟩
  · by_cases hstr : s.Is strtabName shtStrtab
    · have hadd : r.add s.name s.type shOff shSize = { r with strtab := (shOff, shSize) } :=
        (if_neg hsym).trans (if_pos hstr)
      rw [hadd, if_neg hsym, if_pos hstr]
      exact ⟨rfl, rfl⟩
    · have hadd : r.add s.name s.type shOff shSize = r := (if_neg hsym).trans (if_neg hstr)
      rw [hadd, if_neg hsym, if_neg hstr]
      exact ⟨rfl, rfl⟩

theorem DescribedAt.tracks {off : Nat} (hat : s.type ≠ shtNobits → At data off s.contents)
    (htype : type ≠ shtNobits) (hpos : Tracks data pos c) :
    Tracks data (if s.Is name type then (off, s.contents.length) else pos)
      (if s.Is name type then s.contents else c) := by
  by_cases his : s.Is name type
  · rw [if_pos his, if_pos his]
    exact ⟨(hat (his.2 ▸ htype)).bytesAt, rfl⟩
  · rw [if_neg his, if_neg his]
    exact hpos

/-- The loop ends with the last of each of the two sections. -/
theorem scanSections_tracks
    (h : ∀ i s, ss[i]? = some s → DescribedAt data shstrtab (hdr + i * size) s)
    (h₁ : Tracks data r.symtab c₁) (h₂ : Tracks data r.strtab c₂) :
    ∃ r', scanSections data shstrtab size ss.length hdr r = some r' ∧
      Tracks data r'.symtab (lastOf symtabName shtSymtab c₁ ss) ∧
      Tracks data r'.strtab (lastOf strtabName shtStrtab c₂ ss) := by
  induction ss generalizing hdr r c₁ c₂ with
  | nil => exact ⟨r, rfl, h₁, h₂⟩
  | cons s ss ih =>
      have hhead := h 0 s rfl
      rw [Nat.zero_mul, Nat.add_zero] at hhead
      obtain ⟨nameIdx, off, hidx, htype, hoff, hlen, hat₀, hat₄, hat₁₆, hat₂₀, hbytes, hname,
        hzero⟩ := hhead
      obtain ⟨hsym, hstr⟩ := r.add_eq s off s.contents.length
      have hrest : ∀ i t, ss[i]? = some t →
          DescribedAt data shstrtab (hdr + size + i * size) t := by
        intro i t ht
        have := h (i + 1) t ht
        rwa [Nat.succ_mul, Nat.add_comm (i * size), ← Nat.add_assoc] at this
      obtain ⟨r', hscan, htracks⟩ := ih (r := r.add s.name s.type off s.contents.length) hrest
        (hsym ▸ DescribedAt.tracks hbytes (by decide) h₁)
        (hstr ▸ DescribedAt.tracks hbytes (by decide) h₂)
      refine ⟨r', ?_, htracks⟩
      rw [List.length_cons, scanSections, hat₀.unpackFrom (by decide) hidx,
        hat₄.unpackFrom (by decide) htype, hat₁₆.unpackFrom (by decide) hoff,
        hat₂₀.unpackFrom (by decide) hlen]
      simp only [Option.bind_eq_bind, Option.bind_some, getName_of_at hname hzero]
      exact hscan

/-- There is such a section, and `bs` are its contents. -/
def HasSection (ss : List Section) (name : List UInt8) (type : Nat) (bs : List UInt8) : Prop :=
  (∃ s ∈ ss, s.Is name type) ∧ ∀ s ∈ ss, s.Is name type → s.contents = bs

theorem lastOf_of_forall (h : ∀ s ∈ ss, s.Is name type → s.contents = bs)
    (hfirst : c = bs ∨ ∃ s ∈ ss, s.Is name type) : lastOf name type c ss = bs := by
  induction ss generalizing c with
  | nil => exact hfirst.resolve_right (by simp)
  | cons s ss ih =>
      refine ih (fun t ht => h t (List.mem_cons_of_mem s ht)) ?_
      by_cases his : s.Is name type
      · rw [if_pos his]
        exact Or.inl (h s List.mem_cons_self his)
      · rw [if_neg his]
        refine hfirst.imp_right ?_
        rintro ⟨t, ht, htis⟩
        rcases List.mem_cons.mp ht with rfl | ht
        · exact absurd htis his
        · exact ⟨t, ht, htis⟩

/-- From an ELF file the tool takes the contents of the two sections. -/
theorem Elf32.extractSections (h : Elf32 data ss) {symtab strtab : List UInt8}
    (hsym : HasSection ss symtabName shtSymtab symtab)
    (hstr : HasSection ss strtabName shtStrtab strtab) (hne : symtab ≠ []) :
    Panic.extractSections data = some (symtab, strtab) := by
  obtain ⟨rest, hrest⟩ := h.magic
  obtain ⟨eShoff, eShentsize, eShstrndx, hpos, hshoff, hsize, hndx, hat₃₂, hat₄₆, hat₄₈, hat₅₀,
    names, hnames, htype, hdesc⟩ := h.table
  obtain ⟨-, nameOff, -, -, hoff, hlen, -, -, hat₁₆, hat₂₀, hbytes, -⟩ := hdesc _ _ hnames
  have hmagic : data.take 4 = [0x7F, 0x45, 0x4C, 0x46] := by
    rw [List.drop_zero] at hrest
    rw [← hrest]
    rfl
  have hclass : data[4]? = some 1 := by
    rw [List.drop_zero] at hrest
    rw [← hrest]
    rfl
  have hcount : ss.length ≠ 0 := by
    obtain ⟨s, hs, -⟩ := hsym.1
    exact Nat.ne_of_gt (List.length_pos_of_mem hs)
  have hstart : Tracks data (0, 0) [] := ⟨rfl, rfl⟩
  obtain ⟨r, hscan, ⟨hdata₁, hlen₁⟩, hdata₂, -⟩ :=
    scanSections_tracks (r := ⟨(0, 0), (0, 0)⟩) hdesc hstart hstart
  rw [lastOf_of_forall hsym.2 (Or.inr hsym.1)] at hdata₁ hlen₁
  rw [lastOf_of_forall hstr.2 (Or.inr hstr.1)] at hdata₂
  have hfound : r.symtab.2 ≠ 0 := fun hz => hne (List.length_eq_zero_iff.mp (hlen₁ ▸ hz))
  unfold Panic.extractSections
  rw [if_neg (not_not.mpr hmagic), hclass, hat₃₂.unpackFrom (by decide) hshoff,
    hat₄₆.unpackFrom (by decide) hsize, hat₄₈.unpackFrom (by decide) h.count,
    hat₅₀.unpackFrom (by decide) hndx]
  simp only [Option.bind_eq_bind, Option.bind_some]
  rw [if_neg (by decide), if_neg (by omega), hat₁₆.unpackFrom (by decide) hoff,
    hat₂₀.unpackFrom (by decide) hlen]
  simp only [Option.bind_some, (hbytes htype).bytesAt, hscan, if_neg hfound, hdata₁, hdata₂]

/-- A symbol in the file, with its `st_other`. -/
def symBytes (p : ElfSym × UInt8) : List UInt8 :=
  leBytes 4 p.1.stName.toNat ++ (leBytes 4 p.1.stValue.toNat ++ (leBytes 4 p.1.stSize.toNat ++
    ([p.1.stInfo, p.2] ++ leBytes 2 p.1.stShndx.toNat)))

theorem length_symBytes (p : ElfSym × UInt8) : (symBytes p).length = 16 := by
  simp [symBytes]

theorem word_leBytes (v : UInt32) : UInt32.ofNat (leVal (leBytes 4 v.toNat)) = v := by
  have hlt : v.toNat < 256 ^ 4 := v.toNat_lt
  rw [leVal_leBytes, Nat.mod_eq_of_lt hlt, UInt32.ofNat_toNat]

theorem half_leBytes (v : UInt16) : UInt16.ofNat (leVal (leBytes 2 v.toNat)) = v := by
  have hlt : v.toNat < 256 ^ 2 := v.toNat_lt
  rw [leVal_leBytes, Nat.mod_eq_of_lt hlt, UInt16.ofNat_toNat]

/-- The fields of an entry, each behind the bytes of those before it. -/
theorem elfSymOf_symBytes (p : ElfSym × UInt8) (rest : List UInt8) :
    elfSymOf (symBytes p ++ rest) = p.1 := by
  obtain ⟨⟨stName, stValue, stSize, stInfo, stShndx⟩, other⟩ := p
  have hname := bytesAt_append [] (leBytes 4 stName.toNat) (leBytes 4 stValue.toNat ++
    (leBytes 4 stSize.toNat ++ ([stInfo, other] ++ (leBytes 2 stShndx.toNat ++ rest))))
  have hvalue := bytesAt_append (leBytes 4 stName.toNat) (leBytes 4 stValue.toNat)
    (leBytes 4 stSize.toNat ++ ([stInfo, other] ++ (leBytes 2 stShndx.toNat ++ rest)))
  have hsize := bytesAt_append (leBytes 4 stName.toNat ++ leBytes 4 stValue.toNat)
    (leBytes 4 stSize.toNat) ([stInfo, other] ++ (leBytes 2 stShndx.toNat ++ rest))
  have hshndx := bytesAt_append (leBytes 4 stName.toNat ++ leBytes 4 stValue.toNat ++
    leBytes 4 stSize.toNat ++ [stInfo, other]) (leBytes 2 stShndx.toNat) rest
  have hinfo : ((leBytes 4 stName.toNat ++ leBytes 4 stValue.toNat ++
      leBytes 4 stSize.toNat) ++ ([stInfo, other] ++ (leBytes 2 stShndx.toNat ++ rest))).drop 12 =
      [stInfo, other] ++ (leBytes 2 stShndx.toNat ++ rest) := List.drop_left' (by simp)
  simp only [List.append_assoc, List.nil_append, List.length_append, length_leBytes,
    List.length_cons, List.length_nil] at hname hvalue hsize hshndx hinfo
  simp only [elfSymOf, symBytes, List.append_assoc, hname, hvalue, hsize, hshndx, hinfo,
    word_leBytes, half_leBytes]
  rfl

/-- The kernel reads back the symbols of the file. -/
theorem rawSyms_flatMap (syms : List (ElfSym × UInt8)) :
    rawSyms (syms.flatMap symBytes) = syms.map Prod.fst := by
  induction syms with
  | nil => rfl
  | cons p syms ih =>
      have hlen : (symBytes p ++ syms.flatMap symBytes).length / 16 =
          (syms.flatMap symBytes).length / 16 + 1 := by
        rw [List.length_append, length_symBytes]
        omega
      have hdrop : ∀ i, (symBytes p ++ syms.flatMap symBytes).drop (16 * (i + 1)) =
          (syms.flatMap symBytes).drop (16 * i) := fun i => by
        rw [Nat.mul_succ, Nat.add_comm, ← List.drop_drop, List.drop_left' (length_symBytes p)]
      rw [List.flatMap_cons, rawSyms, hlen, List.range_succ_eq_map, List.map_cons, List.map_cons,
        List.map_map, Nat.mul_zero, List.drop_zero, elfSymOf_symBytes, ← ih, rawSyms]
      refine congrArg _ (List.map_congr_left fun i _ => ?_)
      rw [Function.comp_apply, Nat.succ_eq_add_one, hdrop]

/-- An address in a function is answered with the function. -/
theorem Embedded.answer_of_covers {raw : List ElfSym} {strtab : List UInt8} {h : Heap} {m : Mem}
    {f : ElfSym} {a : UInt32} (he : Embedded raw strtab h) (hf : f ∈ funcs raw)
    (hc : f.Covers a) (hend : f.stop < 4294967296) :
    (symtabInit raw strtab Symtab.initial h m).1.answer a =
      some (f.nameIn strtab, a - f.stValue) := by
  have hl := symtabInit_loaded (m := m) he (List.ne_nil_of_mem hf)
  rcases hl.answer_cases (a := a) with ⟨-, habove⟩ | ⟨g, hg, hga, hmax, hans⟩
  · exact absurd (habove f hf) (Nat.not_lt.mpr hc.1)
  · obtain rfl := he.eq_of_covers hf hg hc hga (hmax f hf hc.1)
    have hlimit := he.limit_toNat hf
    rw [Nat.mod_eq_of_lt hend] at hlimit
    rw [hans, if_neg]
    rw [gt_iff_lt, UInt32.lt_iff_toNat_lt, hlimit]
    exact Nat.not_lt.mpr (Nat.le_of_lt hc.2)

def shdr (nameIdx shType shOff shSize : Nat) : List UInt8 :=
  leBytes 4 nameIdx ++ leBytes 4 shType ++ List.replicate 8 0 ++ leBytes 4 shOff ++
    leBytes 4 shSize ++ List.replicate 16 0

def idleMainSyms : List (ElfSym × UInt8) := Embedded.idleMain.map fun s => (s, 0)

/-- The symbols of two functions, their names, and the names of the sections. -/
def idleMainSections : List Section :=
  [⟨symtabName, shtSymtab, idleMainSyms.flatMap symBytes⟩,
    ⟨strtabName, shtStrtab, Embedded.idleMainNames⟩,
    ⟨[0x2E, 0x6E], shtStrtab, symtabName ++ [0] ++ strtabName ++ [0, 0x2E, 0x6E, 0]⟩]

def idleMainElf : List UInt8 :=
  [0x7F, 0x45, 0x4C, 0x46, 1] ++ List.replicate 27 0 ++ leBytes 4 52 ++ List.replicate 10 0 ++
    leBytes 2 40 ++ leBytes 2 3 ++ leBytes 2 2 ++ shdr 0 2 172 48 ++ shdr 8 3 220 11 ++
    shdr 16 3 231 19 ++ idleMainSections.flatMap Section.contents

theorem idleMainElf_elf32 : Elf32 idleMainElf idleMainSections where
  magic := by decide
  table := by
    refine ⟨52, 40, 2, by decide, by decide, by decide, by decide, by decide, by decide,
      by decide, by decide, _, rfl, by decide, fun i s hs => ?_⟩
    have hi : i < 3 := (List.getElem?_eq_some_iff.mp hs).1
    obtain rfl | rfl | rfl : i = 0 ∨ i = 1 ∨ i = 2 := by omega
    · obtain rfl := Option.some.inj hs
      exact ⟨0, 172, by decide⟩
    · obtain rfl := Option.some.inj hs
      exact ⟨8, 220, by decide⟩
    · obtain rfl := Option.some.inj hs
      exact ⟨16, 231, by decide⟩
  count := by decide

end Chimaera.Panic
