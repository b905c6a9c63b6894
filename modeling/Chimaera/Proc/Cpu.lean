/-
The part of an x86 processor that an interrupt saves and restores: registers,
and the stack instructions on a byte memory.
-/
import Chimaera.Words

namespace Chimaera.Proc

/-- The registers of a context; selectors are held in full words. -/
structure Regs where
  es : UInt32
  ds : UInt32
  edi : UInt32
  esi : UInt32
  ebp : UInt32
  ebx : UInt32
  edx : UInt32
  ecx : UInt32
  eax : UInt32
  eip : UInt32
  cs : UInt32
  eflags : UInt32
  esp : UInt32
  deriving DecidableEq

structure Cpu where
  regs : Regs
  mem : Mem

def pushWord (sp : UInt32 × Mem) (v : UInt32) : UInt32 × Mem :=
  (sp.1 - 4, sp.2.storeWord (sp.1 - 4).toNat v)

def pushWords (sp : UInt32 × Mem) (vs : List UInt32) : UInt32 × Mem := vs.foldl pushWord sp

namespace Cpu

variable (c : Cpu)

def stack : UInt32 × Mem := (c.regs.esp, c.mem)

def push (v : UInt32) : Cpu :=
  let sp := pushWord c.stack v
  ⟨{ c.regs with esp := sp.1 }, sp.2⟩

@[simp] theorem stack_push {v : UInt32} : (c.push v).stack = pushWord c.stack v := rfl
@[simp] theorem es_push {v : UInt32} : (c.push v).regs.es = c.regs.es := rfl
@[simp] theorem ds_push {v : UInt32} : (c.push v).regs.ds = c.regs.ds := rfl
@[simp] theorem edi_push {v : UInt32} : (c.push v).regs.edi = c.regs.edi := rfl
@[simp] theorem esi_push {v : UInt32} : (c.push v).regs.esi = c.regs.esi := rfl
@[simp] theorem ebp_push {v : UInt32} : (c.push v).regs.ebp = c.regs.ebp := rfl
@[simp] theorem ebx_push {v : UInt32} : (c.push v).regs.ebx = c.regs.ebx := rfl
@[simp] theorem edx_push {v : UInt32} : (c.push v).regs.edx = c.regs.edx := rfl
@[simp] theorem ecx_push {v : UInt32} : (c.push v).regs.ecx = c.regs.ecx := rfl
@[simp] theorem eax_push {v : UInt32} : (c.push v).regs.eax = c.regs.eax := rfl
@[simp] theorem eip_push {v : UInt32} : (c.push v).regs.eip = c.regs.eip := rfl
@[simp] theorem cs_push {v : UInt32} : (c.push v).regs.cs = c.regs.cs := rfl

/-- Take the word on top of the stack into a register. -/
def popTo (f : UInt32 → Regs → Regs) : Cpu :=
  ⟨f (c.mem.loadWord c.regs.esp.toNat) { c.regs with esp := c.regs.esp + 4 }, c.mem⟩

/-- `pusha`; the word for ESP is its value before the instruction. -/
def pusha : Cpu :=
  let esp := c.regs.esp
  (((((((c.push c.regs.eax).push c.regs.ecx).push c.regs.edx).push c.regs.ebx).push esp).push
    c.regs.ebp).push c.regs.esi).push c.regs.edi

/-- `popa`; the word for ESP is skipped. -/
def popa : Cpu :=
  (((((((c.popTo fun v r => { r with edi := v }).popTo fun v r => { r with esi := v }).popTo
    fun v r => { r with ebp := v }).popTo fun _ r => r).popTo
    fun v r => { r with ebx := v }).popTo fun v r => { r with edx := v }).popTo
    fun v r => { r with ecx := v }).popTo fun v r => { r with eax := v }

/-- What the processor pushes when it enters a handler. -/
def interrupt : Cpu := ((c.push c.regs.eflags).push c.regs.cs).push c.regs.eip

def iret : Cpu :=
  ((c.popTo fun v r => { r with eip := v }).popTo fun v r => { r with cs := v }).popTo
    fun v r => { r with eflags := v }

end Cpu

/-- The 13 words of a saved context, from the lowest address up. -/
def Regs.frame (r : Regs) (snap : UInt32) : List UInt32 :=
  [r.es, r.ds, r.edi, r.esi, r.ebp, snap, r.ebx, r.edx, r.ecx, r.eax, r.eip, r.cs, r.eflags]

variable {sp : UInt32 × Mem} {vs ws : List UInt32} {c : Cpu} {r : Regs} {snap : UInt32} {i : Nat}

theorem toNat_sub_four {a : UInt32} (h : 4 ≤ a.toNat) : (a - 4).toNat = a.toNat - 4 :=
  UInt32.toNat_sub_of_le _ _ (by simpa [UInt32.le_iff_toNat_le] using h)

theorem toNat_add_four {a : UInt32} (h : a.toNat + 4 < 4294967296) :
    (a + 4).toNat = a.toNat + 4 := by
  rw [UInt32.toNat_add]
  exact Nat.mod_eq_of_lt h

/-- The pushed words stand below the old stack pointer, the last one lowest,
and nothing else changes. -/
theorem pushWords_spec (hroom : 4 * vs.length ≤ sp.1.toNat) (hw : sp.2.Words sp.1.toNat ws) :
    (pushWords sp vs).1.toNat = sp.1.toNat - 4 * vs.length ∧
      (pushWords sp vs).2.Words (sp.1.toNat - 4 * vs.length) (vs.reverse ++ ws) ∧
      ∀ i, i < sp.1.toNat - 4 * vs.length ∨ sp.1.toNat ≤ i → (pushWords sp vs).2 i = sp.2 i := by
  induction vs generalizing sp ws with
  | nil => exact ⟨rfl, hw, fun _ _ => rfl⟩
  | cons v vs ih =>
      rw [List.length_cons] at hroom
      have hsub : (pushWord sp v).1.toNat = sp.1.toNat - 4 := toNat_sub_four (by omega)
      have hword : (pushWord sp v).2.Words (pushWord sp v).1.toNat (v :: ws) := by
        apply Mem.words_storeWord
        rw [toNat_sub_four (by omega), Nat.sub_add_cancel (by omega)]
        exact hw
      obtain ⟨h₁, h₂, h₃⟩ := ih (by omega) hword
      have hlen : (pushWord sp v).1.toNat - 4 * vs.length =
          sp.1.toNat - 4 * (v :: vs).length := by
        rw [hsub, List.length_cons]
        omega
      rw [hlen] at h₁ h₂ h₃
      refine ⟨h₁, ?_, fun i hi => ?_⟩
      · rw [List.reverse_cons, List.append_assoc]
        exact h₂
      · rw [List.length_cons] at hi
        refine (h₃ i (by rw [List.length_cons]; omega)).trans ?_
        exact Mem.storeWord_of_outside (by rw [toNat_sub_four (by omega)]; omega)

def Cpu.save (c : Cpu) : Cpu :=
  let c := c.interrupt.pusha
  (c.push c.regs.ds).push c.regs.es

def Cpu.restore (c : Cpu) : Cpu :=
  ((c.popTo fun v r => { r with es := v }).popTo fun v r => { r with ds := v }).popa.iret

theorem save_eq : c.save.stack =
    pushWords c.stack (c.regs.frame c.interrupt.regs.esp).reverse := by
  unfold Cpu.save Cpu.pusha
  generalize c.interrupt.regs.esp = snap
  simp [Cpu.interrupt, Regs.frame, pushWords]

/-- A handler saves the whole context below the stack pointer. -/
theorem Cpu.save_spec (hroom : 52 ≤ c.regs.esp.toNat) :
    c.save.regs.esp.toNat = c.regs.esp.toNat - 52 ∧
      (∃ snap, c.save.mem.Words (c.regs.esp.toNat - 52) (c.regs.frame snap)) ∧
      ∀ i, i < c.regs.esp.toNat - 52 ∨ c.regs.esp.toNat ≤ i → c.save.mem i = c.mem i := by
  have hsave := save_eq (c := c)
  generalize c.save = d at hsave
  obtain ⟨h₁, h₂, h₃⟩ := @pushWords_spec c.stack
    (c.regs.frame c.interrupt.regs.esp).reverse [] hroom trivial
  rw [← hsave] at h₁ h₂ h₃
  rw [List.reverse_reverse, List.append_nil] at h₂
  exact ⟨h₁, ⟨_, h₂⟩, h₃⟩

/-- Load the words `ws` into registers, one after the other. -/
def loadAll : List (UInt32 → Regs → Regs) → List UInt32 → Regs → Regs
  | f :: fs, w :: ws, r => loadAll fs ws (f w { r with esp := r.esp + 4 })
  | _, _, r => r

theorem foldl_popTo {fs : List (UInt32 → Regs → Regs)} (hlen : fs.length = ws.length)
    (hfs : ∀ f ∈ fs, ∀ w r, (f w r).esp = r.esp) (hw : c.mem.Words c.regs.esp.toNat ws)
    (hroom : c.regs.esp.toNat + 4 * ws.length < 4294967296) :
    fs.foldl Cpu.popTo c = ⟨loadAll fs ws c.regs, c.mem⟩ := by
  induction ws generalizing c fs with
  | nil =>
      obtain rfl := List.eq_nil_of_length_eq_zero hlen
      rfl
  | cons w ws ih =>
      obtain ⟨f, fs, rfl⟩ := List.exists_cons_of_length_eq_add_one hlen
      rw [List.length_cons] at hroom
      have hpop : c.popTo f = ⟨f w { c.regs with esp := c.regs.esp + 4 }, c.mem⟩ := by
        rw [Cpu.popTo, hw.1]
      have hesp : (c.popTo f).regs.esp.toNat = c.regs.esp.toNat + 4 := by
        rw [hpop, hfs f List.mem_cons_self]
        exact toNat_add_four (by omega)
      rw [List.foldl_cons, ih (by simpa using hlen) (fun g hg => hfs g (List.mem_cons_of_mem f hg))
        (by rw [hesp]; exact hw.2) (by rw [hesp]; omega), hpop]
      rfl

/-- The registers in the order of a frame. -/
def setters : List (UInt32 → Regs → Regs) :=
  [fun v r => { r with es := v }, fun v r => { r with ds := v }, fun v r => { r with edi := v },
    fun v r => { r with esi := v }, fun v r => { r with ebp := v }, fun _ r => r,
    fun v r => { r with ebx := v }, fun v r => { r with edx := v },
    fun v r => { r with ecx := v }, fun v r => { r with eax := v },
    fun v r => { r with eip := v }, fun v r => { r with cs := v },
    fun v r => { r with eflags := v }]

theorem restore_eq : c.restore = setters.foldl Cpu.popTo c := rfl

/-- A handler restores the context whose frame the stack pointer points to. -/
theorem Cpu.restore_spec (hw : c.mem.Words c.regs.esp.toNat (r.frame snap))
    (hesp : r.esp.toNat = c.regs.esp.toNat + 52) : c.restore = ⟨r, c.mem⟩ := by
  have hroom : c.regs.esp.toNat + 4 * (r.frame snap).length < 4294967296 := by
    have := r.esp.toNat_lt
    have hlen : (r.frame snap).length = 13 := rfl
    omega
  have hfs : ∀ f ∈ setters, ∀ w r, (f w r).esp = r.esp := by
    simp [setters]
  rw [restore_eq, foldl_popTo rfl hfs hw hroom]
  have hload : loadAll setters (r.frame snap) c.regs = { r with
      esp := c.regs.esp + 4 + 4 + 4 + 4 + 4 + 4 + 4 + 4 + 4 + 4 + 4 + 4 + 4 } := rfl
  have hsum : c.regs.esp + 4 + 4 + 4 + 4 + 4 + 4 + 4 + 4 + 4 + 4 + 4 + 4 + 4 = r.esp := by
    have h52 : c.regs.esp + 4 + 4 + 4 + 4 + 4 + 4 + 4 + 4 + 4 + 4 + 4 + 4 + 4 =
        c.regs.esp + 52 := by
      simp only [UInt32.add_assoc]
      rfl
    rw [h52]
    apply UInt32.toNat_inj.mp
    have := r.esp.toNat_lt
    rw [UInt32.toNat_add, hesp]
    exact Nat.mod_eq_of_lt (by simp; omega)
  rw [hload, hsum]

end Chimaera.Proc
