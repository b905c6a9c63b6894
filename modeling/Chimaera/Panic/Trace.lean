/-
The stack trace of a panic: for code that keeps frame pointers it prints the calls
that are active, the innermost first.
-/
import Chimaera.Panic.Symtab
import Chimaera.Proc.Cpu

namespace Chimaera.Panic

open Chimaera.Proc

def panicMaxFrames : Nat := 32

/-- The test on EBP in front of each frame. -/
def FrameOk (ebp : UInt32) : Prop := ¬ (ebp = 0 ∨ ebp &&& 3 ≠ 0 ∨ ebp ≥ 0x04000000)

instance (ebp : UInt32) : Decidable (FrameOk ebp) := inferInstanceAs (Decidable (¬ _))

/-- A line of the trace: the number, the return address, and its symbol, if any. -/
structure TraceLine where
  frame : Nat
  retAddr : UInt32
  sym : Option (NamePtr × UInt32)

/-- The loop of `panic_impl` over the frames, `n` of them from number `frame` on. -/
def stackTrace (t : Symtab) (m : Mem) : Nat → Nat → UInt32 → List TraceLine
  | 0, _, _ => []
  | n + 1, frame, ebp =>
    if FrameOk ebp then
      let retAddr := m.loadWord (ebp + 4).toNat
      let nextEbp := m.loadWord ebp.toNat
      ⟨frame, retAddr, lookupSymbol t retAddr⟩ ::
        if nextEbp ≤ ebp then [] else stackTrace t m n (frame + 1) nextEbp
    else []

variable {t : Symtab} {m m' : Mem} {c : Cpu} {ebp ebp₀ ret : UInt32} {lo lo' n k top : Nat}
  {frames : List (Nat × UInt32)}

theorem and_three {x : UInt32} : x &&& 3 = 0 ↔ x.toNat % 4 = 0 := by
  rw [← UInt32.toNat_inj, UInt32.toNat_and]
  exact iff_of_eq (congrArg (· = 0) (Nat.and_two_pow_sub_one_eq_mod x.toNat 2))

theorem frameOk_iff : FrameOk ebp ↔
    0 < ebp.toNat ∧ ebp.toNat % 4 = 0 ∧ ebp.toNat < 0x04000000 := by
  unfold FrameOk
  rw [not_or, not_or, not_not, and_three, ← UInt32.toNat_inj, ge_iff_le, UInt32.le_iff_toNat_le]
  simp only [UInt32.toNat_ofNat, Nat.reducePow, Nat.zero_mod, Nat.reduceMod]
  omega

/-- A call that returns to `ret`, and `push ebp; mov ebp, esp` at its start. -/
def enter (c : Cpu) (ret : UInt32) : Cpu :=
  let c := (c.push ret).push c.regs.ebp
  { c with regs := { c.regs with ebp := c.regs.esp } }

/-- `leave` and `ret`, without the jump. -/
def leave (c : Cpu) : Cpu :=
  { c with regs := { c.regs with ebp := c.mem.loadWord c.regs.ebp.toNat, esp := c.regs.ebp + 8 } }

/-- Where the innermost frame begins, or the stack of the code. -/
def frameBase (top : Nat) : List (Nat × UInt32) → Nat
  | [] => top
  | (a, _) :: _ => a

/-- The states of code that keeps frame pointers, started with its stack pointer at `top` and
`ebp₀` in EBP.  The calls that are active come with the address that EBP has in them and
with their return address, the innermost first. -/
inductive Active (top : Nat) (ebp₀ : UInt32) : Cpu → List (Nat × UInt32) → Prop
  | start {c : Cpu} (hesp : c.regs.esp.toNat = top) (hebp : c.regs.ebp = ebp₀) :
      Active top ebp₀ c []
  | call {c : Cpu} {frames : List (Nat × UInt32)} {ret : UInt32} (h : Active top ebp₀ c frames)
      (hroom : 8 < c.regs.esp.toNat) :
      Active top ebp₀ (enter c ret) ((c.regs.esp.toNat - 8, ret) :: frames)
  | ret {c : Cpu} {frame : Nat × UInt32} {frames : List (Nat × UInt32)}
      (h : Active top ebp₀ c (frame :: frames)) : Active top ebp₀ (leave c) frames
  /-- Room for locals and arguments. -/
  | locals {c : Cpu} {frames : List (Nat × UInt32)} {sp : UInt32} (h : Active top ebp₀ c frames)
      (hle : sp.toNat ≤ frameBase top frames) (halign : sp.toNat % 4 = 0) :
      Active top ebp₀ { c with regs := { c.regs with esp := sp } } frames
  /-- Registers other than ESP and EBP, and bytes that belong to no frame. -/
  | other {c d : Cpu} {frames : List (Nat × UInt32)} (h : Active top ebp₀ c frames)
      (hesp : d.regs.esp = c.regs.esp) (hebp : d.regs.ebp = c.regs.ebp)
      (hmem : ∀ f ∈ frames, ∀ i, f.1 ≤ i → i < f.1 + 8 → d.mem i = c.mem i) :
      Active top ebp₀ d frames

/-- From EBP on the frames are linked, each one above the last, and `ebp₀` ends them. -/
def Linked (m : Mem) (top : Nat) (ebp₀ : UInt32) : Nat → UInt32 → List (Nat × UInt32) → Prop
  | lo, ebp, [] => lo ≤ top ∧ ebp = ebp₀
  | lo, ebp, (a, ret) :: frames => ebp.toNat = a ∧ lo ≤ a ∧ 0 < a ∧ a % 4 = 0 ∧
      m.loadWord (a + 4) = ret ∧ Linked m top ebp₀ (a + 8) (m.loadWord a) frames

theorem Linked.le_top (h : Linked m top ebp₀ lo ebp frames) : lo ≤ top := by
  induction frames generalizing lo ebp with
  | nil => exact h.1
  | cons f frames ih =>
      obtain ⟨-, hlo, -, -, -, hrest⟩ := h
      exact Nat.le_trans (Nat.le_trans hlo (Nat.le_add_right _ 8)) (ih hrest)

/-- The stack pointer may move below the innermost frame. -/
theorem Linked.low (h : Linked m top ebp₀ lo ebp frames) (hlo : lo' ≤ frameBase top frames) :
    Linked m top ebp₀ lo' ebp frames := by
  cases frames with
  | nil => exact ⟨hlo, h.2⟩
  | cons f frames =>
      obtain ⟨hebp, -, hrest⟩ := h
      exact ⟨hebp, hlo, hrest⟩

/-- Only the bytes of the frames count. -/
theorem Linked.congr (h : Linked m top ebp₀ lo ebp frames)
    (hm : ∀ f ∈ frames, ∀ i, f.1 ≤ i → i < f.1 + 8 → m' i = m i) :
    Linked m' top ebp₀ lo ebp frames := by
  induction frames generalizing lo ebp with
  | nil => exact h
  | cons f frames ih =>
      obtain ⟨hebp, hlo, hpos, halign, hret, hrest⟩ := h
      have hf := hm f List.mem_cons_self
      have hnext : m'.loadWord f.1 = m.loadWord f.1 :=
        Mem.loadWord_congr fun i h₁ h₂ => hf i h₁ (by omega)
      have hret' : m'.loadWord (f.1 + 4) = m.loadWord (f.1 + 4) :=
        Mem.loadWord_congr fun i h₁ h₂ => hf i (by omega) (by omega)
      refine ⟨hebp, hlo, hpos, halign, hret'.trans hret, ?_⟩
      rw [hnext]
      exact ih hrest fun g hg => hm g (List.mem_cons_of_mem f hg)

/-- No frame begins below `lo`. -/
theorem Linked.le_of_mem (h : Linked m top ebp₀ lo ebp frames) {f : Nat × UInt32}
    (hf : f ∈ frames) : lo ≤ f.1 := by
  induction frames generalizing lo ebp with
  | nil => exact absurd hf List.not_mem_nil
  | cons g frames ih =>
      obtain ⟨-, hlo, -, -, -, hrest⟩ := h
      rcases List.mem_cons.mp hf with rfl | hf
      · exact hlo
      · exact Nat.le_trans (Nat.le_trans hlo (Nat.le_add_right _ 8)) (ih hrest hf)

/-- The two words of a call. -/
theorem enter_spec (ret : UInt32) (hroom : 8 < c.regs.esp.toNat) :
    (enter c ret).regs.esp = (enter c ret).regs.ebp ∧
    (enter c ret).regs.ebp.toNat = c.regs.esp.toNat - 8 ∧
    (enter c ret).mem.loadWord (c.regs.esp.toNat - 8 + 4) = ret ∧
    (enter c ret).mem.loadWord (c.regs.esp.toNat - 8) = c.regs.ebp ∧
    ∀ i, c.regs.esp.toNat ≤ i → (enter c ret).mem i = c.mem i := by
  obtain ⟨hsp, hwords, hout⟩ := @pushWords_spec c.stack [ret, c.regs.ebp] []
    (Nat.le_of_lt hroom) trivial
  exact ⟨rfl, hsp, hwords.2.1, hwords.1, fun i hi => hout i (Or.inr hi)⟩

theorem Linked.enter (h : Linked c.mem top ebp₀ c.regs.esp.toNat c.regs.ebp frames)
    (hroom : 8 < c.regs.esp.toNat) (halign : c.regs.esp.toNat % 4 = 0) :
    Linked (Panic.enter c ret).mem top ebp₀ (Panic.enter c ret).regs.esp.toNat
      (Panic.enter c ret).regs.ebp ((c.regs.esp.toNat - 8, ret) :: frames) := by
  obtain ⟨hesp, hebp, hret, hold, hout⟩ := enter_spec ret hroom
  refine ⟨hebp, by rw [hesp, hebp], by omega, by omega, hret, ?_⟩
  rw [hold, Nat.sub_add_cancel (Nat.le_of_lt hroom)]
  exact h.congr fun f hf i hi _ => hout i (Nat.le_trans (h.le_of_mem hf) hi)

theorem leave_esp {f : Nat × UInt32} (htop : top ≤ 0x04000000)
    (h : Linked c.mem top ebp₀ c.regs.esp.toNat c.regs.ebp (f :: frames)) :
    (leave c).regs.esp.toNat = f.1 + 8 := by
  obtain ⟨hebp, -, -, -, -, hrest⟩ := h
  change (c.regs.ebp + 8).toNat = f.1 + 8
  rw [UInt32.toNat_add, hebp]
  exact Nat.mod_eq_of_lt (Nat.lt_of_le_of_lt (hrest.le_top.trans htop) (by decide))

theorem Linked.leave {f : Nat × UInt32} (htop : top ≤ 0x04000000)
    (h : Linked c.mem top ebp₀ c.regs.esp.toNat c.regs.ebp (f :: frames)) :
    Linked (Panic.leave c).mem top ebp₀ (Panic.leave c).regs.esp.toNat
      (Panic.leave c).regs.ebp frames := by
  rw [leave_esp htop h]
  obtain ⟨hebp, -, -, -, -, hrest⟩ := h
  change Linked c.mem top ebp₀ (f.1 + 8) (c.mem.loadWord c.regs.ebp.toNat) frames
  rw [hebp]
  exact hrest

/-- In every state the frames that are active are linked, above an aligned stack pointer. -/
theorem Active.linked (h : Active top ebp₀ c frames) (halign : top % 4 = 0)
    (htop : top ≤ 0x04000000) :
    Linked c.mem top ebp₀ c.regs.esp.toNat c.regs.ebp frames ∧ c.regs.esp.toNat % 4 = 0 := by
  induction h with
  | start hesp hebp =>
      rw [hesp]
      exact ⟨⟨Nat.le_refl top, hebp⟩, halign⟩
  | @call c frames ret _ hroom ih =>
      obtain ⟨hesp, hebp, -⟩ := enter_spec ret hroom
      refine ⟨ih.1.enter hroom ih.2, ?_⟩
      rw [hesp, hebp]
      omega
  | @ret c f frames _ ih =>
      refine ⟨ih.1.leave htop, ?_⟩
      obtain ⟨-, -, -, haddr, -⟩ := ih.1
      rw [leave_esp htop ih.1]
      omega
  | locals _ hle hsp ih => exact ⟨ih.1.low hle, hsp⟩
  | other _ hesp hebp hmem ih =>
      rw [hesp, hebp]
      exact ⟨ih.1.congr hmem, ih.2⟩

/-- The line for a call that is active. -/
def callLine (t : Symtab) (p : (Nat × UInt32) × Nat) : TraceLine :=
  ⟨p.2, p.1.2, lookupSymbol t p.1.2⟩

/-- Along linked frames the walk goes on until they end. -/
theorem stackTrace_of_linked (h : Linked m top ebp₀ lo ebp frames) (htop : top ≤ 0x04000000)
    (hend : ¬ FrameOk ebp₀) :
    stackTrace t m n k ebp = ((frames.take n).zipIdx k).map (callLine t) := by
  induction frames generalizing lo ebp n k with
  | nil =>
      cases n with
      | zero => rfl
      | succ n =>
          rw [stackTrace, h.2, if_neg hend]
          rfl
  | cons f frames ih =>
      cases n with
      | zero => rfl
      | succ n =>
          obtain ⟨hebp, -, hpos, halign, hret, hrest⟩ := h
          have hbelow := hrest.le_top
          have hok : FrameOk ebp := frameOk_iff.mpr (by omega)
          have hadd : (ebp + 4).toNat = f.1 + 4 := by rw [toNat_add_four (by omega), hebp]
          rw [stackTrace, if_pos hok, hadd, hret, hebp, List.take_succ_cons, List.zipIdx_cons,
            List.map_cons]
          refine congrArg _ ?_
          by_cases hstop : m.loadWord f.1 ≤ ebp
          · rw [if_pos hstop]
            cases frames with
            | nil => simp
            | cons g frames =>
                have := UInt32.le_iff_toNat_le.mp hstop
                obtain ⟨hg, hlo, -⟩ := hrest
                omega
          · rw [if_neg hstop]
            exact ih hrest

/-- The trace of code that keeps frame pointers, with its stack below 64 MiB: the calls that
are active, numbered from the innermost on, up to 32 of them.  EBP must not look like a frame
when the code starts. -/
theorem stackTrace_active (h : Active top ebp₀ c frames) (halign : top % 4 = 0)
    (htop : top ≤ 0x04000000) (hend : ¬ FrameOk ebp₀) :
    stackTrace t c.mem panicMaxFrames 0 c.regs.ebp =
      (frames.take panicMaxFrames).zipIdx.map (callLine t) :=
  stackTrace_of_linked (h.linked halign htop).1 htop hend

/-- A task before its first call: EBP is zero. -/
def idle : Cpu := ⟨⟨0, 0, 0, 0, 0, 0, 0, 0, 0, 0, 0, 0, 0x00100000⟩, fun _ => 0⟩

theorem stackTrace_active_nested :
    stackTrace Symtab.initial (enter (enter idle 0x1234) 0x5678).mem panicMaxFrames 0
      (enter (enter idle 0x1234) 0x5678).regs.ebp = [⟨0, 0x5678, none⟩, ⟨1, 0x1234, none⟩] :=
  @stackTrace_active Symtab.initial _ 0 0x00100000 _
    (.call (.call (.start rfl rfl) (by decide)) (by decide)) (by decide) (by decide) (by decide)

end Chimaera.Panic
