/-
Context switches are invisible to the tasks: whatever the order of interrupts,
yields, spawns and exits, a task is resumed with the registers that it had when
it was last stopped.
-/
import Chimaera.Proc.Sched

namespace Chimaera.Proc

/-- Where the kernel image puts things: the entry of new tasks, the stack of
the main task, and the heap that all other stacks come from. -/
structure Layout where
  trampoline : UInt32
  bootBase : Nat
  bootTop : Nat
  heapBase : Nat
  boot_lt : bootTop < 4294967296
  heap_lt : heapBase + heapSize < 4294967296
  disjoint : bootTop ≤ heapBase ∨ heapBase + heapSize ≤ bootBase

variable {L : Layout} {k k' : Kernel} {ctx ctx' : Nat → Regs} {t u next : Nat}

def Layout.base (L : Layout) (k : Kernel) (t : Nat) : Nat :=
  if t = 0 then L.bootBase else (k.tasks t).stackBase.toNat

def Layout.top (L : Layout) (k : Kernel) (t : Nat) : Nat :=
  if t = 0 then L.bootTop else (k.tasks t).stackBase.toNat + taskStackSize

/-- The slots that have a stack. -/
def Live (k : Kernel) (t : Nat) : Prop :=
  t < schedMaxTasks ∧ (t = 0 ∨ (k.tasks t).state ≠ .unused)

/-- The stack pointer is on the stack of `t`, with room for a frame. -/
structure Layout.OnStack (L : Layout) (k : Kernel) (t : Nat) (esp : UInt32) : Prop where
  live : Live k t
  base : L.base k t + 52 ≤ esp.toNat
  top : esp.toNat ≤ L.top k t

/-- The task table between and inside handlers. -/
structure Sane (L : Layout) (k : Kernel) : Prop where
  current_lt : k.current < schedMaxTasks
  current_state : (k.tasks k.current).state = .running ∨ (k.tasks k.current).state = .zombie
  running : ∀ t < schedMaxTasks, (k.tasks t).state = .running → t = k.current
  main : (k.tasks 0).state = .ready ∨ (k.tasks 0).state = .running
  heap_base : k.heap.base = L.heapBase
  heap_ptr : k.heap.ptr ≤ heapSize
  inHeap : ∀ t, Live k t → t ≠ 0 →
    L.heapBase ≤ L.base k t ∧ L.top k t ≤ L.heapBase + k.heap.ptr
  disjoint : ∀ t u, Live k t → Live k u → t ≠ u →
    L.top k t ≤ L.base k u ∨ L.top k u ≤ L.base k t

/-- The context `ctx t` lies on the stack of `t`, at the saved stack pointer. -/
structure Saved (L : Layout) (k : Kernel) (ctx : Nat → Regs) (t : Nat) : Prop where
  base : L.base k t ≤ (k.tasks t).esp.toNat
  esp : (ctx t).esp.toNat = (k.tasks t).esp.toNat + 52
  top : (ctx t).esp.toNat ≤ L.top k t
  frame : ∃ snap, k.cpu.mem.Words (k.tasks t).esp.toNat ((ctx t).frame snap)

/-- Between handlers: the current task runs on its own stack, and the contexts
of the ready tasks are saved. -/
structure Inv (L : Layout) (k : Kernel) (ctx : Nat → Regs) : Prop extends Sane L k where
  onStack : L.OnStack k k.current k.cpu.regs.esp
  saved : ∀ t < schedMaxTasks, t ≠ k.current → (k.tasks t).state = .ready → Saved L k ctx t

/-- Inside a handler: the context of the current task is saved as well, and
the stack pointer is at its frame. -/
structure Stopped (L : Layout) (k : Kernel) (ctx : Nat → Regs) : Prop extends Sane L k where
  esp : k.cpu.regs.esp = (k.tasks k.current).esp
  saved : ∀ t < schedMaxTasks, (t = k.current ∨ (k.tasks t).state = .ready) → Saved L k ctx t

theorem Sane.live_current (h : Sane L k) : Live k k.current := by
  refine ⟨h.current_lt, Or.inr ?_⟩
  rcases h.current_state with hs | hs <;> simp [hs]

theorem live_of_ready (ht : t < schedMaxTasks) (hs : (k.tasks t).state = .ready) : Live k t :=
  ⟨ht, Or.inr (by simp [hs])⟩

structure SameStacks (k k' : Kernel) : Prop where
  base : ∀ t, (k'.tasks t).stackBase = (k.tasks t).stackBase
  unused : ∀ t, (k'.tasks t).state = .unused ↔ (k.tasks t).state = .unused
  heap : k'.heap = k.heap

theorem SameStacks.base_eq (h : SameStacks k k') : L.base k' t = L.base k t := by
  rw [Layout.base, Layout.base, h.base]

theorem SameStacks.top_eq (h : SameStacks k k') : L.top k' t = L.top k t := by
  rw [Layout.top, Layout.top, h.base]

theorem SameStacks.live_iff (h : SameStacks k k') : Live k' t ↔ Live k t := by
  rw [Live, Live, Ne, Ne, h.unused]

theorem Sane.congr (hs : Sane L k) (h : SameStacks k k') (hlt : k'.current < schedMaxTasks)
    (hcur : (k'.tasks k'.current).state = .running ∨ (k'.tasks k'.current).state = .zombie)
    (hrun : ∀ t < schedMaxTasks, (k'.tasks t).state = .running → t = k'.current)
    (hmain : (k'.tasks 0).state = .ready ∨ (k'.tasks 0).state = .running) : Sane L k' where
  current_lt := hlt
  current_state := hcur
  running := hrun
  main := hmain
  heap_base := by rw [h.heap]; exact hs.heap_base
  heap_ptr := by rw [h.heap]; exact hs.heap_ptr
  inHeap t ht h0 := by
    rw [h.base_eq, h.top_eq, h.heap]
    exact hs.inHeap t (h.live_iff.mp ht) h0
  disjoint t u ht hu hne := by
    rw [h.base_eq, h.top_eq, h.base_eq, h.top_eq]
    exact hs.disjoint t u (h.live_iff.mp ht) (h.live_iff.mp hu) hne

theorem Saved.congr (hs : Saved L k ctx t) (h : SameStacks k k')
    (hesp : (k'.tasks t).esp = (k.tasks t).esp) (hctx : ctx' t = ctx t)
    (hmem : ∀ i, (k.tasks t).esp.toNat ≤ i → i < (ctx t).esp.toNat → k'.cpu.mem i = k.cpu.mem i) :
    Saved L k' ctx' t where
  base := by rw [h.base_eq, hesp]; exact hs.base
  esp := by rw [hctx, hesp]; exact hs.esp
  top := by rw [hctx, h.top_eq]; exact hs.top
  frame := by
    obtain ⟨snap, hw⟩ := hs.frame
    refine ⟨snap, ?_⟩
    rw [hesp, hctx]
    apply hw.congr
    intro i h₁ h₂
    have hlen : ((ctx t).frame snap).length = 13 := rfl
    have := hs.esp
    exact hmem i h₁ (by omega)

theorem enterHandler_tasks : (enterHandler k).tasks =
    Function.update k.tasks k.current { k.tasks k.current with esp := k.cpu.save.regs.esp } := rfl

theorem enterHandler_esp : (enterHandler k).cpu.regs.esp = k.cpu.save.regs.esp := by
  unfold enterHandler
  generalize k.cpu.save = c
  rfl

theorem enterHandler_mem : (enterHandler k).cpu.mem = k.cpu.save.mem := by
  unfold enterHandler
  generalize k.cpu.save = c
  rfl

@[simp] theorem enterHandler_current : (enterHandler k).current = k.current := rfl

theorem enterHandler_state : ((enterHandler k).tasks t).state = (k.tasks t).state := by
  rw [enterHandler_tasks]
  by_cases h : t = k.current
  · rw [h, Function.update_self]
  · rw [Function.update_of_ne h]

theorem enterHandler_sameStacks : SameStacks k (enterHandler k) := by
  refine ⟨fun u => ?_, fun u => ?_, rfl⟩
  · rw [enterHandler_tasks]
    by_cases h : u = k.current
    · rw [h, Function.update_self]
    · rw [Function.update_of_ne h]
  · rw [enterHandler_state]

/-- Entering a handler saves the context of the current task. -/
theorem Inv.enter (h : Inv L k ctx) :
    Stopped L (enterHandler k) (Function.update ctx k.current k.cpu.regs) := by
  have hbase := h.onStack.base
  obtain ⟨hesp, ⟨snap, hframe⟩, hmem⟩ := Cpu.save_spec (c := k.cpu) (by omega)
  have hsame := enterHandler_sameStacks (k := k)
  have hcur : ((enterHandler k).tasks k.current).esp = k.cpu.save.regs.esp := by
    rw [enterHandler_tasks, Function.update_self]
  have hsane : Sane L (enterHandler k) := by
    apply h.toSane.congr hsame h.current_lt
    · rw [enterHandler_state]
      exact h.current_state
    · intro t ht hr
      rw [enterHandler_state] at hr
      exact h.running t ht hr
    · rw [enterHandler_state]
      exact h.main
  refine ⟨hsane, ?_, fun t ht hcase => ?_⟩
  · rw [enterHandler_esp, enterHandler_current, hcur]
  by_cases htc : t = k.current
  · subst htc
    constructor
    · rw [hsame.base_eq, hcur, hesp]
      omega
    · rw [Function.update_self, hcur, hesp]
      omega
    · rw [Function.update_self, hsame.top_eq]
      exact h.onStack.top
    · rw [Function.update_self, hcur, hesp, enterHandler_mem]
      exact ⟨snap, hframe⟩
  · have hready : (k.tasks t).state = .ready := by
      rcases hcase with heq | hr
      · exact absurd heq htc
      · rwa [enterHandler_state] at hr
    have hsaved := h.saved t ht htc hready
    have hesp' : ((enterHandler k).tasks t).esp = (k.tasks t).esp := by
      rw [enterHandler_tasks, Function.update_of_ne htc]
    apply hsaved.congr hsame hesp' (Function.update_of_ne htc _ _)
    intro i h₁ h₂
    have hd := h.disjoint t k.current (live_of_ready ht hready) h.live_current htc
    have h₃ := hsaved.base
    have h₄ := hsaved.top
    have h₅ := h.onStack.top
    rw [enterHandler_mem]
    exact hmem i (by omega)

/-- Leaving a handler loads the context of the current task. -/
theorem Stopped.leave (h : Stopped L k ctx) :
    (leaveHandler k).cpu = ⟨ctx k.current, k.cpu.mem⟩ ∧ Inv L (leaveHandler k) ctx := by
  have hsaved := h.saved k.current h.current_lt (Or.inl rfl)
  obtain ⟨snap, hframe⟩ := hsaved.frame
  have hcpu : (leaveHandler k).cpu = ⟨ctx k.current, k.cpu.mem⟩ := by
    rw [← h.esp] at hframe
    exact Cpu.restore_spec hframe (by rw [hsaved.esp, h.esp])
  have hsame : SameStacks k (leaveHandler k) := ⟨fun _ => rfl, fun _ => Iff.rfl, rfl⟩
  refine ⟨hcpu, h.toSane.congr hsame h.current_lt h.current_state h.running h.main, ?_,
    fun t ht _ hr => ?_⟩
  · have h₁ := hsaved.base
    have h₂ := hsaved.esp
    refine ⟨h.live_current, ?_, ?_⟩
    · rw [hcpu]
      change L.base k k.current + 52 ≤ (ctx k.current).esp.toNat
      omega
    · rw [hcpu]
      exact hsaved.top
  · refine (h.saved t ht (Or.inr hr)).congr hsame rfl rfl fun i _ _ => ?_
    rw [hcpu]

/-- What the scan finds is another slot, and ready. -/
theorem scanReady_eq_some (h : scanReady k = some next) (_hlt : k.current < schedMaxTasks) :
    next < schedMaxTasks ∧ next ≠ k.current ∧ (k.tasks next).state = .ready := by
  have hmem := List.mem_of_find?_eq_some h
  have hready : (k.tasks next).state = .ready := by simpa using List.find?_some h
  have hmod : ∀ d, (k.current + d) &&& 3 = (k.current + d) % 4 := fun d =>
    Nat.and_two_pow_sub_one_eq_mod _ 2
  simp only [List.map_cons, List.map_nil, List.mem_cons, List.not_mem_nil, or_false, hmod] at hmem
  unfold schedMaxTasks at *
  refine ⟨?_, ?_, hready⟩
  · omega
  · omega

/-- Counters do not matter. -/
theorem Stopped.congr (h : Stopped L k ctx) (hcpu : k'.cpu = k.cpu) (hheap : k'.heap = k.heap)
    (hcur : k'.current = k.current) (hesp : ∀ t, (k'.tasks t).esp = (k.tasks t).esp)
    (hbase : ∀ t, (k'.tasks t).stackBase = (k.tasks t).stackBase)
    (hstate : ∀ t, (k'.tasks t).state = (k.tasks t).state) : Stopped L k' ctx := by
  have hsame : SameStacks k k' := ⟨hbase, fun t => by rw [hstate], hheap⟩
  refine ⟨?_, ?_, fun t ht hcase => ?_⟩
  · apply h.toSane.congr hsame
    · rw [hcur]
      exact h.current_lt
    · rw [hcur, hstate]
      exact h.current_state
    · intro t ht hr
      rw [hcur]
      exact h.running t ht (by rw [← hstate]; exact hr)
    · rw [hstate]
      exact h.main
  · rw [hcpu, hcur, hesp]
    exact h.esp
  · rw [hcur, hstate] at hcase
    exact (h.saved t ht hcase).congr hsame (hesp t) rfl fun i _ _ => by rw [hcpu]

section switchTo

variable {st : TaskState}

theorem setState_state_self : ((k.setState t st).tasks t).state = st := by
  simp [Kernel.setState, Kernel.setTask]

theorem setState_state_of_ne (h : u ≠ t) :
    ((k.setState t st).tasks u).state = (k.tasks u).state := by
  simp [Kernel.setState, Kernel.setTask, h]

theorem setState_esp : ((k.setState t st).tasks u).esp = (k.tasks u).esp := by
  by_cases h : u = t
  · simp [Kernel.setState, Kernel.setTask, h]
  · simp [Kernel.setState, Kernel.setTask, h]

theorem setState_stackBase : ((k.setState t st).tasks u).stackBase = (k.tasks u).stackBase := by
  by_cases h : u = t
  · simp [Kernel.setState, Kernel.setTask, h]
  · simp [Kernel.setState, Kernel.setTask, h]

theorem switchTo_esp : ((switchTo k next).tasks t).esp = (k.tasks t).esp := by
  unfold switchTo
  split
  · exact setState_esp.trans setState_esp
  · exact setState_esp

theorem switchTo_stackBase : ((switchTo k next).tasks t).stackBase = (k.tasks t).stackBase := by
  unfold switchTo
  split
  · exact setState_stackBase.trans setState_stackBase
  · exact setState_stackBase

theorem switchTo_heap : (switchTo k next).heap = k.heap := by
  unfold switchTo
  split
  · rfl
  · rfl

theorem switchTo_cpu : (switchTo k next).cpu =
    { k.cpu with regs := { k.cpu.regs with esp := (k.tasks next).esp } } := by
  unfold switchTo
  split
  · simp only [setState_esp]
    rfl
  · simp only [setState_esp]
    rfl

theorem switchTo_state_next : ((switchTo k next).tasks next).state = .running :=
  setState_state_self

theorem switchTo_state_current (h : next ≠ k.current) :
    ((switchTo k next).tasks k.current).state =
      if (k.tasks k.current).state = .running then .ready else (k.tasks k.current).state := by
  unfold switchTo
  split
  · exact (setState_state_of_ne h.symm).trans setState_state_self
  · exact setState_state_of_ne h.symm

theorem switchTo_state_of_ne (h : t ≠ next) (hc : t ≠ k.current) :
    ((switchTo k next).tasks t).state = (k.tasks t).state := by
  unfold switchTo
  split
  · exact (setState_state_of_ne h).trans (setState_state_of_ne hc)
  · exact setState_state_of_ne h

end switchTo

/-- Switching to a ready task. -/
theorem Stopped.switchTo (h : Stopped L k ctx) (hlt : next < schedMaxTasks)
    (hne : next ≠ k.current) (hready : (k.tasks next).state = .ready) :
    Stopped L (switchTo k next) ctx := by
  have hcurState := switchTo_state_current hne
  have hunused : ∀ t, ((Proc.switchTo k next).tasks t).state = .unused ↔
      (k.tasks t).state = .unused := by
    intro t
    by_cases htn : t = next
    · rw [htn, switchTo_state_next, hready]
      simp
    by_cases htc : t = k.current
    · rw [htc, hcurState]
      split
      · rename_i hrun
        rw [hrun]
        simp
      · rfl
    · rw [switchTo_state_of_ne htn htc]
  have hsame : SameStacks k (Proc.switchTo k next) :=
    ⟨fun _ => switchTo_stackBase, hunused, switchTo_heap⟩
  have hsane : Sane L (Proc.switchTo k next) := by
    apply h.toSane.congr hsame
    · exact hlt
    · exact Or.inl switchTo_state_next
    · intro t ht hr
      by_contra htn
      replace htn : t ≠ next := htn
      by_cases htc : t = k.current
      · rw [htc, hcurState] at hr
        split at hr
        · exact absurd hr (by simp)
        · contradiction
      · rw [switchTo_state_of_ne htn htc] at hr
        exact htc (h.running t ht hr)
    · by_cases h0n : 0 = next
      · right
        rw [h0n]
        exact switchTo_state_next
      by_cases h0c : 0 = k.current
      · have hmain := h.main
        rw [h0c] at hmain ⊢
        rw [hcurState]
        split
        · exact Or.inl rfl
        · exact hmain
      · rw [switchTo_state_of_ne h0n h0c]
        exact h.main
  refine ⟨hsane, ?_, fun t ht hcase => ?_⟩
  · rw [switchTo_cpu]
    exact switchTo_esp.symm
  · have hold : t = k.current ∨ (k.tasks t).state = .ready := by
      by_cases htn : t = next
      · rw [htn]
        exact Or.inr hready
      by_cases htc : t = k.current
      · exact Or.inl htc
      · rcases hcase with heq | hr
        · exact absurd heq htn
        · rw [switchTo_state_of_ne htn htc] at hr
          exact Or.inr hr
    exact (h.saved t ht hold).congr hsame switchTo_esp rfl fun i _ _ => by rw [switchTo_cpu]

/-- What a handler does to the kernel `k` in which it is entered: it resumes a
task with its last context, which need not be the interrupted one. -/
structure Resumes (L : Layout) (k : Kernel) (ctx : Nat → Regs) (k' : Kernel) : Prop where
  regs : k'.cpu.regs = Function.update ctx k.current k.cpu.regs k'.current
  chosen : k'.current = k.current ∨ (k.tasks k'.current).state = .ready
  inv : Inv L k' (Function.update ctx k.current k.cpu.regs)

theorem Stopped.resumes (h : Stopped L k' (Function.update ctx k.current k.cpu.regs))
    (hc : k'.current = k.current ∨ (k.tasks k'.current).state = .ready) :
    Resumes L k ctx (leaveHandler k') := by
  obtain ⟨hcpu, hinv⟩ := h.leave
  refine ⟨?_, hc, hinv⟩
  rw [hcpu]
  rfl

/-- The counters of `irq0_handler`. -/
def tick (k : Kernel) : Kernel :=
  { k.setTask k.current { k.tasks k.current with ticks := (k.tasks k.current).ticks + 1 } with
    tickCount := k.tickCount + 1
    msTicks := k.msTicks + 10 }

theorem irq0Handler_eq : irq0Handler k =
    if (tick (enterHandler k)).tickCount.toInt32 < 5 then leaveHandler (tick (enterHandler k))
    else match scanReady { tick (enterHandler k) with tickCount := 0 } with
      | none => leaveHandler { tick (enterHandler k) with tickCount := 0 }
      | some next => leaveHandler (switchTo { tick (enterHandler k) with tickCount := 0 } next) :=
  rfl

theorem tick_tasks : (tick k).tasks t = k.tasks t ∨
    t = k.current ∧ (tick k).tasks t = { k.tasks t with ticks := (k.tasks t).ticks + 1 } := by
  by_cases ht : t = k.current
  · right
    simp [tick, Kernel.setTask, ht]
  · left
    simp [tick, Kernel.setTask, ht]

theorem tick_state : ((tick k).tasks t).state = (k.tasks t).state := by
  rcases tick_tasks (k := k) (t := t) with h | ⟨-, h⟩
  · rw [h]
  · rw [h]

theorem Stopped.tick (h : Stopped L k ctx) : Stopped L (tick k) ctx := by
  refine h.congr rfl rfl rfl (fun t => ?_) (fun t => ?_) fun t => tick_state
  · rcases tick_tasks (k := k) (t := t) with ht | ⟨-, ht⟩
    · rw [ht]
    · rw [ht]
  · rcases tick_tasks (k := k) (t := t) with ht | ⟨-, ht⟩
    · rw [ht]
    · rw [ht]

/-- `irq0_handler` is a context switch. -/
theorem Inv.irq0Handler (h : Inv L k ctx) : Resumes L k ctx (irq0Handler k) := by
  have hstop := h.enter.tick
  have hcur : (tick (enterHandler k)).current = k.current := rfl
  have hstate : ∀ t, ((tick (enterHandler k)).tasks t).state = (k.tasks t).state := fun t =>
    tick_state.trans enterHandler_state
  rw [irq0Handler_eq]
  generalize tick (enterHandler k) = e at hstop hcur hstate ⊢
  split
  · exact hstop.resumes (Or.inl hcur)
  · have hzero : Stopped L { e with tickCount := 0 }
        (Function.update ctx k.current k.cpu.regs) :=
      hstop.congr rfl rfl rfl (fun _ => rfl) (fun _ => rfl) fun _ => rfl
    split
    · exact hzero.resumes (Or.inl hcur)
    · rename_i next hscan
      obtain ⟨hlt, hne, hready⟩ := scanReady_eq_some hscan hzero.current_lt
      apply (hzero.switchTo hlt hne hready).resumes
      right
      rw [← hstate]
      exact hready

/-- `yield_int_handler` is a context switch. -/
theorem Inv.yieldIntHandler (h : Inv L k ctx) : Resumes L k ctx (yieldIntHandler k) := by
  have hstop := h.enter
  have hcur : (enterHandler k).current = k.current := rfl
  have hstate : ∀ t, ((enterHandler k).tasks t).state = (k.tasks t).state := fun _ =>
    enterHandler_state
  unfold Proc.yieldIntHandler
  generalize enterHandler k = e at hstop hcur hstate ⊢
  simp only
  split
  · exact hstop.resumes (Or.inl hcur)
  · rename_i next hscan
    obtain ⟨hlt, hne, hready⟩ := scanReady_eq_some hscan hstop.current_lt
    have hswitch := hstop.switchTo hlt hne hready
    have hzero : Stopped L { switchTo e next with tickCount := 0 }
        (Function.update ctx k.current k.cpu.regs) :=
      hswitch.congr rfl rfl rfl (fun _ => rfl) (fun _ => rfl) fun _ => rfl
    apply hzero.resumes
    right
    rw [← hstate]
    exact hready

end Chimaera.Proc
