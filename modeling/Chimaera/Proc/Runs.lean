/-
Runs of the scheduler: tasks run on their own stacks, spawn and exit, and
interrupts and yields come in any order.
-/
import Chimaera.Proc.Switch

namespace Chimaera.Proc

variable {L : Layout} {k k' : Kernel} {ctx ctx' : Nat → Regs} {t u slot : Nat} {entry : UInt32}
  {name : Option String}

/-- The context in which a new task starts: at the trampoline, which calls the
function in EBX, with its whole stack before it. -/
def firstContext (trampoline entry stackBase : UInt32) : Regs where
  es := 0x18
  ds := 0x18
  edi := 0
  esi := 0
  ebp := 0
  ebx := entry
  edx := 0
  ecx := 0
  eax := 0
  eip := trampoline
  cs := 0x10
  eflags := 0x202
  esp := stackBase + UInt32.ofNat taskStackSize

theorem reverse_spawnFrame {trampoline stackBase : UInt32} :
    (spawnFrame trampoline entry).reverse = (firstContext trampoline entry stackBase).frame 0 :=
  rfl

/-- What a successful spawn does. -/
structure Spawned (k : Kernel) (trampoline entry : UInt32) (slot : Nat) (k' : Kernel) : Prop where
  slot_pos : slot ≠ 0
  slot_lt : slot < schedMaxTasks
  unused : (k.tasks slot).state = .unused
  ready : (k'.tasks slot).state = .ready
  other : ∀ t, t ≠ slot → k'.tasks t = k.tasks t
  current : k'.current = k.current
  regs : k'.cpu.regs = k.cpu.regs
  heap_base : k'.heap.base = k.heap.base
  heap_ptr : k'.heap.ptr = k.heap.ptr + taskStackSize
  heap_le : k'.heap.ptr ≤ heapSize
  base : (k'.tasks slot).stackBase.toNat = k.heap.base + k.heap.ptr
  esp : (k'.tasks slot).esp.toNat + 52 = k.heap.base + k.heap.ptr + taskStackSize
  frame : k'.cpu.mem.Words (k'.tasks slot).esp.toNat
    ((firstContext trampoline entry (k'.tasks slot).stackBase).frame 0)
  mem : ∀ i, i < k.heap.base + k.heap.ptr ∨ k.heap.base + k.heap.ptr + taskStackSize ≤ i →
    k'.cpu.mem i = k.cpu.mem i

theorem schedSpawn_spec (trampoline : UInt32) (hptr : k.heap.ptr ≤ heapSize)
    (hbase : k.heap.base + heapSize < 4294967296) :
    schedSpawn trampoline k entry name = (-1, k) ∨
      ∃ (slot : Nat) (k' : Kernel), schedSpawn trampoline k entry name = ((slot : Int), k') ∧
        Spawned k trampoline entry slot k' := by
  unfold schedSpawn
  split
  · exact Or.inl rfl
  · rename_i slot hfind
    have hmem := List.mem_of_find?_eq_some hfind
    have hunused : (k.tasks slot).state = .unused := by simpa using List.find?_some hfind
    simp only [List.mem_range'_1] at hmem
    split
    · exact Or.inl rfl
    · rename_i stack heap mem halloc
      obtain ⟨rfl, hbase', hptr', hle, hout⟩ := kmalloc_eq_some halloc hptr (by decide) (by decide)
      have hstack : k.heap.ptr + taskStackSize ≤ heapSize := by omega
      have hnat : ∀ n ≤ heapSize, (UInt32.ofNat (k.heap.base + n)).toNat = k.heap.base + n :=
        fun n hn => UInt32.toNat_ofNat_of_lt' (by unfold UInt32.size; omega)
      have htop := hnat (k.heap.ptr + taskStackSize) hstack
      rw [← Nat.add_assoc] at htop
      obtain ⟨h₁, h₂, h₃⟩ := @pushWords_spec
        (UInt32.ofNat (k.heap.base + k.heap.ptr + taskStackSize), mem)
        (spawnFrame trampoline entry) []
        (by rw [htop]; simp [spawnFrame, taskStackSize]) trivial
      generalize pushWords (UInt32.ofNat (k.heap.base + k.heap.ptr + taskStackSize), mem)
        (spawnFrame trampoline entry) = sp at h₁ h₂ h₃ ⊢
      have hlen : 4 * (spawnFrame trampoline entry).length = 52 := rfl
      have hroom : 52 ≤ taskStackSize := by decide
      simp only [htop, hlen, List.append_nil] at h₁ h₂ h₃
      refine Or.inr ⟨slot, _, rfl, ?_⟩
      have htask : ∀ task, ((k.setTask slot task).tasks slot) = task := fun task =>
        Function.update_self ..
      constructor
      · omega
      · unfold schedMaxTasks at *
        omega
      · exact hunused
      · rw [htask]
      · exact fun t ht => Function.update_of_ne ht ..
      · rfl
      · rfl
      · exact hbase'
      · exact hptr'
      · exact hle
      · rw [htask]
        exact hnat _ hptr
      · rw [htask]
        simp only [h₁]
        omega
      · rw [htask, ← reverse_spawnFrame, h₁]
        exact h₂
      · intro i hi
        exact (h₃ i (by omega)).trans (hout i hi)

section Spawned

variable {trampoline : UInt32}

theorem Spawned.live_iff (h : Spawned k trampoline entry slot k') :
    Live k' t ↔ t = slot ∨ Live k t := by
  by_cases ht : t = slot
  · subst ht
    simp [Live, h.slot_lt, h.ready]
  · rw [Live, Live, h.other t ht]
    simp [ht]

theorem Spawned.base_slot (h : Spawned k trampoline entry slot k') :
    L.base k' slot = k.heap.base + k.heap.ptr := by
  rw [Layout.base, if_neg h.slot_pos, h.base]

theorem Spawned.top_slot (h : Spawned k trampoline entry slot k') :
    L.top k' slot = k.heap.base + k.heap.ptr + taskStackSize := by
  rw [Layout.top, if_neg h.slot_pos, h.base]

theorem Spawned.base_of_ne (h : Spawned k trampoline entry slot k') (ht : t ≠ slot) :
    L.base k' t = L.base k t := by
  rw [Layout.base, Layout.base, h.other t ht]

theorem Spawned.top_of_ne (h : Spawned k trampoline entry slot k') (ht : t ≠ slot) :
    L.top k' t = L.top k t := by
  rw [Layout.top, Layout.top, h.other t ht]

/-- The new stack is clear of every other one. -/
theorem Sane.apart (hs : Sane L k) (h : Spawned k trampoline entry slot k') (ht : Live k t) :
    L.top k t ≤ k.heap.base + k.heap.ptr ∨
      k.heap.base + k.heap.ptr + taskStackSize ≤ L.base k t := by
  by_cases h0 : t = 0
  · have h₁ := L.disjoint
    have h₂ := hs.heap_base
    have h₃ := h.heap_ptr
    have h₄ := h.heap_le
    rw [Layout.base, Layout.top, if_pos h0, if_pos h0]
    omega
  · have h₁ := hs.inHeap t ht h0
    have h₂ := hs.heap_base
    left
    omega

theorem Sane.spawned (hs : Sane L k) (h : Spawned k trampoline entry slot k') : Sane L k' := by
  have hc : k.current ≠ slot := by
    rintro rfl
    have hcur := hs.current_state
    rw [h.unused] at hcur
    simp at hcur
  constructor
  · rw [h.current]
    exact hs.current_lt
  · rw [h.current, h.other _ hc]
    exact hs.current_state
  · intro t ht hr
    by_cases hts : t = slot
    · rw [hts, h.ready] at hr
      cases hr
    · rw [h.other t hts] at hr
      rw [h.current]
      exact hs.running t ht hr
  · rw [h.other 0 (Ne.symm h.slot_pos)]
    exact hs.main
  · rw [h.heap_base]
    exact hs.heap_base
  · exact h.heap_le
  · intro t ht h0
    have h₁ := h.heap_ptr
    have h₂ := hs.heap_base
    by_cases hts : t = slot
    · rw [hts, h.base_slot, h.top_slot]
      omega
    · have h₃ := hs.inHeap t ((h.live_iff.mp ht).resolve_left hts) h0
      rw [h.base_of_ne hts, h.top_of_ne hts]
      omega
  · intro t u ht hu hne
    by_cases hts : t = slot
    · have hus : u ≠ slot := fun heq => hne (hts.trans heq.symm)
      have := hs.apart h ((h.live_iff.mp hu).resolve_left hus)
      rw [hts, h.base_slot, h.top_slot, h.base_of_ne hus, h.top_of_ne hus]
      omega
    · have hlive := (h.live_iff.mp ht).resolve_left hts
      by_cases hus : u = slot
      · have := hs.apart h hlive
        rw [hus, h.base_slot, h.top_slot, h.base_of_ne hts, h.top_of_ne hts]
        omega
      · rw [h.base_of_ne hts, h.top_of_ne hts, h.base_of_ne hus, h.top_of_ne hus]
        exact hs.disjoint t u hlive ((h.live_iff.mp hu).resolve_left hus) hne

/-- The frame that `sched_spawn` builds is a saved context. -/
theorem Spawned.saved (h : Spawned k trampoline entry slot k') (hL : k.heap.base = L.heapBase) :
    Saved L k' (Function.update ctx slot
      (firstContext trampoline entry (k'.tasks slot).stackBase)) slot := by
  have hbase := h.base
  have hesp := h.esp
  have hroom : 52 ≤ taskStackSize := by decide
  have hfirst : (firstContext trampoline entry (k'.tasks slot).stackBase).esp.toNat =
      k.heap.base + k.heap.ptr + taskStackSize := by
    have h₁ := h.heap_ptr
    have h₂ := h.heap_le
    have h₃ := L.heap_lt
    have hsize : (UInt32.ofNat taskStackSize).toNat = taskStackSize := by decide
    rw [firstContext, UInt32.toNat_add, hbase, hsize]
    exact Nat.mod_eq_of_lt (by omega)
  constructor
  · rw [h.base_slot]
    omega
  · rw [Function.update_self, hfirst]
    exact hesp.symm
  · rw [Function.update_self, hfirst]
    exact Nat.le_of_eq h.top_slot.symm
  · rw [Function.update_self]
    exact ⟨0, h.frame⟩

theorem Inv.spawned (hi : Inv L k ctx) (h : Spawned k trampoline entry slot k') :
    Inv L k' (Function.update ctx slot
      (firstContext trampoline entry (k'.tasks slot).stackBase)) := by
  have hsane := hi.toSane.spawned h
  have hc : k.current ≠ slot := by
    rintro rfl
    have hcur := hi.current_state
    rw [h.unused] at hcur
    simp at hcur
  refine ⟨hsane, ?_, fun t ht htc hr => ?_⟩
  · rw [h.current, h.regs]
    refine ⟨h.live_iff.mpr (Or.inr hi.live_current), ?_, ?_⟩
    · rw [h.base_of_ne hc]
      exact hi.onStack.base
    · rw [h.top_of_ne hc]
      exact hi.onStack.top
  · by_cases hts : t = slot
    · rw [hts]
      exact h.saved hi.heap_base
    · rw [h.current] at htc
      rw [h.other t hts] at hr
      have hsaved := hi.saved t ht htc hr
      have hapart := hi.toSane.apart h (live_of_ready ht hr)
      have h₁ := hsaved.base
      have h₂ := hsaved.esp
      have h₃ := hsaved.top
      obtain ⟨snap, hframe⟩ := hsaved.frame
      constructor
      · rw [h.base_of_ne hts, h.other t hts]
        exact h₁
      · rw [h.other t hts, Function.update_of_ne hts]
        exact h₂
      · rw [Function.update_of_ne hts, h.top_of_ne hts]
        exact h₃
      · rw [h.other t hts, Function.update_of_ne hts]
        refine ⟨snap, hframe.congr fun i hlo hhi => h.mem i ?_⟩
        have hlen : ((ctx t).frame snap).length = 13 := rfl
        omega

end Spawned

theorem Layout.OnStack.eq_current {esp : UInt32} (h : Inv L k ctx)
    (hesp : k.cpu.regs.esp = esp) (ht : L.OnStack k t esp) : t = k.current := by
  by_contra hne
  have h₁ := h.disjoint t k.current ht.live h.live_current hne
  have h₂ := ht.base
  have h₃ := ht.top
  have h₄ := h.onStack.base
  have h₅ := h.onStack.top
  rw [hesp] at h₄ h₅
  omega

/-- Only a spawned task exits. -/
theorem Inv.taskExit (h : Inv L k ctx) (h0 : t ≠ 0) (ht : L.OnStack k t k.cpu.regs.esp) :
    Inv L (taskExit k) ctx := by
  obtain rfl := ht.eq_current h rfl
  have hother : ∀ u, u ≠ k.current → ((taskExit k).tasks u) = k.tasks u := fun u hu =>
    Function.update_of_ne hu ..
  have hself : ((taskExit k).tasks k.current).state = .zombie := setState_state_self
  have hsame : SameStacks k (taskExit k) := by
    refine ⟨fun _ => setState_stackBase, fun u => ?_, rfl⟩
    by_cases hu : u = k.current
    · have hlive := h.live_current.2.resolve_left h0
      rw [hu, hself]
      simp [hlive]
    · rw [hother u hu]
  have hsane : Sane L (taskExit k) := by
    apply h.toSane.congr hsame h.current_lt
    · exact Or.inr hself
    · intro u hu hr
      by_contra huc
      replace huc : u ≠ k.current := huc
      rw [hother u huc] at hr
      exact huc (h.running u hu hr)
    · rw [hother 0 (Ne.symm h0)]
      exact h.main
  refine ⟨hsane, ?_, fun u hu huc hr => ?_⟩
  · refine ⟨hsame.live_iff.mpr h.live_current, ?_, ?_⟩
    · rw [hsame.base_eq]
      exact h.onStack.base
    · rw [hsame.top_eq]
      exact h.onStack.top
  · replace huc : u ≠ k.current := huc
    rw [hother u huc] at hr
    exact (h.saved u hu huc hr).congr hsame setState_esp rfl fun _ _ _ => rfl

/-- A task changes its registers and its own stack. -/
theorem Inv.run {regs : Regs} {mem : Mem} (h : Inv L k ctx)
    (hold : L.OnStack k t k.cpu.regs.esp) (hnew : L.OnStack k t regs.esp)
    (hmem : ∀ i, i < L.base k t ∨ L.top k t ≤ i → mem i = k.cpu.mem i) :
    Inv L { k with cpu := ⟨regs, mem⟩ } ctx := by
  obtain rfl := hold.eq_current h rfl
  have hsame : SameStacks k { k with cpu := ⟨regs, mem⟩ } :=
    ⟨fun _ => rfl, fun _ => Iff.rfl, rfl⟩
  refine ⟨h.toSane.congr hsame h.current_lt h.current_state h.running h.main, ?_,
    fun u hu huc hr => ?_⟩
  · exact ⟨hnew.live, hnew.base, hnew.top⟩
  · have hsaved := h.saved u hu huc hr
    have hd := h.disjoint u k.current (live_of_ready hu hr) h.live_current huc
    have h₁ := hsaved.base
    have h₂ := hsaved.top
    refine hsaved.congr hsame rfl rfl fun i hlo hhi => hmem i ?_
    omega

variable {last : Nat → Regs}

/-- A handler is entered: the current task stops with its registers as they are. -/
def noteStop (k : Kernel) (last : Nat → Regs) : Nat → Regs :=
  Function.update last k.current k.cpu.regs

/-- `sched_spawn` returned `r.1`: a new task is to start with its first context. -/
def noteSpawn (trampoline entry : UInt32) (r : Int × Kernel) (last : Nat → Regs) : Nat → Regs :=
  if r.1 < 0 then last
  else Function.update last r.1.toNat
    (firstContext trampoline entry (r.2.tasks r.1.toNat).stackBase)

/-- The kernels that a run passes through between handlers, with the context in
which each task was last stopped or is to start. A task is known by the stack
that it runs on. -/
inductive Reachable (L : Layout) : Kernel → (Nat → Regs) → Prop
  | start (k : Kernel) (last : Nat → Regs) (hbase : k.heap.base = L.heapBase)
      (hptr : k.heap.ptr ≤ heapSize) (hesp : L.OnStack (schedInit k) 0 k.cpu.regs.esp) :
      Reachable L (schedInit k) last
  | run {k : Kernel} {last : Nat → Regs} (t : Nat) (regs : Regs) (mem : Mem)
      (h : Reachable L k last) (hold : L.OnStack k t k.cpu.regs.esp)
      (hnew : L.OnStack k t regs.esp)
      (hmem : ∀ i, i < L.base k t ∨ L.top k t ≤ i → mem i = k.cpu.mem i) :
      Reachable L { k with cpu := ⟨regs, mem⟩ } last
  | spawn {k : Kernel} {last : Nat → Regs} (entry : UInt32) (name : Option String)
      (h : Reachable L k last) :
      Reachable L (schedSpawn L.trampoline k entry name).2
        (noteSpawn L.trampoline entry (schedSpawn L.trampoline k entry name) last)
  | timer {k : Kernel} {last : Nat → Regs} (h : Reachable L k last) :
      Reachable L (irq0Handler k) (noteStop k last)
  | yield {k : Kernel} {last : Nat → Regs} (h : Reachable L k last) :
      Reachable L (yieldIntHandler k) (noteStop k last)
  | exit {k : Kernel} {last : Nat → Regs} (t : Nat) (h : Reachable L k last) (h0 : t ≠ 0)
      (ht : L.OnStack k t k.cpu.regs.esp) : Reachable L (taskExit k) last

theorem schedInit_state (ht : t < schedMaxTasks) :
    ((schedInit k).tasks t).state = if t = 0 then .running else .unused := by
  simp only [schedInit, if_pos ht]
  split
  · rfl
  · rfl

theorem inv_schedInit (hbase : k.heap.base = L.heapBase) (hptr : k.heap.ptr ≤ heapSize)
    (hesp : L.OnStack (schedInit k) 0 k.cpu.regs.esp) : Inv L (schedInit k) last := by
  have hlive : ∀ t, Live (schedInit k) t → t = 0 := by
    intro t ht
    by_contra h0
    have hst := ht.2.resolve_left h0
    rw [schedInit_state ht.1, if_neg h0] at hst
    exact hst rfl
  have hmain : ((schedInit k).tasks 0).state = .running := by
    rw [schedInit_state (by decide), if_pos rfl]
  have hsane : Sane L (schedInit k) := by
    constructor
    · exact Nat.succ_pos 3
    · exact Or.inl hmain
    · intro t ht hr
      by_contra h0
      replace h0 : t ≠ 0 := h0
      rw [schedInit_state ht, if_neg h0] at hr
      cases hr
    · exact Or.inr hmain
    · exact hbase
    · exact hptr
    · exact fun t ht h0 => absurd (hlive t ht) h0
    · exact fun t u ht hu hne => absurd ((hlive t ht).trans (hlive u hu).symm) hne
  refine ⟨hsane, hesp, fun t ht h0 hr => ?_⟩
  replace h0 : t ≠ 0 := h0
  rw [schedInit_state ht, if_neg h0] at hr
  cases hr

/-- The invariant holds at every point of a run. -/
theorem Reachable.inv (h : Reachable L k last) : Inv L k last := by
  induction h with
  | start k last hbase hptr hesp => exact inv_schedInit hbase hptr hesp
  | run t regs mem _ hold hnew hmem ih => exact ih.run hold hnew hmem
  | @spawn k last entry name _ ih =>
      have hheap : k.heap.base + heapSize < 4294967296 := by
        rw [ih.heap_base]
        exact L.heap_lt
      rcases @schedSpawn_spec _ entry name L.trampoline ih.heap_ptr hheap
        with hfail | ⟨slot, k', heq, hspawned⟩
      · rw [hfail]
        exact ih
      · rw [heq]
        exact ih.spawned hspawned
  | timer _ ih => exact ih.irq0Handler.inv
  | yield _ ih => exact ih.yieldIntHandler.inv
  | exit t _ h0 ht ih => exact ih.taskExit h0 ht

/-- Context switches are invisible: at any point of a run, either handler
resumes a task exactly as it was last stopped or is to start, and switches to
ready tasks only; the current task is the only one that may be running. -/
theorem Reachable.switch_invisible (h : Reachable L k last) :
    (∀ k', k' = irq0Handler k ∨ k' = yieldIntHandler k →
      k'.cpu.regs = noteStop k last k'.current ∧
        (k'.current ≠ k.current → (k.tasks k'.current).state = .ready)) ∧
      (∀ t < schedMaxTasks, (k.tasks t).state = .running → t = k.current) ∧
      ((k.tasks k.current).state = .running ∨ (k.tasks k.current).state = .zombie) ∧
      (k.tasks 0).state ≠ .zombie := by
  have hinv := h.inv
  refine ⟨fun k' hk' => ?_, hinv.running, hinv.current_state, ?_⟩
  · have hres : Resumes L k last k' := by
      rcases hk' with rfl | rfl
      · exact hinv.irq0Handler
      · exact hinv.yieldIntHandler
    exact ⟨hres.regs, hres.chosen.resolve_left⟩
  · rcases hinv.main with hr | hr
    · simp [hr]
    · simp [hr]

/-- A kernel as it may be when the scheduler starts. -/
def bootLayout : Layout where
  trampoline := 0x101000
  bootBase := 0x80000
  bootTop := 0x90000
  heapBase := 0x200000
  boot_lt := by decide
  heap_lt := by decide
  disjoint := by decide

def bootKernel : Kernel where
  cpu := ⟨{ firstContext 0 0 0 with esp := 0x8ff00 }, fun _ => 0⟩
  heap := ⟨0x200000, 0⟩
  tasks := fun i => ⟨0, .unused, 0, i, none, 0⟩
  current := 0
  tickCount := 0
  ntasks := 0
  msTicks := 0

theorem bootKernel_onStack :
    bootLayout.OnStack (schedInit bootKernel) 0 bootKernel.cpu.regs.esp := by
  refine ⟨⟨by decide, Or.inl rfl⟩, ?_, ?_⟩
  · decide
  · decide

theorem switch_invisible_boot :
    let k := (schedSpawn 0x101000 (schedInit bootKernel) 0x102000 (some "shell")).2
    (yieldIntHandler k).cpu.regs =
        noteStop k (noteSpawn 0x101000 0x102000
          (schedSpawn 0x101000 (schedInit bootKernel) 0x102000 (some "shell"))
          fun _ => firstContext 0 0 0) (yieldIntHandler k).current ∧
      (k.tasks 0).state ≠ .zombie := by
  have h := (Reachable.spawn 0x102000 (some "shell")
    (Reachable.start (L := bootLayout) bootKernel (fun _ => firstContext 0 0 0) rfl (by decide)
      bootKernel_onStack)).switch_invisible
  exact ⟨(h.1 _ (Or.inr rfl)).1, h.2.2.2⟩

end Chimaera.Proc
