/-
The round-robin scheduler: four task slots, and the timer and yield handlers
that switch between their stacks.
-/
import Chimaera.Mm
import Chimaera.Proc.Cpu
import Mathlib.Logic.Function.Basic

namespace Chimaera.Proc

def schedMaxTasks : Nat := 4
def taskStackSize : Nat := 16 * 1024

/-- `task_state_t` -/
inductive TaskState where
  | unused
  | ready
  | running
  | zombie
  deriving DecidableEq, Repr

/-- `task_t` -/
structure Task where
  esp : UInt32
  state : TaskState
  stackBase : UInt32
  id : Nat
  name : Option String
  ticks : UInt32

structure Kernel where
  cpu : Cpu
  heap : Heap
  tasks : Nat → Task
  current : Nat
  tickCount : UInt32
  ntasks : UInt32
  msTicks : UInt32

namespace Kernel

variable (k : Kernel)

def setTask (i : Nat) (t : Task) : Kernel := { k with tasks := Function.update k.tasks i t }

def setState (i : Nat) (st : TaskState) : Kernel :=
  k.setTask i { k.tasks i with state := st }

end Kernel

def schedInit (k : Kernel) : Kernel :=
  { k with
    tasks := fun i =>
      if i < schedMaxTasks then
        if i = 0 then ⟨0, .running, 0, i, some "main", 0⟩ else ⟨0, .unused, 0, i, none, 0⟩
      else k.tasks i
    current := 0
    ntasks := 1 }

/-- The words that `sched_spawn` stores, from the top of the stack down. -/
def spawnFrame (trampoline entry : UInt32) : List UInt32 :=
  [0x202, 0x10, trampoline, 0, 0, 0, entry, 0, 0, 0, 0, 0x18, 0x18]

/-- `sched_spawn`: the slot of the new task, or -1. -/
def schedSpawn (trampoline : UInt32) (k : Kernel) (entry : UInt32) (name : Option String) :
    Int × Kernel :=
  match (List.range' 1 (schedMaxTasks - 1)).find? fun i => (k.tasks i).state == .unused with
  | none => (-1, k)
  | some slot =>
    match kmalloc k.heap k.cpu.mem taskStackSize with
    | (none, _, _) => (-1, k)
    | (some stack, heap, mem) =>
      let sp := pushWords (UInt32.ofNat (stack + taskStackSize), mem) (spawnFrame trampoline entry)
      (slot, { k.setTask slot ⟨sp.1, .ready, UInt32.ofNat stack, slot, name, 0⟩ with
        cpu := { k.cpu with mem := sp.2 }
        heap := heap
        ntasks := k.ntasks + 1 })

/-- `task_trampoline_c` once the entry function has returned. -/
def taskExit (k : Kernel) : Kernel := k.setState k.current .zombie

/-- The first instructions of both handlers: save the context, load the kernel
data segment and note the stack pointer. The other registers that they use are
all overwritten by `popa`. -/
def enterHandler (k : Kernel) : Kernel :=
  let cpu := k.cpu.save
  let cpu := { cpu with regs := { cpu.regs with ds := 0x18, es := 0x18 } }
  { k with cpu := cpu }.setTask k.current { k.tasks k.current with esp := cpu.regs.esp }

/-- The scan loop: the slots after the current one, up to the one before it. -/
def scanReady (k : Kernel) : Option Nat :=
  ([1, 2, 3].map fun d => (k.current + d) &&& 3).find? fun i => (k.tasks i).state == .ready

/-- Make `next` the running task and load its stack pointer. -/
def switchTo (k : Kernel) (next : Nat) : Kernel :=
  let k :=
    if (k.tasks k.current).state = .running then k.setState k.current .ready else k
  let k := k.setState next .running
  { k with
    current := next
    cpu := { k.cpu with regs := { k.cpu.regs with esp := (k.tasks next).esp } } }

/-- `pop es`, `pop ds`, `popa`, `iret`. -/
def leaveHandler (k : Kernel) : Kernel := { k with cpu := k.cpu.restore }

def irq0Handler (k : Kernel) : Kernel :=
  let k := enterHandler k
  let k := { k.setTask k.current
      { k.tasks k.current with ticks := (k.tasks k.current).ticks + 1 } with
    tickCount := k.tickCount + 1
    msTicks := k.msTicks + 10 }
  -- a signed comparison, as `jl` makes it
  if k.tickCount.toInt32 < 5 then leaveHandler k
  else
    let k := { k with tickCount := 0 }
    match scanReady k with
    | none => leaveHandler k
    | some next => leaveHandler (switchTo k next)

def yieldIntHandler (k : Kernel) : Kernel :=
  let k := enterHandler k
  match scanReady k with
  | none => leaveHandler k
  | some next => leaveHandler { switchTo k next with tickCount := 0 }

end Chimaera.Proc
