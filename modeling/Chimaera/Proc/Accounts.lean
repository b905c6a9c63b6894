/-
What the task table records over a run: the interrupts that each task was charged
with, how many slots are taken, and that no slot is ever used twice.
-/
import Chimaera.Proc.Fairness
import Mathlib.Data.Finset.Card
import Mathlib.Algebra.BigOperators.Group.Finset.Piecewise

namespace Chimaera.Proc

variable {k k' k₀ : Kernel} {t i next : Nat} {trampoline : UInt32} {st : TaskState}

/-- How far a slot has come: unused, used by a task, and the task has exited. -/
def TaskState.stage : TaskState → Nat
  | .unused => 0
  | .ready => 1
  | .running => 1
  | .zombie => 2

def Task.identity (t : Task) : UInt32 × Nat × Option String := (t.stackBase, t.id, t.name)

/-- The slots that `sched_spawn` does not take. -/
def usedSlots (k : Kernel) : Finset Nat :=
  {t ∈ Finset.range schedMaxTasks | (k.tasks t).state ≠ .unused}

/-- The test of `sched_start` before it gives up the processor. -/
def allDone (k : Kernel) : Bool :=
  (List.range' 1 (schedMaxTasks - 1)).all fun i =>
    !((k.tasks i).state == .ready || (k.tasks i).state == .running)

/-- The timer interrupts that find the task current. -/
def charged (trampoline : UInt32) (t : Nat) (k : Kernel) : List Event → Nat
  | [] => 0
  | ev :: evs => (if ev.isTimer ∧ t = k.current then 1 else 0) +
      charged trampoline t (ev.step trampoline k) evs

section Fields

variable {α : Type} {f : Task → α}

theorem leaveHandler_tasks : (leaveHandler k).tasks = k.tasks := rfl

theorem setState_field (hf : ∀ (t : Task) st, f { t with state := st } = f t) :
    f ((k.setState i st).tasks t) = f (k.tasks t) := by
  by_cases h : t = i
  · subst h
    simp [Kernel.setState, Kernel.setTask, hf]
  · simp [Kernel.setState, Kernel.setTask, h]

theorem switchTo_field (hf : ∀ (t : Task) st, f { t with state := st } = f t) :
    f ((switchTo k next).tasks t) = f (k.tasks t) := by
  unfold switchTo
  split
  · exact (setState_field hf).trans (setState_field hf)
  · exact setState_field hf

theorem enterHandler_field (hf : ∀ (t : Task) esp, f { t with esp := esp } = f t) :
    f ((enterHandler k).tasks t) = f (k.tasks t) := by
  rw [enterHandler_tasks]
  by_cases h : t = k.current
  · rw [h, Function.update_self, hf]
  · rw [Function.update_of_ne h]

/-- Fields that only the counters change are as after the counters. -/
theorem irq0Handler_field (hs : ∀ (t : Task) st, f { t with state := st } = f t) :
    f ((irq0Handler k).tasks t) = f ((tick (enterHandler k)).tasks t) := by
  rw [irq0Handler_eq]
  generalize tick (enterHandler k) = e
  split
  · rfl
  · split
    · rfl
    · rw [leaveHandler_tasks]
      exact switchTo_field hs

theorem yieldIntHandler_field (hs : ∀ (t : Task) st, f { t with state := st } = f t)
    (he : ∀ (t : Task) esp, f { t with esp := esp } = f t) :
    f ((yieldIntHandler k).tasks t) = f (k.tasks t) := by
  refine Eq.trans ?_ (enterHandler_field he)
  unfold yieldIntHandler
  generalize enterHandler k = e
  dsimp only
  split
  · rfl
  · rw [leaveHandler_tasks]
    exact switchTo_field hs

end Fields

theorem irq0Handler_ticks : ((irq0Handler k).tasks t).ticks =
    (k.tasks t).ticks + if t = k.current then 1 else 0 := by
  have henter : ((enterHandler k).tasks t).ticks = (k.tasks t).ticks :=
    enterHandler_field fun _ _ => rfl
  rw [irq0Handler_field (f := Task.ticks) fun _ _ => rfl, ← henter]
  by_cases h : t = k.current
  · simp [tick, Kernel.setTask, h]
  · simp [tick, Kernel.setTask, h]

theorem irq0Handler_identity : ((irq0Handler k).tasks t).identity = (k.tasks t).identity := by
  have henter : ((enterHandler k).tasks t).identity = (k.tasks t).identity :=
    enterHandler_field fun _ _ => rfl
  rw [irq0Handler_field (f := Task.identity) fun _ _ => rfl, ← henter]
  by_cases h : t = k.current
  · simp [tick, Kernel.setTask, h, Task.identity]
  · simp [tick, Kernel.setTask, h]

theorem setState_stage (h : st.stage = (k.tasks i).state.stage) :
    ((k.setState i st).tasks t).state.stage = (k.tasks t).state.stage := by
  by_cases ht : t = i
  · rw [ht, setState_state_self, h]
  · rw [setState_state_of_ne ht]

/-- A switch to a ready task moves no task to another stage. -/
theorem switchTo_stage (hr : (k.tasks next).state = .ready) :
    ((switchTo k next).tasks t).state.stage = (k.tasks t).state.stage := by
  unfold switchTo
  split
  · next hrun =>
    have hfirst : ∀ u, ((k.setState k.current .ready).tasks u).state.stage =
        (k.tasks u).state.stage := fun u => setState_stage (by rw [hrun]; rfl)
    refine (setState_stage ?_).trans (hfirst t)
    rw [hfirst, hr]
    rfl
  · exact setState_stage (by rw [hr]; rfl)

theorem scanReady_ready (h : scanReady k = some next) : (k.tasks next).state = .ready := by
  simpa using List.find?_some h

theorem irq0Handler_stage :
    ((irq0Handler k).tasks t).state.stage = (k.tasks t).state.stage := by
  have htick : ((tick (enterHandler k)).tasks t).state = (k.tasks t).state :=
    tick_state.trans enterHandler_state
  rw [irq0Handler_eq, ← htick]
  generalize tick (enterHandler k) = e
  split
  · rfl
  · split
    · rfl
    · next hscan =>
      rw [leaveHandler_tasks]
      exact switchTo_stage (scanReady_ready hscan)

theorem yieldIntHandler_stage :
    ((yieldIntHandler k).tasks t).state.stage = (k.tasks t).state.stage := by
  have henter : ((enterHandler k).tasks t).state = (k.tasks t).state := enterHandler_state
  rw [← henter]
  unfold yieldIntHandler
  generalize enterHandler k = e
  dsimp only
  split
  · rfl
  · next hscan =>
    rw [leaveHandler_tasks]
    exact switchTo_stage (scanReady_ready hscan)

/-- The table agrees with what has happened: `paid t` interrupts were charged to task `t`. -/
structure Accounted (k : Kernel) (paid : Nat → Nat) : Prop where
  ticks : ∀ t < schedMaxTasks, (k.tasks t).ticks = UInt32.ofNat (paid t)
  unused : ∀ t < schedMaxTasks, (k.tasks t).state = .unused → paid t = 0
  ntasks : k.ntasks = UInt32.ofNat (usedSlots k).card

/-- What one event may do to a slot: a task keeps its identity, and no stage is left for
an earlier one. -/
structure Advances (k k' : Kernel) : Prop where
  stage : ∀ t, (k.tasks t).state.stage ≤ (k'.tasks t).state.stage
  identity : ∀ t, (k.tasks t).state ≠ .unused → (k'.tasks t).identity = (k.tasks t).identity

theorem stage_ne_zero : st.stage ≠ 0 ↔ st ≠ .unused := by
  cases st <;> decide

theorem mem_usedSlots : t ∈ usedSlots k ↔ t < schedMaxTasks ∧ (k.tasks t).state ≠ .unused := by
  rw [usedSlots, Finset.mem_filter, Finset.mem_range]

theorem usedSlots_congr (h : ∀ t, (k'.tasks t).state ≠ .unused ↔ (k.tasks t).state ≠ .unused) :
    usedSlots k' = usedSlots k := by
  ext t
  rw [mem_usedSlots, mem_usedSlots, h]

/-- A spawn does nothing, or it takes a slot that is unused. -/
theorem schedSpawn_inv (trampoline : UInt32) (k : Kernel) (entry : UInt32)
    (name : Option String) :
    (schedSpawn trampoline k entry name).2 = k ∨
    ∃ slot task, slot < schedMaxTasks ∧ (k.tasks slot).state = .unused ∧ task.state = .ready ∧
      task.ticks = 0 ∧
      (schedSpawn trampoline k entry name).2.tasks = Function.update k.tasks slot task ∧
      (schedSpawn trampoline k entry name).2.ntasks = k.ntasks + 1 := by
  unfold schedSpawn
  split
  · exact Or.inl rfl
  · next slot hfind =>
    have hunused : (k.tasks slot).state = .unused := by simpa using List.find?_some hfind
    have hlt : slot < schedMaxTasks := by
      have hmem := List.mem_range'_1.mp (List.mem_of_find?_eq_some hfind)
      unfold schedMaxTasks at *
      omega
    split
    · exact Or.inl rfl
    · exact Or.inr ⟨slot, _, hlt, hunused, rfl, rfl, rfl, rfl⟩

theorem switchTo_ntasks : (switchTo k next).ntasks = k.ntasks := by
  unfold switchTo
  split
  · rfl
  · rfl

theorem leaveHandler_ntasks : (leaveHandler k).ntasks = k.ntasks := rfl

theorem irq0Handler_ntasks : (irq0Handler k).ntasks = k.ntasks := by
  have htick : (tick (enterHandler k)).ntasks = k.ntasks := rfl
  rw [irq0Handler_eq, ← htick]
  generalize tick (enterHandler k) = e
  split
  · rfl
  · split
    · rfl
    · rw [leaveHandler_ntasks, switchTo_ntasks]

theorem yieldIntHandler_ntasks : (yieldIntHandler k).ntasks = k.ntasks := by
  have henter : (enterHandler k).ntasks = k.ntasks := rfl
  rw [← henter]
  unfold yieldIntHandler
  generalize enterHandler k = e
  dsimp only
  split
  · rfl
  · next next _ =>
    rw [leaveHandler_ntasks]
    exact @switchTo_ntasks e next

theorem advances_step (trampoline : UInt32) (k : Kernel) (ev : Event) :
    Advances k (ev.step trampoline k) := by
  cases ev with
  | run cpu heap => exact ⟨fun _ => Nat.le_refl _, fun _ _ => rfl⟩
  | spawn entry name =>
      change Advances k (schedSpawn trampoline k entry name).2
      rcases schedSpawn_inv trampoline k entry name with
        h | ⟨slot, task, -, hunused, -, -, htasks, -⟩
      · rw [h]
        exact ⟨fun _ => Nat.le_refl _, fun _ _ => rfl⟩
      · refine ⟨fun t => ?_, fun t ht => ?_⟩
        · by_cases hslot : t = slot
          · rw [hslot, hunused]
            exact Nat.zero_le _
          · rw [htasks, Function.update_of_ne hslot]
        · rw [htasks, Function.update_of_ne]
          rintro rfl
          exact ht hunused
  | timer => exact ⟨fun _ => Nat.le_of_eq irq0Handler_stage.symm, fun _ _ => irq0Handler_identity⟩
  | yield =>
      exact ⟨fun _ => Nat.le_of_eq yieldIntHandler_stage.symm,
        fun _ _ => yieldIntHandler_field (fun _ _ => rfl) fun _ _ => rfl⟩
  | exit =>
      refine ⟨fun t => ?_, fun t _ => setState_field fun _ _ => rfl⟩
      change _ ≤ ((k.setState k.current .zombie).tasks t).state.stage
      by_cases ht : t = k.current
      · rw [ht, setState_state_self]
        cases (k.tasks k.current).state <;> decide
      · rw [setState_state_of_ne ht]

theorem Advances.trans {e : Kernel} (h : Advances k k') (h' : Advances k' e) : Advances k e := by
  refine ⟨fun t => (h.stage t).trans (h'.stage t), fun t ht => ?_⟩
  have hused : (k'.tasks t).state ≠ .unused := by
    have hstage := h.stage t
    rw [← stage_ne_zero] at ht ⊢
    omega
  exact (h'.identity t hused).trans (h.identity t ht)

theorem advances_runEvents (trampoline : UInt32) (k : Kernel) (evs : List Event) :
    Advances k (runEvents trampoline k evs) := by
  induction evs generalizing k with
  | nil => exact ⟨fun _ => Nat.le_refl _, fun _ _ => rfl⟩
  | cons ev evs ih => exact (advances_step trampoline k ev).trans (ih _)

/-- The interrupts that each task has been charged with after one more event. -/
def pay (k : Kernel) (ev : Event) (paid : Nat → Nat) (t : Nat) : Nat :=
  paid t + if ev.isTimer ∧ t = k.current then 1 else 0

theorem Accounted.same {paid : Nat → Nat} (h : Accounted k paid)
    (hstage : ∀ t, (k'.tasks t).state ≠ .unused ↔ (k.tasks t).state ≠ .unused)
    (hticks : ∀ t, (k'.tasks t).ticks = (k.tasks t).ticks) (hntasks : k'.ntasks = k.ntasks) :
    Accounted k' paid := by
  refine ⟨fun t ht => ?_, fun t ht hu => ?_, ?_⟩
  · rw [hticks, h.ticks t ht]
  · exact h.unused t ht (not_not.mp ((not_congr (hstage t)).mp (not_not.mpr hu)))
  · rw [hntasks, usedSlots_congr hstage, h.ntasks]

theorem Accounted.spawn {paid : Nat → Nat} (h : Accounted k paid) (entry : UInt32)
    (name : Option String) : Accounted (schedSpawn trampoline k entry name).2 paid := by
  rcases schedSpawn_inv trampoline k entry name with
    heq | ⟨slot, task, hlt, hunused, hready, hticks, htasks, hntasks⟩
  · rw [heq]
    exact h
  generalize (schedSpawn trampoline k entry name).2 = k' at htasks hntasks
  have hother : ∀ t, t ≠ slot → k'.tasks t = k.tasks t := fun t ht => by
    rw [htasks, Function.update_of_ne ht]
  have hself : k'.tasks slot = task := by rw [htasks, Function.update_self]
  have hused : usedSlots k' = insert slot (usedSlots k) := by
    ext t
    rw [Finset.mem_insert, mem_usedSlots, mem_usedSlots]
    by_cases ht : t = slot
    · simp [ht, hself, hready, hlt]
    · simp [ht, hother t ht]
  have hnew : slot ∉ usedSlots k := fun hmem => (mem_usedSlots.mp hmem).2 hunused
  refine ⟨fun t ht => ?_, fun t ht hu => ?_, ?_⟩
  · by_cases hslot : t = slot
    · rw [hslot, hself, hticks, h.unused slot hlt hunused]
      rfl
    · rw [hother t hslot, h.ticks t ht]
  · have hslot : t ≠ slot := by
      rintro rfl
      rw [hself, hready] at hu
      cases hu
    rw [hother t hslot] at hu
    exact h.unused t ht hu
  · rw [hntasks, h.ntasks, hused, Finset.card_insert_of_notMem hnew, UInt32.ofNat_add]
    rfl

theorem Accounted.step {paid : Nat → Nat} (h : Accounted k paid) (ho : Orderly k) (ev : Event) :
    Accounted (ev.step trampoline k) (pay k ev paid) := by
  have hpay : ev.isTimer = false → pay k ev paid = paid := fun hev => by
    funext t
    simp [pay, hev]
  cases ev with
  | run cpu heap =>
      rw [hpay rfl]
      exact h.same (fun _ => Iff.rfl) (fun _ => rfl) rfl
  | spawn entry name =>
      rw [hpay rfl]
      exact h.spawn entry name
  | timer =>
      have hused : ∀ t, ((irq0Handler k).tasks t).state ≠ .unused ↔
          (k.tasks t).state ≠ .unused := fun t => by
        rw [← stage_ne_zero, irq0Handler_stage, stage_ne_zero]
      refine ⟨fun t ht => ?_, fun t ht hu => ?_, ?_⟩
      · change ((irq0Handler k).tasks t).ticks = UInt32.ofNat (pay k .timer paid t)
        rw [irq0Handler_ticks, h.ticks t ht, pay, UInt32.ofNat_add]
        by_cases hc : t = k.current
        · rw [if_pos hc, if_pos ⟨rfl, hc⟩]
          rfl
        · rw [if_neg hc, if_neg fun hand => hc hand.2]
          rfl
      · have hu' : (k.tasks t).state = .unused := by
          by_contra hne
          exact (hused t).mpr hne hu
        have hc : t ≠ k.current := by
          rintro rfl
          exact ho.current_ne_unused hu'
        rw [pay, h.unused t ht hu', if_neg fun hand => hc hand.2]
      · change (irq0Handler k).ntasks = UInt32.ofNat (usedSlots (irq0Handler k)).card
        rw [irq0Handler_ntasks, usedSlots_congr hused, h.ntasks]
  | yield =>
      rw [hpay rfl]
      refine h.same (fun t => ?_) (fun t => ?_) yieldIntHandler_ntasks
      · change ((yieldIntHandler k).tasks t).state ≠ .unused ↔ _
        rw [← stage_ne_zero, yieldIntHandler_stage, stage_ne_zero]
      · exact yieldIntHandler_field (f := Task.ticks) (fun _ _ => rfl) fun _ _ => rfl
  | exit =>
      rw [hpay rfl]
      refine h.same (fun t => ?_) (fun t => setState_field (f := Task.ticks) fun _ _ => rfl) rfl
      change ((k.setState k.current .zombie).tasks t).state ≠ .unused ↔ _
      by_cases ht : t = k.current
      · rw [ht, setState_state_self]
        exact iff_of_true (by decide) ho.current_ne_unused
      · rw [setState_state_of_ne ht]

theorem Accounted.runEvents {paid : Nat → Nat} (h : Accounted k paid) (ho : Orderly k)
    (evs : List Event) : Accounted (Proc.runEvents trampoline k evs)
      fun t => paid t + charged trampoline t k evs := by
  induction evs generalizing k paid with
  | nil => exact h
  | cons ev evs ih =>
      have hrest := ih (@Accounted.step k trampoline paid h ho ev) (ho.step ev)
      simp only [pay, Nat.add_assoc] at hrest
      exact hrest

theorem accounted_schedInit : Accounted (schedInit k) fun _ => 0 := by
  have hused : usedSlots (schedInit k) = {0} := by
    ext t
    rw [mem_usedSlots, Finset.mem_singleton]
    by_cases ht : t < schedMaxTasks
    · rw [schedInit_state ht]
      by_cases h0 : t = 0
      · simp [h0, schedMaxTasks]
      · simp [h0]
    · refine iff_of_false (fun h => ht h.1) ?_
      rintro rfl
      exact ht (by decide)
  refine ⟨fun t ht => ?_, fun _ _ _ => rfl, ?_⟩
  · simp only [schedInit, if_pos ht]
    split
    · rfl
    · rfl
  · rw [hused]
    rfl

/-- Every timer interrupt is charged to one task. -/
theorem sum_charged (ho : Orderly k) (evs : List Event) :
    ∑ t ∈ Finset.range schedMaxTasks, charged trampoline t k evs = timers evs := by
  induction evs generalizing k with
  | nil => exact Finset.sum_const_zero
  | cons ev evs ih =>
      simp only [charged]
      rw [Finset.sum_add_distrib, ih (ho.step ev), timers_cons, Nat.add_comm]
      refine congrArg _ ?_
      by_cases hev : ev.isTimer
      · simp only [hev, true_and]
        rw [Finset.sum_ite_eq', if_pos (Finset.mem_range.mpr ho.current_lt)]
        rfl
      · simp [hev]

/-- `sched_start` comes back once every task that was spawned has exited. -/
theorem allDone_iff :
    allDone k = true ↔ ∀ t ∈ usedSlots k, t ≠ 0 → (k.tasks t).state = .zombie := by
  simp only [allDone, List.all_eq_true, mem_usedSlots, List.mem_range'_1, Bool.not_eq_true',
    Bool.or_eq_false_iff, beq_eq_false_iff_ne]
  constructor
  · intro h t ht h0
    obtain ⟨hready, hrunning⟩ := h t (by omega)
    cases hst : (k.tasks t).state with
    | unused => exact absurd hst ht.2
    | ready => exact absurd hst hready
    | running => exact absurd hst hrunning
    | zombie => rfl
  · intro h t ht
    by_cases hu : (k.tasks t).state = .unused
    · rw [hu]
      exact ⟨by decide, by decide⟩
    · rw [h t ⟨by unfold schedMaxTasks at *; omega, hu⟩ (by omega)]
      exact ⟨by decide, by decide⟩

/-- At any time of any run the tick count of a task is the number of timer interrupts that
found it current, every timer interrupt is counted for one task, and the task count is the
number of slots taken.  Whatever happens from then on, no slot goes back to an earlier stage
or to another task; and `sched_start` ends when all tasks but the main one have exited. -/
theorem sched_accounts (h : Booting k₀) (evs later : List Event) :
    let k := runEvents trampoline (schedInit k₀) evs
    let k' := runEvents trampoline k later
    (∀ t < schedMaxTasks, (k.tasks t).ticks =
        UInt32.ofNat (charged trampoline t (schedInit k₀) evs)) ∧
      ∑ t ∈ Finset.range schedMaxTasks, charged trampoline t (schedInit k₀) evs = timers evs ∧
      k.ntasks.toNat = (usedSlots k).card ∧
      (∀ t, (k.tasks t).state.stage ≤ (k'.tasks t).state.stage ∧
        ((k.tasks t).state ≠ .unused → (k'.tasks t).identity = (k.tasks t).identity)) ∧
      (allDone k = true ↔ ∀ t ∈ usedSlots k, t ≠ 0 → (k.tasks t).state = .zombie) := by
  intro k k'
  have ho : Orderly (schedInit k₀) := @Scheduled.orderly _ trampoline ⟨k₀, [], h, rfl⟩
  have hacc := @Accounted.runEvents (schedInit k₀) trampoline _ accounted_schedInit ho evs
  have hadv : Advances k k' := advances_runEvents trampoline k later
  refine ⟨fun t ht => ?_, sum_charged ho evs, ?_, fun t => ⟨hadv.stage t, hadv.identity t⟩,
    allDone_iff⟩
  · rw [hacc.ticks t ht, Nat.zero_add]
  · have hle : (usedSlots k).card ≤ (Finset.range schedMaxTasks).card :=
      Finset.card_le_card (Finset.filter_subset _ _)
    rw [Finset.card_range] at hle
    unfold schedMaxTasks at hle
    rw [hacc.ntasks]
    change (usedSlots k).card % 4294967296 = _
    omega

theorem sched_accounts_boot :
    let evs := [.spawn 0x102000 (some "shell"), .timer, .yield, .timer, .exit]
    let k := runEvents 0x101000 (schedInit bootKernel) evs
    (k.tasks 1).ticks = UInt32.ofNat (charged 0x101000 1 (schedInit bootKernel) evs) ∧
      k.ntasks.toNat = (usedSlots k).card := by
  intro evs k
  have h := @sched_accounts bootKernel 0x101000 (.start bootKernel rfl) evs []
  exact ⟨h.1 1 (by decide), h.2.2.1⟩

end Chimaera.Proc
