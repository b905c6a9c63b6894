/-
No ready task waits for long: each switch brings the current slot closer to it,
and while it waits every fifth timer interrupt is a switch.
-/
import Chimaera.Proc.Runs

namespace Chimaera.Proc

variable {k k' : Kernel} {t next : Nat} {trampoline : UInt32}

inductive Event where
  | run (cpu : Cpu) (heap : Heap)
  | spawn (entry : UInt32) (name : Option String)
  | timer
  | yield
  | exit

namespace Event

def step (trampoline : UInt32) (k : Kernel) : Event → Kernel
  | run cpu heap => { k with cpu := cpu, heap := heap }
  | spawn entry name => (schedSpawn trampoline k entry name).2
  | timer => irq0Handler k
  | yield => yieldIntHandler k
  | exit => taskExit k

def isTimer : Event → Bool
  | timer => true
  | _ => false

end Event

def runEvents (trampoline : UInt32) (k : Kernel) (evs : List Event) : Kernel :=
  evs.foldl (Event.step trampoline) k

/-- A kernel before `sched_init`, with interrupts that may be on already. -/
inductive Booting : Kernel → Prop
  | start (k : Kernel) (h : k.tickCount = 0) : Booting k
  | run {k : Kernel} (cpu : Cpu) (heap : Heap) (h : Booting k) :
      Booting { k with cpu := cpu, heap := heap }
  | timer {k : Kernel} (h : Booting k) : Booting (irq0Handler k)

/-- A kernel that a run from `sched_init` comes to. -/
def Scheduled (trampoline : UInt32) (k : Kernel) : Prop :=
  ∃ k₀ evs, Booting k₀ ∧ k = runEvents trampoline (schedInit k₀) evs

/-- The task is ready before, between and after the events. -/
def Waits (trampoline : UInt32) (t : Nat) (k : Kernel) : List Event → Prop
  | [] => (k.tasks t).state = .ready
  | ev :: evs => (k.tasks t).state = .ready ∧ Waits trampoline t (ev.step trampoline k) evs

def switches (trampoline : UInt32) (k : Kernel) : List Event → Nat
  | [] => 0
  | ev :: evs => (if (ev.step trampoline k).current = k.current then 0 else 1) +
      switches trampoline (ev.step trampoline k) evs

def timers (evs : List Event) : Nat := evs.countP Event.isTimer

/-- The table between handlers: the current task runs or has exited, and fewer ticks
than a quantum are counted. -/
structure Orderly (k : Kernel) : Prop where
  current_lt : k.current < schedMaxTasks
  current_state : (k.tasks k.current).state = .running ∨ (k.tasks k.current).state = .zombie
  quantum : k.tickCount.toNat < 5

def distance (k : Kernel) (t : Nat) : Nat := (t + schedMaxTasks - k.current) % schedMaxTasks

/-- Nothing that the scheduler looks at has changed, but for the counter. -/
structure Same (k k' : Kernel) : Prop where
  current : k'.current = k.current
  state : ∀ t, (k'.tasks t).state = (k.tasks t).state

/-- The handler has switched to `next`. -/
structure Switched (k k' : Kernel) (next : Nat) : Prop where
  scan : scanReady k = some next
  current : k'.current = next
  next_state : (k'.tasks next).state = .running
  others : ∀ t, t ≠ next → t ≠ k.current → (k'.tasks t).state = (k.tasks t).state
  tickCount : k'.tickCount = 0

theorem Same.scanReady (h : Same k k') : scanReady k' = scanReady k := by
  simp only [Proc.scanReady, h.current, h.state]

theorem same_leaveHandler : Same k (leaveHandler k) := ⟨rfl, fun _ => rfl⟩

theorem same_enterHandler : Same k (enterHandler k) := ⟨rfl, fun _ => enterHandler_state⟩

theorem Same.trans {e : Kernel} (h : Same k k') (h' : Same k' e) : Same k e :=
  ⟨h'.current.trans h.current, fun t => (h'.state t).trans (h.state t)⟩

theorem switchTo_tickCount : (switchTo k next).tickCount = k.tickCount := by
  unfold switchTo
  split
  · rfl
  · rfl

theorem Same.switched {e : Kernel} (h : Same k k') (hscan : Proc.scanReady k' = some next)
    (hcur : e.current = next) (htasks : e.tasks = (switchTo k' next).tasks)
    (hzero : e.tickCount = 0) : Switched k (leaveHandler e) next := by
  refine ⟨h.scanReady ▸ hscan, hcur, ?_, fun t hn hc => ?_, hzero⟩
  · change (e.tasks next).state = _
    rw [htasks]
    exact switchTo_state_next
  · change (e.tasks t).state = _
    rw [htasks]
    rw [← h.current] at hc
    exact (switchTo_state_of_ne hn hc).trans (h.state t)

theorem tickCount_cases {n : UInt32} (h : n.toNat < 5) :
    n = 0 ∨ n = 1 ∨ n = 2 ∨ n = 3 ∨ n = 4 := by
  simp only [← UInt32.toNat_inj]
  change n.toNat = 0 ∨ n.toNat = 1 ∨ n.toNat = 2 ∨ n.toNat = 3 ∨ n.toNat = 4
  omega

/-- `irq0_handler` counts the tick, and at the fifth it switches if a task is ready. -/
theorem irq0Handler_cases (hq : k.tickCount.toNat < 5) :
    (Same k (irq0Handler k) ∧ (irq0Handler k).tickCount.toNat < 5 ∧
        ((irq0Handler k).tickCount.toNat = k.tickCount.toNat + 1 ∨ scanReady k = none)) ∨
      (k.tickCount.toNat = 4 ∧ ∃ next, Switched k (irq0Handler k) next) := by
  have htick : Same k (tick (enterHandler k)) :=
    same_enterHandler.trans ⟨rfl, fun _ => tick_state⟩
  have hcount : (tick (enterHandler k)).tickCount = k.tickCount + 1 := rfl
  rw [irq0Handler_eq]
  generalize tick (enterHandler k) = e at htick hcount
  split
  · next hlt =>
    left
    refine ⟨htick.trans same_leaveHandler, ?_⟩
    change e.tickCount.toNat < 5 ∧ (e.tickCount.toNat = _ ∨ _)
    rw [hcount] at hlt ⊢
    rcases tickCount_cases hq with h | h | h | h | h <;> rw [h] at hlt ⊢
    · exact ⟨by decide, Or.inl rfl⟩
    · exact ⟨by decide, Or.inl rfl⟩
    · exact ⟨by decide, Or.inl rfl⟩
    · exact ⟨by decide, Or.inl rfl⟩
    · exact absurd hlt (by decide)
  · next hge =>
    have hzero : Same k { e with tickCount := 0 } := ⟨htick.current, htick.state⟩
    split
    · next hscan =>
      left
      exact ⟨hzero.trans same_leaveHandler, by change (0 : Nat) < 5; omega,
        Or.inr (hzero.scanReady ▸ hscan)⟩
    · next next hscan =>
      right
      refine ⟨?_, next, hzero.switched hscan rfl rfl switchTo_tickCount⟩
      rw [hcount] at hge
      rcases tickCount_cases hq with h | h | h | h | h <;> rw [h] at hge ⊢
      · exact absurd (by decide) hge
      · exact absurd (by decide) hge
      · exact absurd (by decide) hge
      · exact absurd (by decide) hge
      · rfl

/-- `yield_int_handler` switches if a task is ready. -/
theorem yieldIntHandler_cases :
    (Same k (yieldIntHandler k) ∧ (yieldIntHandler k).tickCount = k.tickCount ∧
        scanReady k = none) ∨ ∃ next, Switched k (yieldIntHandler k) next := by
  have henter := same_enterHandler (k := k)
  have hcount : (enterHandler k).tickCount = k.tickCount := rfl
  unfold yieldIntHandler
  generalize enterHandler k = e at henter hcount
  dsimp only
  split
  · next hscan =>
    exact Or.inl ⟨henter.trans same_leaveHandler, hcount, henter.scanReady ▸ hscan⟩
  · next next hscan => exact Or.inr ⟨next, henter.switched hscan rfl rfl rfl⟩

/-- A scan finds the first ready slot behind the current one. -/
theorem scanReady_distance (hc : k.current < schedMaxTasks) (ht : t < schedMaxTasks)
    (hne : t ≠ k.current) (hr : (k.tasks t).state = .ready) :
    ∃ next, scanReady k = some next ∧ distance k next ≤ distance k t := by
  have hmod : ∀ d, (k.current + d) &&& 3 = (k.current + d) % 4 := fun d =>
    Nat.and_two_pow_sub_one_eq_mod _ 2
  have hdist : ∀ d, 1 ≤ d → d ≤ 3 → distance k ((k.current + d) % 4) = d := by
    intro d h₁ h₃
    unfold distance schedMaxTasks at *
    omega
  obtain ⟨d, h₁, h₃, rfl⟩ : ∃ d, 1 ≤ d ∧ d ≤ 3 ∧ t = (k.current + d) % 4 := by
    refine ⟨distance k t, ?_⟩
    unfold distance schedMaxTasks at *
    omega
  have hd : d = 1 ∨ d = 2 ∨ d = 3 := by omega
  rw [hdist d h₁ h₃]
  simp only [scanReady, List.map_cons, List.map_nil, hmod, List.find?_cons, List.find?_nil]
  -- the slots before the task's own are looked at first
  by_cases hr₁ : (k.tasks ((k.current + 1) % 4)).state = .ready
  · refine ⟨(k.current + 1) % 4, by rw [beq_iff_eq.mpr hr₁], ?_⟩
    rw [hdist 1 (by omega) (by omega)]
    exact h₁
  rw [beq_eq_false_iff_ne.mpr hr₁]
  by_cases hr₂ : (k.tasks ((k.current + 2) % 4)).state = .ready
  · refine ⟨(k.current + 2) % 4, by rw [beq_iff_eq.mpr hr₂], ?_⟩
    rw [hdist 2 (by omega) (by omega)]
    rcases hd with rfl | rfl | rfl
    · exact absurd hr hr₁
    · omega
    · omega
  rw [beq_eq_false_iff_ne.mpr hr₂]
  rcases hd with rfl | rfl | rfl
  · exact absurd hr hr₁
  · exact absurd hr hr₂
  · exact ⟨_, by rw [beq_iff_eq.mpr hr], Nat.le_of_eq (hdist 3 (by omega) (by omega))⟩

theorem Orderly.ne_current (h : Orderly k) (hr : (k.tasks t).state = .ready) : t ≠ k.current := by
  rintro rfl
  rcases h.current_state with hc | hc
  · rw [hr] at hc
    cases hc
  · rw [hr] at hc
    cases hc

theorem Orderly.same (h : Orderly k) (hs : Same k k') (hq : k'.tickCount.toNat < 5) : Orderly k' := by
  refine ⟨hs.current ▸ h.current_lt, ?_, hq⟩
  rw [hs.current, hs.state]
  exact h.current_state

theorem Switched.orderly (h : Switched k k' next) (hc : k.current < schedMaxTasks) : Orderly k' := by
  refine ⟨h.current ▸ (scanReady_eq_some h.scan hc).1, ?_, by rw [h.tickCount]; decide⟩
  rw [h.current]
  exact Or.inl h.next_state

/-- A spawn touches an unused slot only. -/
theorem schedSpawn_cases (entry : UInt32) (name : Option String) :
    (schedSpawn trampoline k entry name).2.current = k.current ∧
      (schedSpawn trampoline k entry name).2.tickCount = k.tickCount ∧
      ∀ t, (k.tasks t).state ≠ .unused →
        ((schedSpawn trampoline k entry name).2.tasks t).state = (k.tasks t).state := by
  unfold schedSpawn
  split
  · exact ⟨rfl, rfl, fun _ _ => rfl⟩
  · next slot hfind =>
    have hunused : (k.tasks slot).state = .unused := by simpa using List.find?_some hfind
    split
    · exact ⟨rfl, rfl, fun _ _ => rfl⟩
    · refine ⟨rfl, rfl, fun t ht => ?_⟩
      have hne : t ≠ slot := by
        rintro rfl
        exact ht hunused
      exact congrArg Task.state (Function.update_of_ne hne ..)

theorem Orderly.current_ne_unused (h : Orderly k) : (k.tasks k.current).state ≠ .unused := by
  rcases h.current_state with hc | hc <;> rw [hc] <;> decide

theorem Orderly.step (h : Orderly k) (ev : Event) : Orderly (ev.step trampoline k) := by
  cases ev with
  | run cpu heap => exact ⟨h.current_lt, h.current_state, h.quantum⟩
  | spawn entry name =>
      obtain ⟨hc, hq, hs⟩ := @schedSpawn_cases k trampoline entry name
      have hcur := hs _ h.current_ne_unused
      rw [← hc] at hcur
      exact ⟨hc ▸ h.current_lt, hcur.symm ▸ hc ▸ h.current_state, hq ▸ h.quantum⟩
  | timer =>
      rcases irq0Handler_cases h.quantum with ⟨hs, hq, -⟩ | ⟨-, next, hs⟩
      · exact h.same hs hq
      · exact hs.orderly h.current_lt
  | yield =>
      rcases @yieldIntHandler_cases k with ⟨hs, hq, -⟩ | ⟨next, hs⟩
      · exact h.same hs (hq ▸ h.quantum)
      · exact hs.orderly h.current_lt
  | exit => exact ⟨h.current_lt, Or.inr setState_state_self, h.quantum⟩

theorem Orderly.runEvents (h : Orderly k) (evs : List Event) :
    Orderly (Proc.runEvents trampoline k evs) := by
  induction evs generalizing k with
  | nil => exact h
  | cons ev evs ih => exact ih (h.step ev)

theorem Booting.quantum (h : Booting k) : k.tickCount.toNat < 5 := by
  induction h with
  | start k h => rw [h]; decide
  | run cpu heap _ ih => exact ih
  | timer _ ih =>
      rcases irq0Handler_cases ih with ⟨-, hq, -⟩ | ⟨-, next, hs⟩
      · exact hq
      · rw [hs.tickCount]
        decide

theorem Scheduled.orderly (h : Scheduled trampoline k) : Orderly k := by
  obtain ⟨k₀, evs, hboot, rfl⟩ := h
  have hinit : Orderly (schedInit k₀) := by
    refine ⟨?_, Or.inl rfl, hboot.quantum⟩
    change 0 < schedMaxTasks
    decide
  exact hinit.runEvents evs

/-- How many timer interrupts a ready task can still see. -/
def budget (k : Kernel) (t : Nat) : Nat := 5 * (distance k t - 1) + (4 - k.tickCount.toNat)

/-- A switch resumes the ready task, or one of the slots before it. -/
theorem Switched.nearer (hs : Switched k k' next) (h : Orderly k) (ht : t < schedMaxTasks)
    (hr : (k.tasks t).state = .ready) :
    k'.current ≠ k.current ∧ (k'.current = t ∨ (k'.tasks t).state = .ready ∧
      distance k' t + 1 ≤ distance k t ∧ budget k' t + 1 ≤ budget k t) := by
  have hne := h.ne_current hr
  obtain ⟨next', hscan, hle⟩ := scanReady_distance h.current_lt ht hne hr
  obtain rfl : next = next' := Option.some.inj (hs.scan.symm.trans hscan)
  obtain ⟨hlt, hnc, -⟩ := scanReady_eq_some hs.scan h.current_lt
  refine ⟨hs.current ▸ hnc, ?_⟩
  by_cases htn : t = next
  · exact Or.inl (hs.current.trans htn.symm)
  · have hc := h.current_lt
    have hq := h.quantum
    have hdist : distance k' t + 1 ≤ distance k t ∧ 1 ≤ distance k' t := by
      unfold distance at hle ⊢
      rw [hs.current]
      unfold schedMaxTasks at *
      omega
    refine Or.inr ⟨(hs.others t htn hne).trans hr, hdist.1, ?_⟩
    unfold budget
    rw [hs.tickCount]
    change 5 * (distance k' t - 1) + (4 - 0) + 1 ≤ _
    omega

/-- One event while the task is ready: the current task stays, and a tick uses up the
budget; or another one comes, which is the task itself or nearer to it. -/
theorem Orderly.step_ready (h : Orderly k) (ht : t < schedMaxTasks)
    (hr : (k.tasks t).state = .ready) (ev : Event) :
    ((ev.step trampoline k).current = k.current ∧
        ((ev.step trampoline k).tasks t).state = .ready ∧
        budget (ev.step trampoline k) t + (if ev.isTimer then 1 else 0) ≤ budget k t) ∨
      ((ev.step trampoline k).current ≠ k.current ∧ ((ev.step trampoline k).current = t ∨
        ((ev.step trampoline k).tasks t).state = .ready ∧
          distance (ev.step trampoline k) t + 1 ≤ distance k t ∧
          budget (ev.step trampoline k) t + 1 ≤ budget k t)) := by
  have hne := h.ne_current hr
  have hscan : scanReady k ≠ none := by
    obtain ⟨next, hnext, -⟩ := scanReady_distance h.current_lt ht hne hr
    rw [hnext]
    exact Option.some_ne_none next
  cases ev with
  | run cpu heap => exact Or.inl ⟨rfl, hr, Nat.le_refl _⟩
  | spawn entry name =>
      obtain ⟨hc, hq, hs⟩ := @schedSpawn_cases k trampoline entry name
      refine Or.inl ⟨hc, (hs t (by rw [hr]; decide)).trans hr, ?_⟩
      change budget (schedSpawn trampoline k entry name).2 t + 0 ≤ budget k t
      rw [budget, distance, hc, hq]
      exact Nat.le_refl _
  | timer =>
      rcases irq0Handler_cases h.quantum with ⟨hs, hq, hcase⟩ | ⟨-, next, hs⟩
      · have hcount := hcase.resolve_right hscan
        refine Or.inl ⟨hs.current, (hs.state t).trans hr, ?_⟩
        change budget (irq0Handler k) t + 1 ≤ budget k t
        rw [budget, budget, distance, hs.current, hcount, distance]
        omega
      · exact Or.inr (hs.nearer h ht hr)
  | yield =>
      rcases @yieldIntHandler_cases k with ⟨-, -, hnone⟩ | ⟨next, hs⟩
      · exact absurd hnone hscan
      · exact Or.inr (hs.nearer h ht hr)
  | exit => exact Or.inl ⟨rfl, (setState_state_of_ne hne).trans hr, Nat.le_refl _⟩

theorem Waits.ready {evs : List Event} (h : Waits trampoline t k evs) :
    (k.tasks t).state = .ready := by
  cases evs with
  | nil => exact h
  | cons ev evs => exact h.1

theorem distance_of_current (h : k'.current = k.current) : distance k' t = distance k t := by
  unfold distance
  rw [h]

theorem distance_pos (hc : k.current < schedMaxTasks) (ht : t < schedMaxTasks)
    (hne : t ≠ k.current) : 1 ≤ distance k t := by
  unfold distance
  unfold schedMaxTasks at *
  omega

theorem distance_le (k : Kernel) (t : Nat) : distance k t ≤ 3 := by
  unfold distance schedMaxTasks
  omega

theorem timers_cons (ev : Event) (evs : List Event) :
    timers (ev :: evs) = timers evs + if ev.isTimer then 1 else 0 := by
  unfold timers
  rw [List.countP_cons]

/-- A segment in which the task is ready uses up the distance and the budget. -/
theorem Orderly.waits (h : Orderly k) (ht : t < schedMaxTasks) {evs : List Event}
    (hw : Waits trampoline t k evs) :
    switches trampoline k evs + 1 ≤ distance k t ∧ timers evs ≤ budget k t := by
  induction evs generalizing k with
  | nil =>
      change 0 + 1 ≤ _ ∧ 0 ≤ _
      exact ⟨distance_pos h.current_lt ht (h.ne_current hw), Nat.zero_le _⟩
  | cons ev evs ih =>
      obtain ⟨hr, hrest⟩ := hw
      have hnext : Orderly (ev.step trampoline k) := h.step ev
      obtain ⟨hs, htm⟩ := ih hnext hrest
      rw [switches, timers_cons]
      rcases h.step_ready ht hr ev with ⟨hcur, -, hb⟩ | ⟨hcur, hto | ⟨-, hd, hb⟩⟩
      · rw [if_pos hcur]
        rw [distance_of_current hcur] at hs
        omega
      · exact absurd hto.symm (hnext.ne_current hrest.ready)
      · rw [if_neg hcur]
        split
        · omega
        · omega

/-- A ready task is resumed after at most as many switches as it is slots away. -/
theorem Orderly.selected (h : Orderly k) (ht : t < schedMaxTasks)
    (hr : (k.tasks t).state = .ready) {evs : List Event}
    (hs : distance k t ≤ switches trampoline k evs) :
    ∃ pre, pre <+: evs ∧ switches trampoline k pre ≤ distance k t ∧
      (Proc.runEvents trampoline k pre).current = t := by
  have hpos := distance_pos h.current_lt ht (h.ne_current hr)
  induction evs generalizing k with
  | nil =>
      change _ ≤ 0 at hs
      omega
  | cons ev evs ih =>
      have hnext : Orderly (ev.step trampoline k) := h.step ev
      rw [switches] at hs
      rcases h.step_ready ht hr ev with ⟨hcur, hr', -⟩ | ⟨hcur, hto | ⟨hr', hd, -⟩⟩
      · rw [if_pos hcur, Nat.zero_add] at hs
        rw [← distance_of_current hcur] at hs ⊢
        obtain ⟨pre, hpre, hsw, hend⟩ := ih hnext hr' hs
          (distance_pos hnext.current_lt ht (hnext.ne_current hr'))
        refine ⟨ev :: pre, List.cons_prefix_cons.mpr ⟨rfl, hpre⟩, ?_, hend⟩
        rw [switches, if_pos hcur, Nat.zero_add]
        exact hsw
      · refine ⟨[ev], List.cons_prefix_cons.mpr ⟨rfl, List.nil_prefix⟩, ?_, hto⟩
        rw [switches, if_neg hcur]
        exact hpos
      · rw [if_neg hcur] at hs
        obtain ⟨pre, hpre, hsw, hend⟩ := ih hnext hr' (by omega)
          (distance_pos hnext.current_lt ht (hnext.ne_current hr'))
        refine ⟨ev :: pre, List.cons_prefix_cons.mpr ⟨rfl, hpre⟩, ?_, hend⟩
        rw [switches, if_neg hcur]
        omega

/-- No segment of a run in which a task is ready throughout contains more than two
switches or fourteen timer interrupts, and a ready task is the one resumed by the
third switch at the latest. -/
theorem ready_not_bypassed (h : Scheduled trampoline k) (ht : t < schedMaxTasks)
    (evs : List Event) :
    (Waits trampoline t k evs → switches trampoline k evs ≤ 2 ∧ timers evs ≤ 14) ∧
      ((k.tasks t).state = .ready → 3 ≤ switches trampoline k evs →
        ∃ pre, pre <+: evs ∧ switches trampoline k pre ≤ 3 ∧
          (runEvents trampoline k pre).current = t) := by
  have hle := distance_le k t
  refine ⟨fun hw => ?_, fun hr hs => ?_⟩
  · obtain ⟨hsw, htm⟩ := h.orderly.waits ht hw
    refine ⟨by omega, htm.trans ?_⟩
    unfold budget
    omega
  · obtain ⟨pre, hpre, hsw, hend⟩ := h.orderly.selected ht hr (hle.trans hs)
    exact ⟨pre, hpre, hsw.trans hle, hend⟩

theorem ready_not_bypassed_boot :
    let k := runEvents 0x101000 (schedInit bootKernel) [.spawn 0x102000 (some "shell")]
    (switches 0x101000 k [.timer, .timer] ≤ 2 ∧ timers [.timer, .timer] ≤ 14) ∧
      ∃ pre, pre <+: [.yield, .yield, .yield] ∧ switches 0x101000 k pre ≤ 3 ∧
        (runEvents 0x101000 k pre).current = 1 := by
  have h : Scheduled 0x101000
      (runEvents 0x101000 (schedInit bootKernel) [.spawn 0x102000 (some "shell")]) :=
    ⟨bootKernel, _, .start bootKernel rfl, rfl⟩
  exact ⟨(ready_not_bypassed h (t := 1) (by decide) [.timer, .timer]).1 ⟨rfl, rfl, rfl⟩,
    (ready_not_bypassed h (by decide) [.yield, .yield, .yield]).2 rfl (by decide)⟩

end Chimaera.Proc
