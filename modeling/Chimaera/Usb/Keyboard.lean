/-
What the applications learn of the keyboard.  The events that were posted tell
which keys are down in the last report, as long as no event that matters finds
the ring full and no rollover report comes while keys are held.
-/
import Chimaera.Usb.Ring

namespace Chimaera.Usb

variable {prev cur : Block kbdReportSize} {ring : InputRing} {c sc : UInt8}
  {evs : List InputEvent} {held : UInt8 → Bool}

def InputEvent.code : InputEvent → Option UInt8
  | .key scancode _ _ _ => some scancode
  | .mouse _ _ _ => none

/-- Note one event: which keys are down after it. -/
def noteEvent (held : UInt8 → Bool) : InputEvent → UInt8 → Bool
  | .key scancode _ _ flags => Function.update held scancode (flags == keyFlagPress)
  | .mouse _ _ _ => held

def pressed (evs : List InputEvent) : UInt8 → Bool :=
  evs.foldl noteEvent fun _ => false

theorem pressed_append {fs : List InputEvent} :
    pressed (evs ++ fs) = fs.foldl noteEvent (pressed evs) := by
  simp [pressed]

/-- The codes in the key slots of a report, other than 0x00 and 0x01. -/
def codes (report : Block kbdReportSize) (sc : UInt8) : Bool :=
  (sc != 0 && sc != 0x01) && heldIn report sc

def isRollover (report : Block kbdReportSize) : Bool :=
  keySlots.all fun j => report.byte j == 0x01

theorem codes_of_isRollover (h : isRollover cur = true) : codes cur c = false := by
  by_contra hc
  rw [Bool.not_eq_false, codes, Bool.and_eq_true, heldIn, List.any_eq_true] at hc
  obtain ⟨hne, j, hj, heq⟩ := hc
  rw [isRollover, List.all_eq_true] at h
  rw [← beq_iff_eq.mp heq, beq_iff_eq.mp (h j hj)] at hne
  simp at hne

theorem codes_zero : codes (Block.zero kbdReportSize) c = false := by
  by_contra hc
  rw [Bool.not_eq_false, codes, Bool.and_eq_true, heldIn, List.any_eq_true] at hc
  obtain ⟨hne, j, -, heq⟩ := hc
  rw [Block.byte_zero, beq_iff_eq] at heq
  rw [← heq] at hne
  simp at hne

def releases (prev cur : Block kbdReportSize) : List InputEvent :=
  (keySlots.filter fun i => codes prev (prev.byte i) && !heldIn cur (prev.byte i)).map
    fun i => releaseEvent prev (prev.byte i)

def presses (prev cur : Block kbdReportSize) : List InputEvent :=
  (keySlots.filter fun i => codes cur (cur.byte i) && !heldIn prev (cur.byte i)).map
    fun i => pressEvent cur (cur.byte i)

def changes (prev cur : Block kbdReportSize) : List InputEvent :=
  releases prev cur ++ presses prev cur

theorem foldl_post (slots : List Nat) {p : Nat → Bool} {f : Nat → InputEvent}
    {step : InputRing → Nat → InputRing}
    (hstep : ∀ ring, ∀ i ∈ slots, step ring i = if p i then (inputRingPost ring (f i)).2 else ring) :
    slots.foldl step ring = postAll ring ((slots.filter p).map f) := by
  induction slots generalizing ring with
  | nil => rfl
  | cons i slots ih =>
      rw [List.foldl_cons, hstep ring i List.mem_cons_self,
        ih fun ring j hj => hstep ring j (List.mem_cons_of_mem i hj), List.filter_cons]
      split
      · rfl
      · rfl

theorem heldIn_slot {i : Nat} (hi : i ∈ keySlots) : heldIn cur (cur.byte i) = true :=
  List.any_eq_true.mpr ⟨i, hi, beq_self_eq_true _⟩

theorem codes_slot {i : Nat} (hi : i ∈ keySlots) :
    codes cur (cur.byte i) = true ↔ ¬ (cur.byte i = 0 ∨ cur.byte i = 0x01) := by
  simp [codes, heldIn_slot hi]

theorem foldl_detectRelease :
    keySlots.foldl (detectRelease prev cur) ring = postAll ring (releases prev cur) := by
  apply foldl_post
  intro ring i hi
  simp only [detectRelease, Bool.and_eq_true, codes_slot hi, Bool.not_eq_true']
  split
  · next h => simp [h]
  · next h => split <;> simp_all

theorem foldl_detectPress :
    keySlots.foldl (detectPress prev cur) ring = postAll ring (presses prev cur) := by
  apply foldl_post
  intro ring i hi
  simp only [detectPress, Bool.and_eq_true, codes_slot hi, Bool.not_eq_true']
  split
  · next h => simp [h]
  · next h => split <;> simp_all

theorem hidKbdPoll_report {kbd : Kbd} (ha : kbd.active = true)
    (hd : uhciTdDone kbd.pollTd = true) (he : uhciTdError kbd.pollTd = false) :
    hidKbdPoll kbd ring = ({ kbd with
        prevReport := kbd.reportBuf, pollTd := uhciReactivateTd kbd.pollTd },
      postAll ring (changes kbd.prevReport kbd.reportBuf)) := by
  simp only [hidKbdPoll, ha, hd, he, foldl_detectRelease, foldl_detectPress]
  simp [changes, postAll]

theorem hidKbdPoll_other {kbd : Kbd}
    (h : ¬ (kbd.active = true ∧ uhciTdDone kbd.pollTd = true ∧ uhciTdError kbd.pollTd = false)) :
    (hidKbdPoll kbd ring).1.prevReport = kbd.prevReport ∧ (hidKbdPoll kbd ring).2 = ring := by
  unfold hidKbdPoll
  split
  · exact ⟨rfl, rfl⟩
  · split
    · exact ⟨rfl, rfl⟩
    · split
      · exact ⟨rfl, rfl⟩
      · simp_all

theorem hidMousePoll_ring (mouse : Mouse) (ring : InputRing) :
    (hidMousePoll mouse ring).2 = ring ∨
      ∃ dx dy buttons, (hidMousePoll mouse ring).2 =
        (inputRingPost ring (.mouse dx dy buttons)).2 := by
  unfold hidMousePoll
  split
  · exact Or.inl rfl
  split
  · exact Or.inl rfl
  split
  · exact Or.inl rfl
  simp only
  split
  · exact Or.inr ⟨_, _, _, rfl⟩
  · exact Or.inl rfl

/-- An event of a report says whether its key is down in the report, and it is
the only event for this key. -/
theorem mem_changes {ev : InputEvent} (h : ev ∈ changes prev cur) :
    ∃ sc, ev.code = some sc ∧ codes prev sc ≠ codes cur sc ∧
      (∀ held, noteEvent held ev = Function.update held sc (codes cur sc)) ∧
      ev = if codes cur sc then pressEvent cur sc else releaseEvent prev sc := by
  rcases List.mem_append.mp h with h | h
  · obtain ⟨i, hi, rfl⟩ := List.mem_map.mp h
    obtain ⟨-, hp⟩ := List.mem_filter.mp hi
    rw [Bool.and_eq_true, Bool.not_eq_true'] at hp
    have hcur : codes cur (prev.byte i) = false := by simp [codes, hp.2]
    refine ⟨prev.byte i, rfl, by rw [hp.1, hcur]; decide, fun held => ?_, by simp [hcur]⟩
    rw [hcur]
    rfl
  · obtain ⟨i, hi, rfl⟩ := List.mem_map.mp h
    obtain ⟨-, hp⟩ := List.mem_filter.mp hi
    rw [Bool.and_eq_true, Bool.not_eq_true'] at hp
    have hprev : codes prev (cur.byte i) = false := by simp [codes, hp.2]
    refine ⟨cur.byte i, rfl, by rw [hp.1, hprev]; decide, fun held => ?_, by simp [hp.1]⟩
    rw [hp.1]
    rfl

/-- A key that changes has an event. -/
theorem exists_change (h : codes prev c ≠ codes cur c) :
    ∃ ev ∈ changes prev cur, ev.code = some c := by
  cases hp : codes prev c with
  | true =>
      have hc : codes cur c = false := by
        rw [hp] at h
        exact Bool.eq_false_iff.mpr (Ne.symm h)
      have hp' := hp
      rw [codes, Bool.and_eq_true, heldIn, List.any_eq_true] at hp'
      obtain ⟨hne, j, hj, heq⟩ := hp'
      have hj' := beq_iff_eq.mp heq
      have hcur : heldIn cur c = false := by simpa [codes, hne] using hc
      refine ⟨releaseEvent prev c, List.mem_append_left _ (List.mem_map.mpr ⟨j, ?_, by rw [hj']⟩), rfl⟩
      simp [hj, hj', hp, hcur]
  | false =>
      have hc : codes cur c = true := by
        rw [hp] at h
        exact (Bool.eq_true_of_not_eq_false (Ne.symm h))
      have hc' := hc
      rw [codes, Bool.and_eq_true, heldIn, List.any_eq_true] at hc'
      obtain ⟨hne, j, hj, heq⟩ := hc'
      have hj' := beq_iff_eq.mp heq
      have hprev : heldIn prev c = false := by simpa [codes, hne] using hp
      refine ⟨pressEvent cur c, List.mem_append_right _ (List.mem_map.mpr ⟨j, ?_, by rw [hj']⟩), rfl⟩
      simp [hj, hj', hc, hprev]

/-- Some of the events of a report settle their keys. -/
theorem foldl_noteEvent (h : ∀ ev ∈ evs, ev ∈ changes prev cur) :
    evs.foldl noteEvent held c =
      if ∃ ev ∈ evs, ev.code = some c then codes cur c else held c := by
  induction evs generalizing held with
  | nil => simp
  | cons ev evs ih =>
      obtain ⟨sc, hcode, -, hnote, -⟩ := mem_changes (h ev List.mem_cons_self)
      rw [List.foldl_cons, ih fun e he => h e (List.mem_cons_of_mem ev he), hnote]
      by_cases hrest : ∃ e ∈ evs, e.code = some c
      · obtain ⟨e, he, hec⟩ := hrest
        rw [if_pos ⟨e, he, hec⟩, if_pos ⟨e, List.mem_cons_of_mem ev he, hec⟩]
      · rw [if_neg hrest]
        by_cases hc : c = sc
        · subst hc
          rw [Function.update_self, if_pos ⟨ev, List.mem_cons_self, hcode⟩]
        · rw [Function.update_of_ne hc, if_neg]
          rintro ⟨e, he, hec⟩
          rcases List.mem_cons.mp he with rfl | he
          · exact hc (Option.some.inj (hec.symm.trans hcode))
          · exact hrest ⟨e, he, hec⟩

/-- Posting some of the events of a report is enough exactly if all others
repeat one of these. -/
theorem foldl_noteEvent_iff {fs : List InputEvent} (h : evs ++ fs = changes prev cur) :
    evs.foldl noteEvent (codes prev) = codes cur ↔ ∀ ev ∈ fs, ev ∈ evs := by
  have hevs : ∀ ev ∈ evs, ev ∈ changes prev cur := fun ev hev =>
    h ▸ List.mem_append_left fs hev
  constructor
  · intro heq ev hev
    obtain ⟨sc, hcode, hne, -, hform⟩ := mem_changes (h ▸ List.mem_append_right evs hev)
    have hsc := congrFun heq sc
    rw [foldl_noteEvent hevs] at hsc
    by_cases hex : ∃ e ∈ evs, e.code = some sc
    · obtain ⟨e, he, hec⟩ := hex
      obtain ⟨sc', hcode', -, -, hform'⟩ := mem_changes (hevs e he)
      obtain rfl : sc = sc' := Option.some.inj (hec.symm.trans hcode')
      rw [hform, ← hform']
      exact he
    · rw [if_neg hex] at hsc
      exact absurd hsc hne
  · intro hall
    funext c
    rw [foldl_noteEvent hevs]
    split
    · rfl
    · next hno =>
      by_contra hne
      obtain ⟨ev, hev, hcode⟩ := exists_change hne
      rw [← h] at hev
      rcases List.mem_append.mp hev with hev | hev
      · exact hno ⟨ev, hev, hcode⟩
      · exact hno ⟨ev, hall ev hev, hcode⟩

/-- The drivers and the ring, with what the applications have read so far and
the last keyboard report that was polled and is no rollover report. -/
structure Session where
  kbd : Kbd
  mouse : Mouse
  ring : InputRing
  delivered : List InputEvent
  lastReport : Block kbdReportSize

/-- The controller leaves a status and a report with a polling TD and the
driver polls it, or an application reads an event. -/
inductive Act where
  | kbd (status : UInt32) (report : Block kbdReportSize)
  | mouse (status : UInt32) (report : Block mouseReportSize)
  | read

namespace Session

variable {s t s₀ : Session} {a : Act}

def completed (s : Session) (status : UInt32) (report : Block kbdReportSize) : Kbd :=
  { s.kbd with pollTd := { s.kbd.pollTd with status := status }, reportBuf := report }

/-- The poller takes the report. -/
def Consumes (s : Session) (status : UInt32) (report : Block kbdReportSize) : Prop :=
  (s.completed status report).active = true ∧
    uhciTdDone (s.completed status report).pollTd = true ∧
    uhciTdError (s.completed status report).pollTd = false

instance {status : UInt32} {report : Block kbdReportSize} :
    Decidable (s.Consumes status report) :=
  inferInstanceAs (Decidable (_ ∧ _ ∧ _))

def step (s : Session) : Act → Session
  | .kbd status report =>
      let out := hidKbdPoll (s.completed status report) s.ring
      { s with
        kbd := out.1
        ring := out.2
        lastReport :=
          if s.Consumes status report ∧ isRollover report = false then report else s.lastReport }
  | .mouse status report =>
      let out := hidMousePoll
        { s.mouse with pollTd := { s.mouse.pollTd with status := status }, reportBuf := report }
        s.ring
      { s with mouse := out.1, ring := out.2 }
  | .read =>
      let out := inputRingRead s.ring
      { s with ring := out.2, delivered := s.delivered ++ out.1.toList }

/-- After `hid_kbd_init`: no key is down and nothing is pending. -/
structure Start (s : Session) : Prop where
  prevReport : s.kbd.prevReport = Block.zero kbdReportSize
  lastReport : s.lastReport = Block.zero kbdReportSize
  delivered : s.delivered = []
  head : s.ring.head = 0
  tail : s.ring.tail = 0

def room (s : Session) : Nat := inputRingSize - 1 - s.ring.pending.length

/-- Every event of the report that finds the ring full repeats one that did
not, and a rollover report comes only while no key is held. -/
def Fits (s : Session) : Act → Prop
  | .kbd status report => s.Consumes status report →
      (∀ ev ∈ (changes s.kbd.prevReport report).drop s.room,
        ev ∈ (changes s.kbd.prevReport report).take s.room) ∧
      (isRollover report = true → ∀ c, codes s.kbd.prevReport c = false)
  | .mouse _ _ => True
  | .read => True

/-- Any number of steps, each of which meets the condition `ok`. -/
inductive Reaches (ok : Session → Act → Prop) (s₀ : Session) : Session → Prop where
  | start : Reaches ok s₀ s₀
  | next {s : Session} {a : Act} : Reaches ok s₀ s → ok s a → Reaches ok s₀ (s.step a)

/-- The posted events tell which keys are down in the last report. -/
structure Tracks (s : Session) : Prop where
  valid : s.ring.Valid
  posted : pressed (s.delivered ++ s.ring.pending) = codes s.kbd.prevReport
  last : codes s.kbd.prevReport = codes s.lastReport

theorem Start.tracks (h : s.Start) : s.Tracks := by
  obtain ⟨hv, hp⟩ := InputRing.valid_front h.head h.tail
  refine ⟨hv, ?_, by rw [h.prevReport, h.lastReport]⟩
  rw [h.delivered, hp, h.prevReport]
  funext c
  rw [codes_zero]
  rfl

theorem Tracks.read (h : s.Tracks) : (s.step .read).Tracks := by
  refine ⟨h.valid.read, ?_, h.last⟩
  refine Eq.trans ?_ h.posted
  simp only [step]
  cases hp : s.ring.pending with
  | nil =>
      rw [h.valid.read_empty hp, hp]
      simp
  | cons ev evs =>
      obtain ⟨h₁, h₂⟩ := h.valid.read_pending hp
      rw [h₁, h₂]
      simp

/-- A mouse event does not touch the keys. -/
theorem pressed_take_mouse {dx dy : Int8} {buttons : UInt8} {n : Nat}
    (hn : evs.length ≤ n) {ds : List InputEvent} :
    pressed (ds ++ (evs ++ [InputEvent.mouse dx dy buttons]).take n) = pressed (ds ++ evs) := by
  rw [List.take_append, List.take_of_length_le hn, ← List.append_assoc, pressed_append]
  cases h : n - evs.length with
  | zero => rfl
  | succ k => simp [noteEvent]

theorem length_pending_le : s.ring.pending.length ≤ inputRingSize - 1 := by
  have := s.ring.count_lt
  rw [InputRing.length_pending]
  omega

theorem Tracks.congr (h : s.Tracks) (hr : t.ring = s.ring) (hd : t.delivered = s.delivered)
    (hk : t.kbd.prevReport = s.kbd.prevReport) (hl : t.lastReport = s.lastReport) :
    t.Tracks := by
  refine ⟨by rw [hr]; exact h.valid, ?_, by rw [hk, hl]; exact h.last⟩
  rw [hr, hd, hk]
  exact h.posted

theorem Tracks.mouse {status : UInt32} {report : Block mouseReportSize} (h : s.Tracks) :
    (s.step (.mouse status report)).Tracks := by
  rcases hidMousePoll_ring { s.mouse with
      pollTd := { s.mouse.pollTd with status := status }, reportBuf := report } s.ring with
    heq | ⟨dx, dy, buttons, heq⟩
  · exact h.congr heq rfl rfl rfl
  · refine ⟨?_, ?_, h.last⟩
    · simp only [step, heq]
      exact h.valid.post
    · simp only [step, heq, h.valid.pending_post]
      exact (pressed_take_mouse length_pending_le).trans h.posted

theorem step_kbd_other {status : UInt32} {report : Block kbdReportSize}
    (hc : ¬ s.Consumes status report) :
    (s.step (.kbd status report)).kbd.prevReport = s.kbd.prevReport ∧
      (s.step (.kbd status report)).ring = s.ring ∧
      (s.step (.kbd status report)).lastReport = s.lastReport := by
  obtain ⟨h₁, h₂⟩ := @hidKbdPoll_other s.ring _ hc
  refine ⟨h₁, h₂, ?_⟩
  simp [step, hc]

theorem step_kbd_report {status : UInt32} {report : Block kbdReportSize} (h : s.ring.Valid)
    (hc : s.Consumes status report) :
    (s.step (.kbd status report)).kbd.prevReport = report ∧
      (s.step (.kbd status report)).ring.Valid ∧
      (s.step (.kbd status report)).ring.pending =
        s.ring.pending ++ (changes s.kbd.prevReport report).take s.room ∧
      (s.step (.kbd status report)).lastReport =
        if isRollover report = false then report else s.lastReport := by
  obtain ⟨hv, hp⟩ := @InputRing.Valid.postAll _ (changes s.kbd.prevReport report) h
  have hpoll := @hidKbdPoll_report s.ring _ hc.1 hc.2.1 hc.2.2
  refine ⟨by simp only [step, hpoll]; rfl, by simp only [step, hpoll]; exact hv, ?_, ?_⟩
  · simp only [step, hpoll]
    refine hp.trans ?_
    rw [List.take_append, List.take_of_length_le length_pending_le]
    rfl
  · simp [step, hc]

/-- One poll of the keyboard keeps the events in step with the reports exactly
if the report fits. -/
theorem Tracks.kbd_iff {status : UInt32} {report : Block kbdReportSize} (h : s.Tracks) :
    (s.step (.kbd status report)).Tracks ↔ s.Fits (.kbd status report) := by
  by_cases hc : s.Consumes status report
  · obtain ⟨hprev, hv, hp, hlast⟩ := step_kbd_report h.valid hc
    have hd : (s.step (.kbd status report)).delivered = s.delivered := rfl
    have hposted : pressed ((s.step (.kbd status report)).delivered ++
        (s.step (.kbd status report)).ring.pending) =
        ((changes s.kbd.prevReport report).take s.room).foldl noteEvent
          (codes s.kbd.prevReport) := by
      rw [hd, hp, ← List.append_assoc, pressed_append, h.posted]
    have hevents := foldl_noteEvent_iff (List.take_append_drop s.room (changes s.kbd.prevReport report))
    constructor
    · intro ht _
      have h₁ := ht.posted
      have h₂ := ht.last
      rw [hposted, hprev] at h₁
      rw [hprev, hlast] at h₂
      refine ⟨hevents.mp h₁, fun hroll c => ?_⟩
      rw [if_neg (by rw [hroll]; decide), ← h.last] at h₂
      rw [← h₂]
      exact codes_of_isRollover hroll
    · intro hfits
      obtain ⟨hroom, hroll⟩ := hfits hc
      refine ⟨hv, ?_, ?_⟩
      · rw [hposted, hprev]
        exact hevents.mpr hroom
      · rw [hprev, hlast]
        split
        · rfl
        · next hr =>
          have hr' := Bool.eq_true_of_not_eq_false hr
          rw [← h.last]
          funext c
          rw [hroll hr', codes_of_isRollover hr']
  · obtain ⟨h₁, h₂, h₃⟩ := step_kbd_other hc
    refine ⟨fun _ hc' => absurd hc' hc, fun _ => ⟨?_, ?_, ?_⟩⟩
    · rw [h₂]
      exact h.valid
    · rw [h₁, h₂]
      exact h.posted
    · rw [h₁, h₃]
      exact h.last

theorem Reaches.tracks (h₀ : s₀.Start) (h : Reaches Fits s₀ s) : s.Tracks := by
  induction h with
  | start => exact h₀.tracks
  | @next s a _ hok ih =>
      cases a with
      | kbd status report => exact ih.kbd_iff.mpr hok
      | mouse status report => exact ih.mouse
      | read => exact ih.read

/-- Whenever the applications have read all events, the keys that they take to
be down are those in the last report that was no rollover report, in every run
in which each report fits. -/
theorem Reaches.delivered_eq (h₀ : s₀.Start) (h : Reaches Fits s₀ s)
    (hempty : inputRingEmpty s.ring = true) : pressed s.delivered = codes s.lastReport := by
  have ht := h.tracks h₀
  have hp : s.ring.pending = [] := by
    rw [← List.length_eq_zero_iff, InputRing.length_pending, ← ht.valid.empty_iff]
    exact beq_iff_eq.mp hempty
  have hposted := ht.posted
  rw [hp, List.append_nil] at hposted
  rw [hposted, ht.last]

/-- After `hid_kbd_init` and `input_init`. -/
def initial : Session where
  kbd := ⟨⟨uhciLpTerminate, tdStsActive, 0, 0⟩, Block.zero _, Block.zero _, true⟩
  mouse := ⟨⟨uhciLpTerminate, tdStsActive, 0, 0⟩, Block.zero _, true⟩
  ring := ⟨fun _ => .mouse 0 0 0, 0, 0⟩
  delivered := []
  lastReport := Block.zero _

theorem start_initial : initial.Start := ⟨rfl, rfl, rfl, rfl, rfl⟩

/-- A report in which the key slots hold `sc`. -/
def report (sc : List UInt8) : Block kbdReportSize := (Block.zero _).patch 2 sc

theorem delivered_eq_press :
    pressed ((initial.step (.kbd 0 (report [4]))).step .read).delivered = codes (report [4]) := by
  refine Reaches.delivered_eq start_initial (.next (.next .start ?_) trivial) (by decide)
  intro _
  exact ⟨by decide, fun h => absurd h (by decide)⟩

def run (s : Session) (acts : List Act) : Session := acts.foldl step s

/-- A rollover report comes while `a` is held. -/
def rollover : Session :=
  run initial [.kbd 0 (report [4]), .kbd 0 (report [1, 1, 1, 1, 1, 1]), .read, .read]

/-- The ring is full of mouse events when `a` is pressed. -/
def crowded : Session :=
  run initial (List.replicate 63 (.mouse 0 ((Block.zero _).patch 1 [1])) ++
    .kbd 0 (report [4]) :: List.replicate 63 .read)

/-- In both runs the applications have read all events and take `a` to be up,
but the last report that was no rollover report has it. -/
theorem delivered_ne :
    (inputRingEmpty rollover.ring = true ∧
      pressed rollover.delivered ≠ codes rollover.lastReport) ∧
    (inputRingEmpty crowded.ring = true ∧
      pressed crowded.delivered ≠ codes crowded.lastReport) := by
  have hroll : pressed rollover.delivered 4 = false ∧ codes rollover.lastReport 4 = true ∧
      inputRingEmpty rollover.ring = true := by decide +kernel
  have hfull : pressed crowded.delivered 4 = false ∧ codes crowded.lastReport 4 = true ∧
      inputRingEmpty crowded.ring = true := by decide +kernel
  refine ⟨⟨hroll.2.2, fun h => ?_⟩, ⟨hfull.2.2, fun h => ?_⟩⟩
  · have := congrFun h 4
    rw [hroll.1, hroll.2.1] at this
    exact absurd this (by decide)
  · have := congrFun h 4
    rw [hfull.1, hfull.2.1] at this
    exact absurd this (by decide)

end Session

end Chimaera.Usb
