/-
What the mouse events tell: where the pointer has gone, and which buttons are down.
A report without motion and without buttons is not posted, so the release of the last
button is lost unless the mouse moves with it.
-/
import Chimaera.Histories
import Chimaera.Usb.Strokes

namespace Chimaera.Usb

@[ext] structure Pointer where
  buttons : UInt8
  x : Int
  y : Int
  deriving DecidableEq

def Pointer.origin : Pointer := ⟨0, 0, 0⟩

def Pointer.note (p : Pointer) : InputEvent → Pointer
  | .key _ _ _ _ => p
  | .mouse dx dy buttons => ⟨buttons, p.x + dx.toInt, p.y + dy.toInt⟩

/-- The buttons of the last mouse event, and the sums of the motions. -/
def pointer (evs : List InputEvent) : Pointer := evs.foldl Pointer.note Pointer.origin

def Pointer.take (p : Pointer) (report : Block mouseReportSize) : Pointer :=
  ⟨report.byte 0 &&& 0x07, p.x + (report.byte 1).toInt8.toInt, p.y + (report.byte 2).toInt8.toInt⟩

/-- The buttons of the last report, and the sums of the motions. -/
def reported (reports : List (Block mouseReportSize)) : Pointer :=
  reports.foldl Pointer.take Pointer.origin

/-- A report without motion and without buttons. -/
def Still (report : Block mouseReportSize) : Prop :=
  (report.byte 1).toInt8 = 0 ∧ (report.byte 2).toInt8 = 0 ∧ report.byte 0 &&& 0x07 = 0

instance (report : Block mouseReportSize) : Decidable (Still report) :=
  inferInstanceAs (Decidable (_ ∧ _ ∧ _))

variable {evs fs : List InputEvent} {p : Pointer} {ring : InputRing}
  {report : Block mouseReportSize}

theorem pointer_append : pointer (evs ++ fs) = fs.foldl Pointer.note (pointer evs) :=
  List.foldl_append

/-- Key events do not touch the mouse. -/
theorem foldl_note_keys (h : ∀ ev ∈ evs, ev.code ≠ none) : evs.foldl Pointer.note p = p := by
  induction evs with
  | nil => rfl
  | cons ev evs ih =>
      have hkey : p.note ev = p := by
        cases ev with
        | key sc ascii mods fl => rfl
        | mouse dx dy buttons => exact absurd rfl (h _ List.mem_cons_self)
      rw [List.foldl_cons, hkey]
      exact ih fun e he => h e (List.mem_cons_of_mem ev he)

theorem hidKbdPoll_ring (kbd : Kbd) (ring : InputRing) : ∃ evs : List InputEvent,
    (∀ ev ∈ evs, ev.code ≠ none) ∧ (hidKbdPoll kbd ring).2 = postAll ring evs := by
  by_cases h : kbd.active = true ∧ uhciTdDone kbd.pollTd = true ∧ uhciTdError kbd.pollTd = false
  · refine ⟨changes kbd.prevReport kbd.reportBuf, fun ev hev hnone => ?_, ?_⟩
    · obtain ⟨sc, hsc, -⟩ := mem_changes hev
      rw [hsc] at hnone
      cases hnone
    · rw [hidKbdPoll_report h.1 h.2.1 h.2.2]
  · exact ⟨[], fun ev hev => absurd hev List.not_mem_nil, (hidKbdPoll_other h).2⟩

theorem hidMousePoll_report {mouse : Mouse} (ha : mouse.active = true)
    (hd : uhciTdDone mouse.pollTd = true) (he : uhciTdError mouse.pollTd = false) :
    (hidMousePoll mouse ring).2 = if Still mouse.reportBuf then ring
      else (inputRingPost ring (.mouse (mouse.reportBuf.byte 1).toInt8
        (mouse.reportBuf.byte 2).toInt8 (mouse.reportBuf.byte 0 &&& 0x07))).2 := by
  have hor : (mouse.reportBuf.byte 1).toInt8 ≠ 0 ∨ (mouse.reportBuf.byte 2).toInt8 ≠ 0 ∨
      mouse.reportBuf.byte 0 &&& 0x07 ≠ 0 ↔ ¬ Still mouse.reportBuf := by
    rw [Still, not_and_or, not_and_or]
  simp only [hidMousePoll, ha, hd, he, Bool.not_true, Bool.false_eq_true, if_false, hor]
  by_cases hi : Still mouse.reportBuf
  · rw [if_pos hi, if_neg (not_not.mpr hi)]
  · rw [if_neg hi, if_pos hi]

theorem hidMousePoll_other {mouse : Mouse} (h : ¬ (mouse.active = true ∧
    uhciTdDone mouse.pollTd = true ∧ uhciTdError mouse.pollTd = false)) :
    (hidMousePoll mouse ring).2 = ring := by
  unfold hidMousePoll
  split
  · rfl
  split
  · rfl
  split
  · rfl
  · simp_all

structure Trail where
  session : Session
  reports : List (Block mouseReportSize)

namespace Trail

variable {t : Trail} {a : Act} {status : UInt32}

def completed (t : Trail) (status : UInt32) (report : Block mouseReportSize) : Mouse :=
  { t.session.mouse with
    pollTd := { t.session.mouse.pollTd with status := status }, reportBuf := report }

/-- The poller takes the report. -/
def Consumes (t : Trail) (status : UInt32) (report : Block mouseReportSize) : Prop :=
  (t.completed status report).active = true ∧
    uhciTdDone (t.completed status report).pollTd = true ∧
    uhciTdError (t.completed status report).pollTd = false

instance {report : Block mouseReportSize} : Decidable (t.Consumes status report) :=
  inferInstanceAs (Decidable (_ ∧ _ ∧ _))

def step (t : Trail) : Act → Trail
  | .kbd status report => { t with session := t.session.step (.kbd status report) }
  | .mouse status report => ⟨t.session.step (.mouse status report),
      if t.Consumes status report then t.reports ++ [report] else t.reports⟩
  | .read => { t with session := t.session.step .read }

def Agrees (t : Trail) : Prop := pointer t.session.posted = reported t.reports

def HasRoom (t : Trail) : Act → Prop
  | .kbd _ _ => True
  | .mouse status report => t.Consumes status report → 0 < t.session.room
  | .read => True

/-- No idle report comes while a button is down. -/
def Tells (t : Trail) : Act → Prop
  | .kbd _ _ => True
  | .mouse status report => t.Consumes status report → Still report →
      (pointer t.session.posted).buttons = 0
  | .read => True

structure Start (t : Trail) : Prop where
  delivered : t.session.delivered = []
  head : t.session.ring.head = 0
  tail : t.session.ring.tail = 0
  reports : t.reports = []

structure Follows (t : Trail) : Prop where
  valid : t.session.ring.Valid
  agrees : t.Agrees

theorem Start.follows (h : t.Start) : t.Follows := by
  obtain ⟨hv, hp⟩ := InputRing.valid_front h.head h.tail
  refine ⟨hv, ?_⟩
  rw [Agrees, Session.posted, h.delivered, hp, h.reports]
  rfl

theorem Follows.kbd {report : Block kbdReportSize} (h : t.Follows) :
    (t.step (.kbd status report)).Follows := by
  obtain ⟨evs, hkeys, hring⟩ :=
    hidKbdPoll_ring (t.session.completed status report) t.session.ring
  obtain ⟨hv, hp⟩ := @InputRing.Valid.postAll _ evs h.valid
  have hring' : (t.step (.kbd status report)).session.ring = postAll t.session.ring evs := hring
  refine ⟨by rw [hring']; exact hv, ?_⟩
  change pointer (t.session.delivered ++ (t.step (.kbd status report)).session.ring.pending) = _
  rw [hring', hp, List.take_append, List.take_of_length_le Session.length_pending_le,
    ← List.append_assoc, pointer_append,
    foldl_note_keys fun ev hev => hkeys ev (List.mem_of_mem_take hev)]
  exact h.agrees

theorem Follows.read (h : t.Follows) : (t.step .read).Follows := by
  refine ⟨h.valid.read, ?_⟩
  change pointer (t.session.step .read).posted = _
  rw [Session.posted_read h.valid]
  exact h.agrees

theorem reported_concat {reports : List (Block mouseReportSize)} {report : Block mouseReportSize} :
    reported (reports ++ [report]) = (reported reports).take report := List.foldl_concat ..

/-- What a report that is received changes. -/
theorem Follows.mouse (h : t.Follows) (hc : t.Consumes status report)
    (hroom : 0 < t.session.room) : (t.step (.mouse status report)).session.ring.Valid ∧
      pointer (t.step (.mouse status report)).session.posted =
        if Still report then pointer t.session.posted
        else (pointer t.session.posted).take report := by
  have hring : (t.step (.mouse status report)).session.ring = _ :=
    @hidMousePoll_report t.session.ring (t.completed status report) hc.1 hc.2.1 hc.2.2
  change (t.step (.mouse status report)).session.ring = if Still report then _ else
    (inputRingPost _ (.mouse (report.byte 1).toInt8 (report.byte 2).toInt8
      (report.byte 0 &&& 0x07))).2 at hring
  by_cases hi : Still report
  · rw [if_pos hi] at hring ⊢
    refine ⟨by rw [hring]; exact h.valid, ?_⟩
    change pointer (t.session.delivered ++ (t.step (.mouse status report)).session.ring.pending) = _
    rw [hring]
    rfl
  · rw [if_neg hi] at hring ⊢
    refine ⟨by rw [hring]; exact h.valid.post, ?_⟩
    change pointer (t.session.delivered ++ (t.step (.mouse status report)).session.ring.pending) = _
    have hlen : t.session.ring.pending.length + 1 ≤ inputRingSize - 1 := by
      have hpos := hroom
      unfold Session.room at hpos
      omega
    rw [hring, h.valid.pending_post, List.take_of_length_le (by simpa using hlen),
      ← List.append_assoc, pointer_append]
    rfl

theorem step_reports (hc : t.Consumes status report) :
    reported (t.step (.mouse status report)).reports = (reported t.reports).take report := by
  change reported (if t.Consumes status report then _ else _) = _
  rw [if_pos hc, reported_concat]

theorem Follows.step (h : t.Follows) (hroom : t.HasRoom a) (hok : t.Tells a) :
    (t.step a).Follows := by
  cases a with
  | kbd status report => exact h.kbd
  | mouse status report =>
      by_cases hc : t.Consumes status report
      · obtain ⟨hv, hp⟩ := h.mouse hc (hroom hc)
        refine ⟨hv, ?_⟩
        rw [Agrees, hp, step_reports hc, ← h.agrees]
        split
        · next hi =>
          obtain ⟨hx, hy, hb⟩ := id hi
          refine Pointer.ext ((hok hc hi).trans hb.symm) ?_ ?_
          · change _ = _ + (report.byte 1).toInt8.toInt
            rw [hx]
            exact (Int.add_zero _).symm
          · change _ = _ + (report.byte 2).toInt8.toInt
            rw [hy]
            exact (Int.add_zero _).symm
        · rfl
      · have hring : (t.step (.mouse status report)).session.ring = t.session.ring :=
          hidMousePoll_other hc
        refine ⟨by rw [hring]; exact h.valid, ?_⟩
        change pointer (t.session.delivered ++
          (t.step (.mouse status report)).session.ring.pending) = reported (if _ then _ else _)
        rw [hring, if_neg hc]
        exact h.agrees
  | read => exact h.read

/-- An idle report while a button is down leaves the events behind the reports. -/
theorem Follows.not_agrees (h : t.Follows) (hroom : t.HasRoom a) (hbad : ¬ t.Tells a) :
    ¬ (t.step a).Agrees := by
  cases a with
  | kbd status report => exact absurd trivial hbad
  | mouse status report =>
      obtain ⟨hc, hbad⟩ := Classical.not_imp.mp hbad
      obtain ⟨hi, hdown⟩ := Classical.not_imp.mp hbad
      obtain ⟨-, hp⟩ := h.mouse hc (hroom hc)
      rw [Agrees, hp, step_reports hc, if_pos hi]
      intro heq
      exact hdown ((congrArg Pointer.buttons heq).trans hi.2.2)
  | read => exact absurd trivial hbad

/-- In every run in which the ring has room for the mouse events, the events tell what the
reports say after every report, exactly if no idle report comes while a button is down. -/
theorem agrees_iff {t₀ : Trail} (h₀ : t₀.Start) {acts : List Act}
    (hroom : Passes step HasRoom t₀ acts) :
    Always step Agrees t₀ acts ↔ Passes step Tells t₀ acts :=
  always_iff_passes h₀.follows (fun _ h => h.agrees) (fun _ _ h hd hok => h.step hd hok)
    (fun _ _ h hd hbad => h.not_agrees hd hbad) hroom

def initial : Trail := ⟨Session.initial, []⟩

theorem start_initial : initial.Start := ⟨rfl, rfl, rfl, rfl⟩

def mouseReport (bs : List UInt8) : Block mouseReportSize := (Block.zero _).patch 0 bs

/-- The button is released while the mouse moves. -/
theorem agrees_moving : Always step Agrees initial
    [.mouse 0 (mouseReport [1, 0, 0]), .mouse 0 (mouseReport [0, 5, 255])] := by
  have hroom : Passes step HasRoom initial
      [.mouse 0 (mouseReport [1, 0, 0]), .mouse 0 (mouseReport [0, 5, 255])] :=
    ⟨fun _ => by decide, fun _ => by decide +kernel, trivial⟩
  have htells : Passes step Tells initial
      [.mouse 0 (mouseReport [1, 0, 0]), .mouse 0 (mouseReport [0, 5, 255])] :=
    ⟨fun _ hi => absurd hi (by decide), fun _ hi => absurd hi (by decide), trivial⟩
  exact (agrees_iff start_initial hroom).mpr htells

/-- The button is pressed and released in place. -/
theorem not_agrees_click : ¬ ∀ t₀ acts, Start t₀ → Passes step HasRoom t₀ acts →
    Always step Agrees t₀ acts := by
  intro hclaim
  have hall := hclaim initial [.mouse 0 (mouseReport [1, 0, 0]), .mouse 0 (mouseReport [0, 0, 0])]
    start_initial ⟨fun _ => by decide, fun _ => by decide +kernel, trivial⟩
  have hlast : ¬ pointer ((initial.step (.mouse 0 (mouseReport [1, 0, 0]))).step
      (.mouse 0 (mouseReport [0, 0, 0]))).session.posted =
      reported [mouseReport [1, 0, 0], mouseReport [0, 0, 0]] := by
    decide +kernel
  exact hlast hall.2.2

end Trail

end Chimaera.Usb
