/-
The key events of a keyboard whose reports list each held key once: for every key
a press, a release, a press and so on, as the reports say.
-/
import Chimaera.Usb.Keyboard

namespace Chimaera.Usb

variable {prev cur : Block kbdReportSize} {c f : UInt8} {evs fs : List InputEvent}
  {fl : List UInt8}

/-- No key slot has the code 0x01, and none repeats the code of another key. -/
structure Clean (report : Block kbdReportSize) : Prop where
  noRollover : ∀ i ∈ keySlots, report.byte i ≠ 0x01
  once : ∀ i ∈ keySlots, ∀ j ∈ keySlots, report.byte i = report.byte j → report.byte i ≠ 0 → i = j

theorem clean_zero : Clean (Block.zero kbdReportSize) := by
  constructor
  · intro i _
    rw [Block.byte_zero]
    decide
  · intro i _ j _ _ h
    rw [Block.byte_zero] at h
    exact absurd rfl h

theorem Clean.not_isRollover (h : Clean cur) : isRollover cur = false := by
  by_contra hr
  rw [Bool.not_eq_false, isRollover, List.all_eq_true] at hr
  exact h.noRollover 2 (by decide) (beq_iff_eq.mp (hr 2 (by decide)))

/-- Its codes are all that it holds. -/
theorem Clean.codes_eq (h : Clean cur) : codes cur c = (c != 0 && heldIn cur c) := by
  unfold codes
  cases hh : heldIn cur c with
  | false => rw [Bool.and_false, Bool.and_false]
  | true =>
      rw [heldIn, List.any_eq_true] at hh
      obtain ⟨i, hi, heq⟩ := hh
      have hne : (c != 0x01) = true := by
        rw [bne_iff_ne, ← beq_iff_eq.mp heq]
        exact h.noRollover i hi
      rw [hne, Bool.and_true]

def InputEvent.flags : InputEvent → UInt8
  | .key _ _ _ flags => flags
  | .mouse _ _ _ => 0

/-- The flags of the events for the code `c`. -/
def strokes (evs : List InputEvent) (c : UInt8) : List UInt8 :=
  (evs.filter fun ev => ev.code == some c).map InputEvent.flags

/-- A press, a release, a press and so on. -/
def Alternates (fl : List UInt8) : Prop :=
  ∀ i (h : i < fl.length), fl[i] = if i % 2 = 0 then keyFlagPress else keyFlagRelease

theorem alternates_nil : Alternates [] := fun _ h => absurd h (Nat.not_lt_zero _)

theorem Alternates.concat (h : Alternates fl)
    (hf : f = if fl.length % 2 = 0 then keyFlagPress else keyFlagRelease) :
    Alternates (fl ++ [f]) := by
  intro i hi
  rw [List.length_append, List.length_singleton] at hi
  by_cases hlast : i = fl.length
  · subst hlast
    rw [List.getElem_concat_length rfl]
    exact hf
  · rw [List.getElem_append_left (by omega)]
    exact h i (by omega)

theorem strokes_append : strokes (evs ++ fs) c = strokes evs c ++ strokes fs c := by
  rw [strokes, List.filter_append, List.map_append]
  rfl

/-- Where the codes differ, a code picks out one event. -/
theorem filter_code {ev : InputEvent} (hn : (evs.map InputEvent.code).Nodup) (hev : ev ∈ evs)
    (hcode : ev.code = some c) : (evs.filter fun e => e.code == some c) = [ev] := by
  induction evs with
  | nil => cases hev
  | cons e evs ih =>
      rw [List.map_cons, List.nodup_cons] at hn
      rcases List.mem_cons.mp hev with rfl | hev
      · rw [List.filter_cons_of_pos (by rw [hcode]; exact beq_self_eq_true _),
          List.filter_eq_nil_iff.mpr]
        intro e he heq
        rw [beq_iff_eq, ← hcode] at heq
        exact hn.1 (heq ▸ List.mem_map_of_mem he)
      · rw [List.filter_cons_of_neg, ih hn.2 hev]
        intro heq
        rw [beq_iff_eq, ← hcode] at heq
        exact hn.1 (heq ▸ List.mem_map_of_mem hev)

theorem nodup_slots {p : Nat → Bool} {g : UInt8 → InputEvent} {r : Block kbdReportSize}
    (hr : Clean r) (hg : ∀ sc, (g sc).code = some sc)
    (hp : ∀ i ∈ keySlots, p i = true → r.byte i ≠ 0) :
    (((keySlots.filter p).map fun i => g (r.byte i)).map InputEvent.code).Nodup := by
  rw [List.map_map]
  refine List.Nodup.map_on ?_ (List.Nodup.filter p (by decide))
  intro i hi j hj heq
  obtain ⟨hi, hpi⟩ := List.mem_filter.mp hi
  obtain ⟨hj, -⟩ := List.mem_filter.mp hj
  change (g (r.byte i)).code = (g (r.byte j)).code at heq
  rw [hg, hg, Option.some.injEq] at heq
  exact hr.once i hi j hj heq (hp i hi hpi)

theorem codes_ne_zero (h : codes cur c = true) : c ≠ 0 := by
  rw [codes, Bool.and_eq_true, Bool.and_eq_true, bne_iff_ne] at h
  exact h.1.1

/-- The events of a report are for different keys. -/
theorem nodup_changes (hp : Clean prev) (hc : Clean cur) :
    ((changes prev cur).map InputEvent.code).Nodup := by
  unfold changes
  rw [List.map_append]
  refine List.Nodup.append ?_ ?_ ?_
  · refine nodup_slots hp (fun _ => rfl) fun i _ hi => ?_
    rw [Bool.and_eq_true] at hi
    exact codes_ne_zero hi.1
  · refine nodup_slots hc (fun _ => rfl) fun i _ hi => ?_
    rw [Bool.and_eq_true] at hi
    exact codes_ne_zero hi.1
  · intro code h₁ h₂
    obtain ⟨ev, hev, rfl⟩ := List.mem_map.mp h₁
    obtain ⟨ev', hev', heq⟩ := List.mem_map.mp h₂
    obtain ⟨i, hi, rfl⟩ := List.mem_map.mp hev
    obtain ⟨j, hj, rfl⟩ := List.mem_map.mp hev'
    obtain ⟨hi, hpi⟩ := List.mem_filter.mp hi
    obtain ⟨hj, hpj⟩ := List.mem_filter.mp hj
    change some (cur.byte j) = some (prev.byte i) at heq
    rw [Option.some.injEq] at heq
    rw [← heq, Bool.and_eq_true, heldIn_slot hj] at hpi
    exact absurd hpi.2 (by decide)

theorem strokes_changes (hp : Clean prev) (hc : Clean cur) : strokes (changes prev cur) c =
    if codes prev c = codes cur c then []
    else [if codes cur c then keyFlagPress else keyFlagRelease] := by
  split
  · next heq =>
    rw [strokes, List.filter_eq_nil_iff.mpr, List.map_nil]
    intro ev hev hcode
    obtain ⟨sc, hsc, hne, -⟩ := mem_changes hev
    rw [beq_iff_eq, hsc, Option.some.injEq] at hcode
    exact hne (hcode ▸ heq)
  · next hne =>
    obtain ⟨ev, hev, hcode⟩ := exists_change hne
    obtain ⟨sc, hsc, -, -, hform⟩ := mem_changes hev
    obtain rfl : sc = c := Option.some.inj (hsc.symm.trans hcode)
    rw [strokes, filter_code (nodup_changes hp hc) hev hcode, hform]
    cases codes cur sc with
    | true => rfl
    | false => rfl

/-- The strokes so far go with the keys that are down. -/
def Stroked (evs : List InputEvent) (prev : Block kbdReportSize) : Prop :=
  ∀ c, Alternates (strokes evs c) ∧ (codes prev c = true ↔ (strokes evs c).length % 2 = 1)

theorem Stroked.changes (h : Stroked evs prev) (hp : Clean prev) (hc : Clean cur) :
    Stroked (evs ++ changes prev cur) cur := by
  intro c
  obtain ⟨halt, hdown⟩ := h c
  rw [strokes_append, strokes_changes hp hc]
  split
  · next heq =>
    rw [List.append_nil, ← heq]
    exact ⟨halt, hdown⟩
  · next hne =>
    rw [List.length_append, List.length_singleton]
    cases hcur : codes cur c with
    | true =>
        have heven : (strokes evs c).length % 2 = 0 := by
          by_contra hodd
          exact hne ((hdown.mpr (by omega)).trans hcur.symm)
        refine ⟨halt.concat ?_, iff_of_true rfl (by omega)⟩
        rw [if_pos rfl, if_pos heven]
    | false =>
        have hodd : (strokes evs c).length % 2 = 1 := by
          refine hdown.mp (Bool.eq_true_of_not_eq_false fun hprev => ?_)
          exact hne (hprev.trans hcur.symm)
        refine ⟨halt.concat ?_, iff_of_false Bool.false_ne_true (by omega)⟩
        rw [if_neg Bool.false_ne_true, if_neg (by omega)]

namespace Session

variable {s s₀ : Session} {a : Act} {status : UInt32} {report : Block kbdReportSize}

def posted (s : Session) : List InputEvent := s.delivered ++ s.ring.pending

/-- Every report that is received lists each key once, and the ring has room for its
events. -/
def Orderly (s : Session) : Act → Prop
  | .kbd status report => s.Consumes status report →
      Clean report ∧ (changes s.kbd.prevReport report).length ≤ s.room
  | .mouse _ _ => True
  | .read => True

theorem Orderly.fits (h : s.Orderly a) : s.Fits a := by
  cases a with
  | kbd status report =>
      intro hc
      obtain ⟨hclean, hroom⟩ := h hc
      rw [List.drop_eq_nil_of_le hroom]
      refine ⟨fun ev hev => absurd hev List.not_mem_nil, fun hroll => ?_⟩
      rw [hclean.not_isRollover] at hroll
      cases hroll
  | mouse status report => trivial
  | read => trivial

theorem Reaches.fits (h : Reaches Orderly s₀ s) : Reaches Fits s₀ s := by
  induction h with
  | start => exact .start
  | next _ hok ih => exact ih.next hok.fits

/-- A report posts its releases and then its presses. -/
theorem posted_report (h : s.Tracks) (hok : s.Orderly (.kbd status report))
    (hc : s.Consumes status report) : (s.step (.kbd status report)).posted =
      s.posted ++ releases s.kbd.prevReport report ++ presses s.kbd.prevReport report := by
  obtain ⟨-, -, hp, -⟩ := step_kbd_report h.valid hc
  rw [List.take_of_length_le (hok hc).2] at hp
  change s.delivered ++ (s.step (.kbd status report)).ring.pending = _
  rw [hp, changes, posted, List.append_assoc, List.append_assoc]

theorem posted_read (h : s.ring.Valid) : (s.step .read).posted = s.posted := by
  simp only [posted, step]
  cases hp : s.ring.pending with
  | nil =>
      rw [h.read_empty hp, hp]
      exact congrArg (· ++ []) (List.append_nil _)
  | cons ev evs =>
      obtain ⟨h₁, h₂⟩ := h.read_pending hp
      rw [h₁, h₂, Option.toList_some, List.append_assoc, List.singleton_append]

theorem strokes_mouse {report : Block mouseReportSize} (h : s.Tracks) (c : UInt8) :
    strokes (s.step (.mouse status report)).posted c = strokes s.posted c := by
  rcases hidMousePoll_ring { s.mouse with
      pollTd := { s.mouse.pollTd with status := status }, reportBuf := report } s.ring with
    heq | ⟨dx, dy, buttons, heq⟩
  · simp only [posted, step, heq]
  · simp only [posted, step, heq, h.valid.pending_post]
    rw [List.take_append, List.take_of_length_le length_pending_le, ← List.append_assoc,
      strokes_append]
    cases inputRingSize - 1 - s.ring.pending.length with
    | zero => exact List.append_nil _
    | succ n =>
        rw [List.take_succ_cons, List.take_nil]
        exact List.append_nil _

/-- What holds between the reports. -/
structure Orders (s : Session) : Prop where
  clean : Clean s.kbd.prevReport
  last : s.lastReport = s.kbd.prevReport
  stroked : Stroked s.posted s.kbd.prevReport

theorem Start.orders (h : s.Start) : s.Orders := by
  obtain ⟨-, hp⟩ := InputRing.valid_front h.head h.tail
  refine ⟨by rw [h.prevReport]; exact clean_zero, by rw [h.prevReport, h.lastReport], ?_⟩
  intro c
  rw [posted, h.delivered, hp, h.prevReport, codes_zero]
  exact ⟨alternates_nil, iff_of_false Bool.false_ne_true Nat.zero_ne_one⟩

theorem Orders.step (h : s.Orders) (ht : s.Tracks) (hok : s.Orderly a) : (s.step a).Orders := by
  cases a with
  | kbd status report =>
      by_cases hc : s.Consumes status report
      · obtain ⟨hprev, -, -, hlast⟩ := step_kbd_report ht.valid hc
        have hclean := (hok hc).1
        rw [if_pos hclean.not_isRollover] at hlast
        refine ⟨by rw [hprev]; exact hclean, by rw [hprev, hlast], ?_⟩
        rw [hprev, posted_report ht hok hc, List.append_assoc]
        exact h.stroked.changes h.clean hclean
      · obtain ⟨h₁, h₂, h₃⟩ := step_kbd_other hc
        have hposted : (s.step (.kbd status report)).posted = s.posted := by
          unfold posted
          rw [h₂]
          rfl
        exact ⟨by rw [h₁]; exact h.clean, by rw [h₁, h₃]; exact h.last,
          by rw [h₁, hposted]; exact h.stroked⟩
  | mouse status report =>
      refine ⟨h.clean, h.last, fun c => ?_⟩
      rw [strokes_mouse ht]
      exact h.stroked c
  | read =>
      refine ⟨h.clean, h.last, ?_⟩
      rw [posted_read ht.valid]
      exact h.stroked

theorem Reaches.orders (h₀ : s₀.Start) (h : Reaches Orderly s₀ s) : s.Orders := by
  induction h with
  | start => exact h₀.orders
  | next hr hok ih => exact ih.step (hr.fits.tracks h₀) hok

/-- In every run of reports that list each held key once, with room in the ring: each key is
pressed and released in turn, the keys that are down are those in the last report, and a
report posts all releases before all presses. -/
theorem Reaches.strokes_alternate (h₀ : s₀.Start) (h : Reaches Orderly s₀ s) :
    (∀ c, Alternates (strokes s.posted c)) ∧
    (∀ c, pressed s.posted c = (c != 0 && heldIn s.lastReport c)) ∧
    ∀ status report, s.Orderly (.kbd status report) → s.Consumes status report →
      ∃ rs ps, (s.step (.kbd status report)).posted = s.posted ++ rs ++ ps ∧
        (∀ ev ∈ rs, ev.flags = keyFlagRelease) ∧ (∀ ev ∈ ps, ev.flags = keyFlagPress) := by
  have ho := h.orders h₀
  have ht := h.fits.tracks h₀
  refine ⟨fun c => (ho.stroked c).1, fun c => ?_, fun status report hok hc =>
    ⟨_, _, posted_report ht hok hc, ?_, ?_⟩⟩
  · rw [ho.last, ← ho.clean.codes_eq]
    exact congrFun ht.posted c
  · intro ev hev
    obtain ⟨i, -, rfl⟩ := List.mem_map.mp hev
    rfl
  · intro ev hev
    obtain ⟨i, -, rfl⟩ := List.mem_map.mp hev
    rfl

/-- One key is held, then another in its slot and the first in the next one. -/
def swapped : Session :=
  (initial.step (.kbd 0 (Session.report [4]))).step (.kbd 0 (Session.report [5, 4]))

theorem strokes_swapped : (∀ c, Alternates (strokes swapped.posted c)) ∧
    ∀ c, pressed swapped.posted c = (c != 0 && heldIn (Session.report [5, 4]) c) := by
  have h₁ : Clean (Session.report [4]) := ⟨by decide, by decide⟩
  have h₂ : Clean (Session.report [5, 4]) := ⟨by decide, by decide⟩
  have hfirst : Reaches Orderly initial (initial.step (.kbd 0 (Session.report [4]))) :=
    .next .start fun _ => ⟨h₁, by decide⟩
  have hrun : Reaches Orderly initial swapped := .next hfirst fun _ => ⟨h₂, by decide⟩
  obtain ⟨halt, hdown, -⟩ := Reaches.strokes_alternate start_initial hrun
  exact ⟨halt, hdown⟩

end Session

end Chimaera.Usb
