/-
The ring against an unbounded queue, over any sequence of calls: what has been read
and what is pending are together what was posted.
-/
import Chimaera.Usb.Ring

namespace Chimaera.Usb

inductive RingCall where
  | post (ev : InputEvent)
  | read

/-- The ring, with the events of the successful posts and those that the successful
reads have returned, oldest first. -/
structure RingTrace where
  ring : InputRing
  posted : List InputEvent
  taken : List InputEvent

namespace RingTrace

variable {t : RingTrace} {ev : InputEvent} {call : RingCall} {calls : List RingCall}

/-- One call; a post that fails and a read that fails add nothing. -/
def step (t : RingTrace) : RingCall → RingTrace
  | .post ev =>
      let r := inputRingPost t.ring ev
      ⟨r.2, if r.1 then t.posted ++ [ev] else t.posted, t.taken⟩
  | .read =>
      let r := inputRingRead t.ring
      ⟨r.2, t.posted, t.taken ++ r.1.toList⟩

/-- Any calls after `input_ring_init`. -/
def run (ring : InputRing) (calls : List RingCall) : RingTrace :=
  calls.foldl step ⟨inputRingInit ring, [], []⟩

/-- The ring holds, in order, what was posted and not read yet. -/
structure Sound (t : RingTrace) : Prop where
  valid : t.ring.Valid
  split : t.posted = t.taken ++ t.ring.pending

theorem sound_init (ring : InputRing) : Sound ⟨inputRingInit ring, [], []⟩ := by
  obtain ⟨hv, hp⟩ := @InputRing.valid_front (inputRingInit ring) rfl rfl
  refine ⟨hv, ?_⟩
  rw [hp]
  rfl

theorem Sound.length_posted (h : t.Sound) :
    t.posted.length = t.taken.length + t.ring.count := by
  rw [h.split, List.length_append, InputRing.length_pending]

theorem post_eq_false_iff (h : t.ring.Valid) :
    (inputRingPost t.ring ev).1 = false ↔ t.ring.count = inputRingSize - 1 := by
  rw [← h.full_iff, inputRingPost, InputRing.and_mask]
  split
  · next hfull => exact iff_of_true rfl hfull
  · next hroom => exact iff_of_false (fun hf => by cases hf) hroom

theorem post_of_eq_false (h : (inputRingPost t.ring ev).1 = false) :
    (inputRingPost t.ring ev).2 = t.ring := by
  rw [inputRingPost] at h ⊢
  split at h
  · next hfull => rw [if_pos hfull]
  · cases h

theorem Sound.post (h : t.Sound) : (t.step (.post ev)).Sound := by
  refine ⟨h.valid.post, ?_⟩
  rw [step]
  cases hr : (inputRingPost t.ring ev).1 with
  | false =>
      rw [if_neg Bool.false_ne_true]
      dsimp only
      rw [post_of_eq_false hr]
      exact h.split
  | true =>
      have hroom : t.ring.count ≠ inputRingSize - 1 := fun hfull => by
        rw [(post_eq_false_iff h.valid).mpr hfull] at hr
        cases hr
      have hlt := t.ring.count_lt
      rw [if_pos rfl, h.split, List.append_assoc]
      dsimp only
      rw [h.valid.pending_post, List.take_of_length_le]
      rw [List.length_append, InputRing.length_pending, List.length_singleton]
      omega

theorem Sound.read (h : t.Sound) : (t.step .read).Sound := by
  refine ⟨h.valid.read, ?_⟩
  rw [step]
  dsimp only
  cases hp : t.ring.pending with
  | nil =>
      rw [h.valid.read_empty hp, Option.toList_none, List.append_nil]
      exact h.split
  | cons ev evs =>
      obtain ⟨hev, hrest⟩ := h.valid.read_pending hp
      rw [hev, hrest, Option.toList_some, List.append_assoc, h.split, hp]
      rfl

theorem Sound.step (h : t.Sound) : (t.step call).Sound := by
  cases call with
  | post ev => exact h.post
  | read => exact h.read

theorem sound_run (ring : InputRing) (calls : List RingCall) : (run ring calls).Sound := by
  suffices hall : ∀ t : RingTrace, t.Sound → (calls.foldl RingTrace.step t).Sound from
    hall _ (sound_init ring)
  induction calls with
  | nil => exact fun _ h => h
  | cons call calls ih => exact fun t h => ih (t.step call) h.step

theorem Sound.read_eq_none_iff (h : t.Sound) :
    (inputRingRead t.ring).1 = none ↔ t.ring.count = 0 := by
  rw [← h.valid.empty_iff, inputRingRead]
  split
  · next hempty => exact iff_of_true rfl hempty
  · next hne => exact iff_of_false (fun hn => by cases hn) hne

end RingTrace

/-- After any calls, the events read are the first of those posted; a post fails exactly
when 63 of them are pending, and changes nothing then; a read fails exactly when none is. -/
theorem ring_fifo (ring : InputRing) (calls : List RingCall) :
    (RingTrace.run ring calls).taken <+: (RingTrace.run ring calls).posted ∧
    (∀ ev,
      ((inputRingPost (RingTrace.run ring calls).ring ev).1 = false ↔
        (RingTrace.run ring calls).posted.length =
          (RingTrace.run ring calls).taken.length + 63) ∧
      ((inputRingPost (RingTrace.run ring calls).ring ev).1 = false →
        (inputRingPost (RingTrace.run ring calls).ring ev).2 =
          (RingTrace.run ring calls).ring)) ∧
    ((inputRingRead (RingTrace.run ring calls).ring).1 = none ↔
      (RingTrace.run ring calls).posted.length =
        (RingTrace.run ring calls).taken.length) ∧
    (RingTrace.run ring calls).ring.head < 64 ∧
    (RingTrace.run ring calls).ring.tail < 64 := by
  have h := RingTrace.sound_run ring calls
  have hlen := h.length_posted
  refine ⟨⟨_, h.split.symm⟩, fun ev => ⟨?_, RingTrace.post_of_eq_false⟩, ?_, h.valid.head,
    h.valid.tail⟩
  · rw [RingTrace.post_eq_false_iff h.valid, hlen, Nat.add_left_cancel_iff]
    rfl
  · rw [h.read_eq_none_iff, hlen, Nat.add_eq_left]

end Chimaera.Usb
