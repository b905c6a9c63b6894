/-
The ring is a queue of at most 63 events: what is pending is a list, a post
appends to it unless it is full, and a read takes its head.
-/
import Chimaera.Usb.Hid
import Mathlib.Data.List.Basic

namespace Chimaera.Usb

variable {ring : InputRing} {ev : InputEvent} {evs : List InputEvent}

namespace InputRing

structure Valid (ring : InputRing) : Prop where
  head : ring.head < inputRingSize
  tail : ring.tail < inputRingSize

def count (ring : InputRing) : Nat := (ring.head + inputRingSize - ring.tail) % inputRingSize

def pending (ring : InputRing) : List InputEvent :=
  (List.range ring.count).map fun i => ring.events ((ring.tail + i) % inputRingSize)

@[simp] theorem length_pending : ring.pending.length = ring.count := by
  simp [pending]

theorem count_lt : ring.count < inputRingSize := Nat.mod_lt _ (by decide)

/-- A ring with both indices at the front. -/
theorem valid_front (hh : ring.head = 0) (ht : ring.tail = 0) :
    ring.Valid ∧ ring.pending = [] := by
  refine ⟨⟨by rw [hh]; decide, by rw [ht]; decide⟩, ?_⟩
  simp [pending, count, hh, ht, inputRingSize]

theorem and_mask (i : Nat) : i &&& (inputRingSize - 1) = i % inputRingSize :=
  Nat.and_two_pow_sub_one_eq_mod i 6

theorem Valid.full_iff (h : ring.Valid) :
    (ring.head + 1) % inputRingSize = ring.tail ↔ ring.count = inputRingSize - 1 := by
  have h₁ := h.head
  have h₂ := h.tail
  unfold count
  unfold inputRingSize at *
  omega

theorem Valid.empty_iff (h : ring.Valid) : ring.tail = ring.head ↔ ring.count = 0 := by
  have h₁ := h.head
  have h₂ := h.tail
  unfold count
  unfold inputRingSize at *
  omega

theorem Valid.post (h : ring.Valid) : (inputRingPost ring ev).2.Valid := by
  unfold inputRingPost
  simp only [and_mask]
  split
  · exact h
  · exact ⟨Nat.mod_lt _ (by decide), h.tail⟩

theorem Valid.read (h : ring.Valid) : (inputRingRead ring).2.Valid := by
  unfold inputRingRead
  simp only [and_mask]
  split
  · exact h
  · exact ⟨h.head, Nat.mod_lt _ (by decide)⟩

theorem Valid.pending_post (h : ring.Valid) :
    (inputRingPost ring ev).2.pending = (ring.pending ++ [ev]).take (inputRingSize - 1) := by
  have hlt := ring.count_lt
  simp only [inputRingPost, and_mask]
  by_cases hfull : ring.count = inputRingSize - 1
  · rw [if_pos (h.full_iff.mpr hfull), List.take_append_of_le_length (by simp [hfull]),
      List.take_of_length_le (by simp [hfull])]
  · rw [if_neg (mt h.full_iff.mp hfull), List.take_of_length_le (by simp; omega)]
    have h₁ := h.head
    have h₂ := h.tail
    have hcount : count ⟨Function.update ring.events ring.head ev,
        (ring.head + 1) % inputRingSize, ring.tail⟩ = ring.count + 1 := by
      simp only [count] at *
      unfold inputRingSize at *
      omega
    have hlast : (ring.tail + ring.count) % inputRingSize = ring.head := by
      unfold count
      unfold inputRingSize at *
      omega
    have hkeep : ∀ i < ring.count, (ring.tail + i) % inputRingSize ≠ ring.head := by
      intro i hi
      unfold count at hi hlt
      unfold inputRingSize at *
      omega
    unfold pending
    rw [hcount, List.range_succ, List.map_append]
    congr 1
    · apply List.map_congr_left
      intro i hi
      exact Function.update_of_ne (hkeep i (List.mem_range.mp hi)) _ _
    · simp [hlast]

theorem Valid.read_empty (h : ring.Valid) (hp : ring.pending = []) :
    inputRingRead ring = (none, ring) := by
  have hc : ring.count = 0 := by
    rw [← length_pending, hp]
    rfl
  rw [inputRingRead, if_pos (h.empty_iff.mpr hc)]

theorem Valid.read_pending (h : ring.Valid) (hp : ring.pending = ev :: evs) :
    (inputRingRead ring).1 = some ev ∧ (inputRingRead ring).2.pending = evs := by
  have hc : ring.count = evs.length + 1 := by
    rw [← length_pending, hp]
    rfl
  have h₁ := h.head
  have h₂ := h.tail
  have hcount : count ⟨ring.events, ring.head, (ring.tail + 1) % inputRingSize⟩ =
      evs.length := by
    simp only [count] at *
    unfold inputRingSize at *
    omega
  simp only [inputRingRead, and_mask]
  rw [if_neg (by rw [h.empty_iff]; omega)]
  rw [pending, hc, List.range_succ_eq_map, List.map_cons, List.map_map, List.cons.injEq] at hp
  obtain ⟨hev, hevs⟩ := hp
  refine ⟨by rw [← hev]; simp [Nat.mod_eq_of_lt h₂], ?_⟩
  rw [pending, hcount]
  conv_rhs => rw [← hevs]
  apply List.map_congr_left
  intro i _
  simp only [Function.comp_apply]
  congr 1
  unfold inputRingSize
  omega

end InputRing

def postAll (ring : InputRing) (evs : List InputEvent) : InputRing :=
  evs.foldl (fun ring ev => (inputRingPost ring ev).2) ring

theorem InputRing.Valid.postAll (h : ring.Valid) :
    (postAll ring evs).Valid ∧
      (Usb.postAll ring evs).pending = (ring.pending ++ evs).take (inputRingSize - 1) := by
  induction evs generalizing ring with
  | nil =>
      refine ⟨h, ?_⟩
      have := ring.count_lt
      rw [List.append_nil, List.take_of_length_le (by simp; omega)]
      rfl
  | cons ev evs ih =>
      have hpost : (inputRingPost ring ev).2.Valid := h.post
      obtain ⟨hv, hp⟩ := ih hpost
      refine ⟨hv, hp.trans ?_⟩
      rw [h.pending_post]
      by_cases hfull : ring.pending.length + 1 ≤ inputRingSize - 1
      · rw [List.take_of_length_le (l := ring.pending ++ [ev]) (by simpa using hfull)]
        simp
      · have hlen : ring.pending.length = inputRingSize - 1 := by
          have := ring.count_lt
          rw [length_pending] at *
          omega
        simp [← hlen]

end Chimaera.Usb
