/-
Changing a directory: the search for free slots, `dir_add_entry`, the deletion
loop of `fat32_unlink`, and rewriting a short entry in place.
-/
import Chimaera.Fat32.Directory

namespace Chimaera.Fat32

open Prog

/-- Put `es` in the place of the entries from number `s` on. -/
def overwrite (S : List DirEntry) (s : Nat) (es : List DirEntry) : List DirEntry :=
  S.take s ++ es ++ S.drop (s + es.length)

def IsFree (e : DirEntry) : Prop := e.first = 0 ∨ e.first = 0xE5

/-- `n` free slots from `s` on, with no free slot right before them. -/
structure FreeRun (S : List DirEntry) (s n : Nat) : Prop where
  le : s + n ≤ S.length
  free : ∀ j, s ≤ j → j < s + n → ∀ e, S[j]? = some e → IsFree e
  start : 0 < s → ∀ e, S[s - 1]? = some e → ¬ IsFree e

theorem overwrite_cons {S : List DirEntry} {s : Nat} {e : DirEntry} {es : List DirEntry}
    (hs : s < S.length) : overwrite (S.set s e) (s + 1) es = overwrite S s (e :: es) := by
  have hset : S.set s e = S.take s ++ e :: S.drop (s + 1) := by
    rw [List.set_eq_take_append_cons_drop, if_pos hs]
  have hlen : (S.take s).length = s := by
    rw [List.length_take]
    omega
  have htake : (S.set s e).take (s + 1) = S.take s ++ [e] := by
    rw [hset, List.take_append, hlen, Nat.add_sub_cancel_left,
      List.take_of_length_le (by omega)]
    rfl
  have hdrop : (S.set s e).drop (s + 1 + es.length) = S.drop (s + 1 + es.length) := by
    rw [hset, List.drop_append, hlen, List.drop_eq_nil_of_le (by omega), List.nil_append]
    have hk : s + 1 + es.length - s = es.length + 1 := by omega
    rw [hk, List.drop_succ_cons, List.drop_drop]
  have hcount : s + (es.length + 1) = s + 1 + es.length := by omega
  unfold overwrite
  rw [htake, hdrop, List.length_cons, hcount]
  simp

theorem overwrite_append {P H Q es : List DirEntry} {s : Nat} (hs : P.length = s)
    (hlen : H.length = es.length) : overwrite (P ++ H ++ Q) s es = P ++ es ++ Q := by
  unfold overwrite
  rw [List.append_assoc P, List.take_left' hs, List.drop_append, hs, Nat.add_sub_cancel_left,
    List.drop_eq_nil_of_le (by omega), List.nil_append, List.drop_left' hlen]

theorem set_append {P Q : List DirEntry} {s : Nat} {d e : DirEntry} (hs : P.length = s) :
    (P ++ d :: Q).set s e = P ++ e :: Q := by
  subst hs
  simp

namespace View

variable {w : View} {xs ys : List Nat} {s i : Nat} {es : List DirEntry}

def setSlots (w : View) (xs : List Nat) : Nat → List DirEntry → View
  | _, [] => w
  | s, e :: es => (w.setSlot xs s e).setSlots xs (s + 1) es

@[simp] theorem vol_setSlots : (w.setSlots xs s es).vol = w.vol := by
  induction es generalizing w s with
  | nil => rfl
  | cons e es ih => exact ih

@[simp] theorem fat_setSlots : (w.setSlots xs s es).fat = w.fat := by
  induction es generalizing w s with
  | nil => rfl
  | cons e es ih => exact ih

@[simp] theorem fds_setSlots : (w.setSlots xs s es).fds = w.fds := by
  induction es generalizing w s with
  | nil => rfl
  | cons e es ih => exact ih

theorem setSlots_append {fs : List DirEntry} : w.setSlots xs s (es ++ fs) =
    (w.setSlots xs s es).setSlots xs (s + es.length) fs := by
  induction es generalizing w s with
  | nil => rfl
  | cons e es ih =>
      have hlen : s + (es.length + 1) = s + 1 + es.length := by omega
      rw [List.cons_append, setSlots, setSlots, ih, List.length_cons, hlen]

theorem slots_setSlots (hnd : xs.Nodup) (hs : s + es.length ≤ xs.length * w.vol.perCluster) :
    (w.setSlots xs s es).slots xs = overwrite (w.slots xs) s es := by
  induction es generalizing w s with
  | nil => simp [setSlots, overwrite]
  | cons e es ih =>
      rw [List.length_cons] at hs
      have hlt : s < xs.length * w.vol.perCluster := by omega
      rw [setSlots, ih (by rw [vol_setSlot]; omega), slots_setSlot hnd hlt, overwrite_cons]
      rw [length_slots]
      exact hlt

/-- Only sectors of the directory's clusters change. -/
theorem sec_setSlot (hs : s < xs.length * w.vol.perCluster) {e : DirEntry} {k : Nat}
    (hk : k ∉ xs) : (w.setSlot xs s e).sec k = w.sec k := by
  unfold setSlot setEntry
  rw [sec_setSec, Function.update_of_ne]
  rintro rfl
  exact hk (getD_mem hs)

theorem sec_setSlots (hs : s + es.length ≤ xs.length * w.vol.perCluster) {k : Nat}
    (hk : k ∉ xs) : (w.setSlots xs s es).sec k = w.sec k := by
  induction es generalizing w s with
  | nil => rfl
  | cons e es ih =>
      rw [List.length_cons] at hs
      rw [setSlots, ih (by rw [vol_setSlot]; omega), sec_setSlot (by omega) hk]

theorem Chain.of_fat {w' : View} {a : Nat} (h : w.Chain a xs) (hv : w'.vol = w.vol)
    (hf : ∀ x ∈ xs, w'.fat x = w.fat x) : w'.Chain a xs := by
  unfold View.Chain at h ⊢
  rw [hv]
  exact Links.Chain.congr h hf

theorem Chain.setSlots {a : Nat} (h : w.Chain a ys) : (w.setSlots xs s es).Chain a ys :=
  h.of_fat vol_setSlots fun x _ => by rw [fat_setSlots]

theorem Chain.nodup {a n : Nat} (h : w.Chain a xs) (hs : w.vol.Sound n) : xs.Nodup :=
  Links.Chain.nodup (fun _ hx => hs.not_eoc hx) h

end View

section FreeRun

variable {need : Nat} {pos : Nat → DirPos} {S : List DirEntry}

/-- What the search knows before slot `i`. -/
structure RunInv (need : Nat) (pos : Nat → DirPos) (S : List DirEntry) (i : Nat)
    (st : RunState) : Prop where
  le : st.freeRun ≤ i
  lt : st.freeRun < need
  free : ∀ j, i - st.freeRun ≤ j → j < i → ∀ e, S[j]? = some e → IsFree e
  start : st.freeRun < i → ∀ e, S[i - st.freeRun - 1]? = some e → ¬ IsFree e
  pos : 0 < st.freeRun → st.runStart = pos (i - st.freeRun)

variable (need pos S) in
theorem scan_freeRun (es : List DirEntry) (i : Nat) (st : RunState)
    (hes : S.drop i = es) (hi : i ≤ S.length) (hinv : RunInv need pos S i st) :
    match scanSlots (freeRunStep need) pos st i es with
    | .inl r => ∃ s, r = pos s ∧ FreeRun S s need
    | .inr st' => RunInv need pos S S.length st' := by
  induction es generalizing i st with
  | nil =>
      have hlen : S.length ≤ i := List.drop_eq_nil_iff.mp hes
      have heq : i = S.length := by omega
      subst heq
      exact hinv
  | cons e es ih =>
      have hlt : i < S.length := by
        by_contra hge
        rw [List.drop_eq_nil_of_le (by omega)] at hes
        cases hes
      rw [List.drop_eq_getElem_cons hlt, List.cons.injEq] at hes
      obtain ⟨he, hrest⟩ := hes
      have hget : S[i]? = some e := by rw [List.getElem?_eq_getElem hlt, he]
      obtain ⟨hle, hlt', hfree, hstart, hpos⟩ := hinv
      rw [scanSlots, freeRunStep]
      by_cases hf : e.first = 0 ∨ e.first = 0xE5
      · rw [if_pos hf]
        have hfree' : ∀ j, i - st.freeRun ≤ j → j < i + 1 → ∀ d, S[j]? = some d →
            IsFree d := by
          intro j hj hj' d hd
          rcases Nat.lt_or_ge j i with h | h
          · exact hfree j hj h d hd
          · have heq : j = i := by omega
            subst heq
            rw [hget] at hd
            exact Option.some.inj hd ▸ hf
        have hrun : (if st.freeRun = 0 then pos i else st.runStart) = pos (i - st.freeRun) := by
          split
          · next h0 => rw [h0, Nat.sub_zero]
          · next h0 => exact hpos (by omega)
        by_cases hdone : need ≤ st.freeRun + 1
        · simp only [hdone, if_true, hrun]
          refine ⟨i - st.freeRun, rfl, by omega, ?_, ?_⟩
          · exact fun j hj hj' => hfree' j hj (by omega)
          · exact fun h0 => hstart (by omega)
        · simp only [hdone, if_false, hrun]
          refine ih _ _ hrest hlt ⟨by simp; omega, by simp; omega, ?_, ?_, ?_⟩
          · intro j hj hj'
            exact hfree' j (by simp at hj; omega) hj'
          · intro h d hd
            have hidx : i + 1 - (st.freeRun + 1) - 1 = i - st.freeRun - 1 := by omega
            simp only [hidx] at hd
            exact hstart (by simp at h; omega) d hd
          · intro _
            simp
      · rw [if_neg hf]
        refine ih _ _ hrest hlt ⟨by simp, by simp; omega, ?_, ?_, ?_⟩
        · intro j hj hj'
          simp at hj
          omega
        · intro _ d hd
          simp only [Nat.sub_zero, Nat.add_sub_cancel] at hd
          rw [hget] at hd
          exact Option.some.inj hd ▸ hf
        · intro h
          simp at h

/-- The search ends where enough free slots are in a row. -/
theorem scan_freeRun_stops {es : List DirEntry} {i : Nat} {st : RunState}
    (hfree : ∀ e ∈ es, IsFree e) (hne : 1 ≤ es.length)
    (hlen : need ≤ st.freeRun + es.length) :
    ∃ r, scanSlots (freeRunStep need) pos st i es = .inl r := by
  induction es generalizing i st with
  | nil => exact absurd hne (by simp)
  | cons e es ih =>
      have hfe : e.first = 0 ∨ e.first = 0xE5 := hfree e List.mem_cons_self
      rw [scanSlots, freeRunStep, if_pos hfe]
      rw [List.length_cons] at hlen
      by_cases hdone : need ≤ st.freeRun + 1
      · refine ⟨if st.freeRun = 0 then pos i else st.runStart, ?_⟩
        simp only [hdone, if_true]
      · simp only [hdone, if_false]
        exact ih (fun d hd => hfree d (List.mem_cons_of_mem e hd)) (by omega) (by simp; omega)

/-- A search that comes to the end saw no run. -/
theorem scan_freeRun_none {st st' : RunState} (hneed : 1 ≤ need)
    (h : scanSlots (freeRunStep need) pos st 0 S = .inr st') (s : Nat) : ¬ FreeRun S s need := by
  intro hrun
  have hle := hrun.le
  have hsplit : S = S.take s ++ ((S.drop s).take need ++ S.drop (s + need)) := by
    rw [← List.drop_drop, List.take_append_drop, List.take_append_drop]
  have hlen : ((S.drop s).take need).length = need := by
    rw [List.length_take, List.length_drop]
    omega
  have hfree : ∀ e ∈ (S.drop s).take need, IsFree e := by
    intro e he
    obtain ⟨j, hj, rfl⟩ := List.getElem_of_mem he
    rw [hlen] at hj
    refine hrun.free (s + j) (by omega) (by omega) _ ?_
    rw [List.getElem_take, List.getElem_drop, List.getElem?_eq_getElem (by omega)]
  rw [hsplit, scanSlots_append] at h
  cases hpre : scanSlots (freeRunStep need) pos st 0 (S.take s) with
  | inl r => simp [hpre] at h
  | inr st₁ =>
      obtain ⟨r, hr⟩ : ∃ r, scanSlots (freeRunStep need) pos st₁ (0 + (S.take s).length)
          ((S.drop s).take need) = .inl r :=
        scan_freeRun_stops hfree (by omega) (by omega)
      rw [hpre] at h
      simp only at h
      rw [scanSlots_append, hr] at h
      cases h

end FreeRun

/-- In `extra` further slots behind `S`, `need` slots in a row are free. -/
def RoomFor (S : List DirEntry) (extra need : Nat) : Prop :=
  ∃ i, i + need ≤ S.length + extra ∧
    ∀ j, i ≤ j → j < i + need → ∀ e, S[j]? = some e → IsFree e

section Room

variable {need extra i : Nat} {S : List DirEntry} {pos : Nat → DirPos} {st : RunState}

/-- Free slots in a row are part of a run. -/
theorem exists_freeRun (hle : i + need ≤ S.length)
    (hfree : ∀ j, i ≤ j → j < i + need → ∀ e, S[j]? = some e → IsFree e) :
    ∃ s, FreeRun S s need := by
  induction i with
  | zero => exact ⟨0, hle, hfree, fun h => absurd h (Nat.lt_irrefl 0)⟩
  | succ i ih =>
      by_cases hprev : ∀ e, S[i]? = some e → IsFree e
      · refine ih (by omega) fun j hj hj' e he => ?_
        rcases Nat.eq_or_lt_of_le hj with rfl | hlt
        · exact hprev e he
        · exact hfree j hlt (by omega) e he
      · refine ⟨i + 1, hle, hfree, fun _ e he hf => hprev fun e' he' => ?_⟩
        rw [Nat.add_sub_cancel, he', Option.some.injEq] at he
        exact he ▸ hf

/-- Behind a search that saw no run, the free slots at the end and the further ones make room. -/
theorem roomFor_iff (hnone : ∀ s, ¬ FreeRun S s need) (h : RunInv need pos S S.length st) :
    RoomFor S extra need ↔ need ≤ st.freeRun + extra := by
  have hle := h.le
  constructor
  · rintro ⟨i, hi, hfree⟩
    by_contra hmore
    have hin : ¬ i + need ≤ S.length := fun hin => by
      obtain ⟨s, hs⟩ := exists_freeRun hin hfree
      exact hnone s hs
    have hlt : S.length - st.freeRun - 1 < S.length := by omega
    exact h.start (by omega) _ (List.getElem?_eq_getElem hlt)
      (hfree _ (by omega) (by omega) _ (List.getElem?_eq_getElem hlt))
  · intro hmore
    refine ⟨S.length - st.freeRun, by omega, fun j hj _ e he => ?_⟩
    exact h.free j hj (List.getElem?_eq_some_iff.mp he).1 e he

theorem roomFor_of_le (h : need ≤ extra) : RoomFor S extra need :=
  ⟨S.length, by omega, fun j hj _ e he => by
    have := (List.getElem?_eq_some_iff.mp he).1
    omega⟩

end Room

/-- A run of `need` slots costs `n` more clusters: one when no such run is free. -/
def GrowsBy (S : List DirEntry) (need n : Nat) : Prop :=
  (n = 0 ∧ ∃ i, FreeRun S i need) ∨ (n = 1 ∧ ∀ i, ¬ FreeRun S i need)

theorem GrowsBy.unique {S : List DirEntry} {need m n : Nat} (h : GrowsBy S need m)
    (h' : GrowsBy S need n) : m = n := by
  rcases h with ⟨rfl, i, hi⟩ | ⟨rfl, hno⟩
  · rcases h' with ⟨rfl, -⟩ | ⟨-, hno⟩
    · rfl
    · exact absurd hi (hno i)
  · rcases h' with ⟨-, i, hi⟩ | ⟨rfl, -⟩
    · exact absurd hi (hno i)
    · rfl

theorem exists_growsBy (S : List DirEntry) (need : Nat) : ∃ n, GrowsBy S need n := by
  by_cases h : ∃ i, FreeRun S i need
  · exact ⟨0, Or.inl ⟨rfl, h⟩⟩
  · exact ⟨1, Or.inr ⟨rfl, fun i hi => h ⟨i, hi⟩⟩⟩

theorem GrowsBy.le {S : List DirEntry} {need n : Nat} (h : GrowsBy S need n) : n ≤ 1 := by
  rcases h with ⟨rfl, -⟩ | ⟨rfl, -⟩ <;> omega

theorem Item.not_isFree {it : Item} (hok : it.Ok) (hh : it.isHole = false) :
    ∀ e ∈ it.slots, ¬ IsFree e := by
  cases it with
  | hole e => simp [isHole] at hh
  | dot e =>
      intro d hd
      rw [slots, List.mem_singleton] at hd
      subst hd
      rw [IsFree, DirEntry.first_of_isDot hok.1]
      decide
  | entry run e =>
      obtain ⟨hrun, h₀, h₁, -, -⟩ := hok
      intro d hd
      rcases List.mem_append.mp hd with hd | hd
      · obtain ⟨h₀', h₁', -⟩ := hrun.1.mem_ne hrun.2 d hd
        exact not_or.mpr ⟨h₀', h₁'⟩
      · rw [List.mem_singleton] at hd
        subst hd
        exact not_or.mpr ⟨h₀, h₁⟩

theorem Item.slots_of_isHole {it : Item} (h : it.isHole = true) : ∃ e, it.slots = [e] := by
  cases it with
  | hole e => exact ⟨e, rfl⟩
  | dot e => simp [isHole] at h
  | entry run e => simp [isHole] at h

theorem Item.length_slots_pos (it : Item) : 0 < it.slots.length := by
  cases it <;> simp [slots]

theorem length_holes {hs : List Item} (h : ∀ it ∈ hs, it.isHole = true) :
    (hs.flatMap Item.slots).length = hs.length := by
  induction hs with
  | nil => rfl
  | cons it its ih =>
      obtain ⟨e, he⟩ := Item.slots_of_isHole (h it List.mem_cons_self)
      rw [List.flatMap_cons, List.length_append, he,
        ih fun x hx => h x (List.mem_cons_of_mem it hx)]
      simp
      omega

/-- Free slots at the front of some items are holes. -/
theorem free_front {items : List Item} (hok : ∀ it ∈ items, it.Ok) {n : Nat}
    (hfree : ∀ j, j < n → ∀ e, (items.flatMap Item.slots)[j]? = some e → IsFree e) :
    ∃ hs post, items = hs ++ post ∧ (∀ h ∈ hs, h.isHole = true) ∧ hs.length ≤ n ∧
      (hs.length = n ∨ post = []) := by
  induction items generalizing n with
  | nil => exact ⟨[], [], rfl, by simp, by simp, Or.inr rfl⟩
  | cons it its ih =>
      cases n with
      | zero => exact ⟨[], it :: its, rfl, by simp, by simp, Or.inl rfl⟩
      | succ n =>
          rw [List.flatMap_cons] at hfree
          have hhole : it.isHole = true := by
            by_contra hno
            obtain ⟨d, ds, hd⟩ := List.exists_cons_of_length_pos it.length_slots_pos
            refine Item.not_isFree (hok it List.mem_cons_self) (by simpa using hno) d
              (by simp [hd]) (hfree 0 (by omega) d ?_)
            simp [hd]
          obtain ⟨e, he⟩ := Item.slots_of_isHole hhole
          rw [he] at hfree
          obtain ⟨hs, post, rfl, hhs, hle, hcase⟩ := ih
            (fun x hx => hok x (List.mem_cons_of_mem it hx)) (n := n) fun j hj d hd =>
              hfree (j + 1) (by omega) d (by simpa using hd)
          refine ⟨it :: hs, post, rfl, ?_, by simpa using hle, ?_⟩
          · intro h hh
            rcases List.mem_cons.mp hh with rfl | hh
            · exact hhole
            · exact hhs h hh
          · rcases hcase with h | h
            · exact Or.inl (by simp [h])
            · exact Or.inr h

/-- A run of free slots that starts at `s` lies between two items. -/
theorem free_split {items : List Item} (hok : ∀ it ∈ items, it.Ok) {s n : Nat} (hn : 1 ≤ n)
    (hs : s ≤ (items.flatMap Item.slots).length)
    (hfree : ∀ j, s ≤ j → j < s + n → ∀ e, (items.flatMap Item.slots)[j]? = some e →
      IsFree e) :
    ∃ pre hs post, items = pre ++ hs ++ post ∧ (∀ h ∈ hs, h.isHole = true) ∧
      (pre.flatMap Item.slots).length = s ∧ hs.length ≤ n ∧ (hs.length = n ∨ post = []) := by
  induction items generalizing s with
  | nil =>
      have h0 : s = 0 := by simpa using hs
      subst h0
      exact ⟨[], [], [], rfl, by simp, by simp, by simp, Or.inr rfl⟩
  | cons it its ih =>
      rcases Nat.eq_zero_or_pos s with rfl | hpos
      · obtain ⟨hs, post, heq, hhs, hle, hcase⟩ := free_front hok (n := n)
          fun j hj => hfree j (Nat.zero_le j) (by omega)
        exact ⟨[], hs, post, heq, hhs, rfl, hle, hcase⟩
      · rw [List.flatMap_cons] at hfree hs
        have hlen : it.slots.length ≤ s := by
          by_contra hlt
          have hnot : it.isHole = false := by
            cases hh : it.isHole with
            | false => rfl
            | true =>
                obtain ⟨e, he⟩ := Item.slots_of_isHole hh
                rw [he, List.length_singleton] at hlt
                omega
          have hin : s < it.slots.length := by omega
          refine Item.not_isFree (hok it List.mem_cons_self) hnot _ (List.getElem_mem hin)
            (hfree s (Nat.le_refl s) (by omega) _ ?_)
          rw [List.getElem?_append_left hin, List.getElem?_eq_getElem hin]
        rw [List.length_append] at hs
        obtain ⟨pre, hs', post, rfl, hhs, hlen', hle, hcase⟩ := ih
          (fun x hx => hok x (List.mem_cons_of_mem it hx)) (s := s - it.slots.length)
          (by omega) fun j hj hj' e he => by
            refine hfree (j + it.slots.length) (by omega) (by omega) e ?_
            rw [List.getElem?_append_right (by omega), Nat.add_sub_cancel]
            exact he
        refine ⟨it :: pre, hs', post, by simp, hhs, ?_, hle, hcase⟩
        rw [List.flatMap_cons, List.length_append]
        omega

namespace Listing

/-- The listing of a directory that got more zeroed slots. -/
def grow (l : Listing) (n : Nat) : Listing :=
  ⟨l.items, l.tail ++ List.replicate n (Block.zero 32), l.ok, l.zero.append_zeros n⟩

theorem slots_grow (l : Listing) (n : Nat) :
    (l.grow n).slots = l.slots ++ List.replicate n (Block.zero 32) := by
  simp [slots, grow]

/-- `l'` is `l` with an entry in the place of holes and unused slots; the
entry starts at slot `s`. -/
def Inserted (l l' : Listing) (s : Nat) (run : List DirEntry) (e : DirEntry) : Prop :=
  ∃ pre hs post, l.items = pre ++ hs ++ post ∧ (∀ h ∈ hs, h.isHole = true) ∧
    l'.items = pre ++ Item.entry run e :: post ∧ (pre.flatMap Item.slots).length = s ∧
    (hs.length = run.length + 1 ∨ post = [])

theorem insert (l : Listing) {s n : Nat} {run : List DirEntry} {e : DirEntry}
    (hnew : (Item.entry run e).Ok) (hlen : run.length + 1 = n) (h : FreeRun l.slots s n) :
    ∃ l', l.Inserted l' s run e ∧ l'.slots = overwrite l.slots s (run ++ [e]) := by
  have hs : s ≤ (l.items.flatMap Item.slots).length := by
    by_contra hlt
    have hle := h.le
    have hin : s - 1 < l.slots.length := by omega
    have hget := List.getElem?_eq_getElem hin
    refine h.start (by omega) _ hget ?_
    conv_lhs at hget => rw [slots, List.getElem?_append_right (by omega)]
    exact Or.inl (l.zero.first_eq _ (List.mem_of_getElem? hget))
  obtain ⟨pre, hs', post, heq, hhs, hpre, hle, hcase⟩ := free_split l.ok (by omega) hs
    fun j hj hj' d hd => h.free j hj hj' d (by
      unfold slots
      rw [List.getElem?_append_left]
      · exact hd
      · by_contra hge
        rw [List.getElem?_eq_none (by omega)] at hd
        cases hd)
  have hok := l.ok
  rw [heq] at hok
  refine ⟨⟨pre ++ Item.entry run e :: post, l.tail.drop (n - hs'.length), ?_, l.zero.drop _⟩,
    ⟨pre, hs', post, heq, hhs, rfl, hpre, hlen ▸ hcase⟩, ?_⟩
  · intro it hit
    rcases List.mem_append.mp hit with hit | hit
    · exact hok it (by simp [hit])
    · rcases List.mem_cons.mp hit with rfl | hit
      · exact hnew
      · exact hok it (by simp [hit])
  · have hH := length_holes hhs
    have hsplit : l.slots = pre.flatMap Item.slots ++
        (hs'.flatMap Item.slots ++ (if post = [] then l.tail.take (n - hs'.length) else [])) ++
        (post.flatMap Item.slots ++ l.tail.drop (n - hs'.length)) := by
      unfold slots
      rw [heq]
      rcases hcase with hn | rfl
      · rw [hn, Nat.sub_self]
        split <;> simp_all
      · simp
    have hge : n - hs'.length ≤ l.tail.length ∨ post ≠ [] := by
      by_cases hp : post = []
      · refine Or.inl ?_
        have hle' := h.le
        unfold slots at hle'
        rw [heq, hp] at hle'
        simp only [List.append_nil, List.length_append, List.flatMap_append] at hle'
        omega
      · exact Or.inr hp
    rw [hsplit, overwrite_append hpre]
    · simp [slots, Item.slots]
    · rw [List.length_append, hH, List.length_append, List.length_singleton]
      split
      · rw [List.length_take]
        rcases hge with hg | hg
        · omega
        · contradiction
      · rw [List.length_nil]
        rcases hcase with hn | hn
        · omega
        · contradiction

/-- Two listings that differ in one item of the same length. -/
theorem splice (l : Listing) {pre post : List Item} (mid : List Item) {it : Item}
    (heq : l.items = pre ++ it :: post) (hok : ∀ x ∈ mid, x.Ok)
    (hlen : (mid.flatMap Item.slots).length = it.slots.length) :
    ∃ l' : Listing, l'.items = pre ++ mid ++ post ∧
      l'.slots = overwrite l.slots (pre.flatMap Item.slots).length (mid.flatMap Item.slots) := by
  have hall := l.ok
  rw [heq] at hall
  refine ⟨⟨pre ++ mid ++ post, l.tail, ?_, l.zero⟩, rfl, ?_⟩
  · intro x hx
    rcases List.mem_append.mp hx with hx | hx
    · rcases List.mem_append.mp hx with hx | hx
      · exact hall x (by simp [hx])
      · exact hok x hx
    · exact hall x (by simp [hx])
  · have hsplit : l.slots = pre.flatMap Item.slots ++ it.slots ++
        (post.flatMap Item.slots ++ l.tail) := by
      simp [slots, heq]
    rw [hsplit, overwrite_append rfl hlen.symm]
    simp [slots]

end Listing

/-- A slot after its first byte was overwritten with the deletion mark. -/
def DirEntry.deleted (e : DirEntry) : DirEntry := e.patch 0 [0xE5]

theorem DirEntry.first_deleted (e : DirEntry) : e.deleted.first = 0xE5 :=
  Block.byte_patch_of_inside e (o := 0) (s := [0xE5]) (i := 0) (by simp) (by omega)

theorem flatMap_holes (es : List DirEntry) :
    (es.map Item.hole).flatMap Item.slots = es := by
  induction es with
  | nil => rfl
  | cons e es ih => simp [Item.slots, ih]

/-- Deleting an entry with its long name. -/
theorem Listing.delete (l : Listing) {pre post : List Item} {run : List DirEntry}
    {e : DirEntry} (heq : l.items = pre ++ Item.entry run e :: post) :
    ∃ l' : Listing,
      l'.items = pre ++ ((run ++ [e]).map DirEntry.deleted).map Item.hole ++ post ∧
      l'.slots = overwrite l.slots (pre.flatMap Item.slots).length
        ((run ++ [e]).map DirEntry.deleted) := by
  have h := l.splice (((run ++ [e]).map DirEntry.deleted).map Item.hole) heq
    (by
      intro x hx
      obtain ⟨d, hd, rfl⟩ := List.mem_map.mp hx
      obtain ⟨d', -, rfl⟩ := List.mem_map.mp hd
      exact DirEntry.first_deleted d')
    (by rw [flatMap_holes, List.length_map]; rfl)
  rw [flatMap_holes] at h
  exact h

/-- Rewriting a short entry in place. -/
theorem Listing.update (l : Listing) {pre post : List Item} {run : List DirEntry}
    {e : DirEntry} (e' : DirEntry) (heq : l.items = pre ++ Item.entry run e :: post)
    (hok : (Item.entry run e').Ok) :
    ∃ l' : Listing, l'.items = pre ++ Item.entry run e' :: post ∧
      l'.slots = l.slots.set ((pre.flatMap Item.slots).length + run.length) e' := by
  have hall := l.ok
  rw [heq] at hall
  refine ⟨⟨pre ++ Item.entry run e' :: post, l.tail, ?_, l.zero⟩, rfl, ?_⟩
  · intro x hx
    rcases List.mem_append.mp hx with hx | hx
    · exact hall x (by simp [hx])
    · rcases List.mem_cons.mp hx with rfl | hx
      · exact hok
      · exact hall x (by simp [hx])
  · have hsplit : ∀ d : DirEntry, ((pre ++ Item.entry run d :: post).flatMap Item.slots) ++
        l.tail = (pre.flatMap Item.slots ++ run) ++ d :: (post.flatMap Item.slots ++ l.tail) := by
      intro d
      simp [Item.slots]
    rw [slots, slots, heq, hsplit, hsplit, set_append]
    rw [List.length_append]

def Item.isCalled (name : CStr) : Item → Bool
  | .entry run e => called name run e
  | _ => false

theorem findFrom_eq_some {name : CStr} {items : List Item} {i j : Nat}
    {run : List DirEntry} {e : DirEntry} (h : findFrom name i items = some (j, run, e)) :
    ∃ pre post, items = pre ++ Item.entry run e :: post ∧
      j = i + (pre.flatMap Item.slots).length ∧ called name run e = true ∧
      ∀ it ∈ pre, it.isCalled name = false := by
  induction items generalizing i with
  | nil => simp [findFrom] at h
  | cons it its ih =>
      have hskip : ∀ n, n = it.slots.length → it.isCalled name = false →
          findFrom name (i + n) its = some (j, run, e) →
          ∃ pre post, it :: its = pre ++ Item.entry run e :: post ∧
            j = i + (pre.flatMap Item.slots).length ∧ called name run e = true ∧
            ∀ it ∈ pre, it.isCalled name = false := by
        rintro n rfl hno hrest
        obtain ⟨pre, post, rfl, rfl, hc, hpre⟩ := ih hrest
        refine ⟨it :: pre, post, rfl, ?_, hc, ?_⟩
        · rw [List.flatMap_cons, List.length_append]
          omega
        · intro x hx
          rcases List.mem_cons.mp hx with rfl | hx
          · exact hno
          · exact hpre x hx
      cases it with
      | hole d => exact hskip 1 rfl rfl (by simpa [findFrom] using h)
      | dot d => exact hskip 1 rfl rfl (by simpa [findFrom] using h)
      | entry run' d =>
          rw [findFrom] at h
          cases hc : called name run' d with
          | true =>
              simp only [hc, if_true, Option.some.injEq, Prod.mk.injEq] at h
              obtain ⟨rfl, rfl, rfl⟩ := h
              exact ⟨[], its, rfl, by simp, hc, by simp⟩
          | false =>
              simp only [hc, Bool.false_eq_true, if_false] at h
              exact hskip (run'.length + 1) (by simp [Item.slots]) hc h

theorem findFrom_eq_none {name : CStr} {items : List Item} {i : Nat} :
    findFrom name i items = none ↔ ∀ it ∈ items, it.isCalled name = false := by
  induction items generalizing i with
  | nil => simp [findFrom]
  | cons it its ih =>
      cases it with
      | hole d => simp [findFrom, ih, Item.isCalled]
      | dot d => simp [findFrom, ih, Item.isCalled]
      | entry run d =>
          cases hc : called name run d <;> simp [findFrom, ih, Item.isCalled, hc]

end Chimaera.Fat32
