/-
Entries by place: the directory and the slot of the short entry.  A place never
moves while its entry lives, whatever happens to the rest of the directory.
-/
import Chimaera.Fat32.Resolve

namespace Chimaera.Fat32

variable {items its : List Item} {l l' : Listing} {b i j : Nat} {run r : List DirEntry}
  {e x : DirEntry}

/-- The live entry with the long name `run` and the short entry `e` in slot `i`
of some items, the first of which starts at slot `b`. -/
def At (i : Nat) (run : List DirEntry) (e : DirEntry) : Nat → List Item → Prop
  | _, [] => False
  | b, it :: its => (it = Item.entry run e ∧ i = b + run.length) ∨
      At i run e (b + it.slots.length) its

theorem at_append : At i run e b (items ++ its) ↔
    At i run e b items ∨ At i run e (b + (items.flatMap Item.slots).length) its := by
  induction items generalizing b with
  | nil => simp [At]
  | cons it rest ih =>
      rw [List.cons_append, At, At, ih, List.flatMap_cons, List.length_append, Nat.add_assoc,
        or_assoc]

theorem at_entry : At i run e b [Item.entry r x] ↔ i = b + run.length ∧ r = run ∧ x = e := by
  simp only [At, Item.entry.injEq, or_false]
  exact and_comm

theorem not_at_holes (h : ∀ it ∈ items, it.isHole = true) : ¬ At i run e b items := by
  induction items generalizing b with
  | nil => exact id
  | cons it rest ih =>
      rintro (⟨rfl, -⟩ | hat)
      · exact absurd (h _ List.mem_cons_self) (by simp [Item.isHole])
      · exact ih (fun y hy => h y (List.mem_cons_of_mem it hy)) hat

theorem At.mem (h : At i run e b items) : Item.entry run e ∈ items := by
  induction items generalizing b with
  | nil => exact h.elim
  | cons it rest ih =>
      rcases h with ⟨rfl, -⟩ | h
      · exact List.mem_cons_self
      · exact List.mem_cons_of_mem it (ih h)

theorem At.split (h : At i run e b items) : ∃ pre post, items = pre ++ Item.entry run e :: post ∧
    i = b + (pre.flatMap Item.slots).length + run.length := by
  induction items generalizing b with
  | nil => exact h.elim
  | cons it rest ih =>
      rcases h with ⟨rfl, rfl⟩ | h
      · exact ⟨[], rest, rfl, by simp⟩
      · obtain ⟨pre, post, rfl, rfl⟩ := ih h
        refine ⟨it :: pre, post, rfl, ?_⟩
        rw [List.flatMap_cons, List.length_append]
        omega

variable (b run e) in
theorem at_split (pre post : List Item) :
    At (b + (pre.flatMap Item.slots).length + run.length) run e b
      (pre ++ Item.entry run e :: post) :=
  at_append.mpr (Or.inr (Or.inl ⟨rfl, rfl⟩))

theorem At.ge (h : At i run e b items) : b + run.length ≤ i := by
  obtain ⟨pre, post, -, rfl⟩ := h.split
  omega

theorem At.lt (h : At i run e b items) : i < b + (items.flatMap Item.slots).length := by
  induction items generalizing b with
  | nil => exact h.elim
  | cons it rest ih =>
      rw [List.flatMap_cons, List.length_append]
      rcases h with ⟨rfl, rfl⟩ | h
      · rw [Item.slots, List.length_append, List.length_singleton]
        omega
      · have := ih h
        omega

theorem length_slots_entry : ([Item.entry run e].flatMap Item.slots).length = run.length + 1 := by
  simp [Item.slots]

/-- One entry a slot. -/
theorem At.unique (h : At i run e b items) (h' : At i r x b items) : run = r ∧ e = x := by
  induction items generalizing b with
  | nil => exact h.elim
  | cons it rest ih =>
      rcases h with ⟨rfl, rfl⟩ | h
      · rcases h' with ⟨heq, -⟩ | h'
        · simpa using heq
        · have := h'.ge
          simp [Item.slots] at this
          omega
      · rcases h' with ⟨rfl, rfl⟩ | h'
        · have := h.ge
          simp [Item.slots] at this
          omega
        · exact ih h h'

/-- The entry of slot `i` of a listing. -/
def Listing.At (l : Listing) (i : Nat) (run : List DirEntry) (e : DirEntry) : Prop :=
  Fat32.At i run e 0 l.items

namespace Listing

theorem At.mem (h : l.At i run e) : Item.entry run e ∈ l.items := Fat32.At.mem h

theorem At.unique (h : l.At i run e) (h' : l.At i r x) : run = r ∧ e = x := Fat32.At.unique h h'

theorem At.slot (h : l.At i run e) : l.slots[i]? = some e := by
  obtain ⟨pre, post, heq, rfl⟩ := Fat32.At.split h
  have hslots : l.slots = (pre.flatMap Item.slots ++ run) ++ e :: (post.flatMap Item.slots ++
      l.tail) := by
    simp [slots, heq, Item.slots]
  rw [hslots, List.getElem?_append_right (by rw [List.length_append]; omega), List.length_append,
    Nat.zero_add, Nat.sub_self]
  rfl

theorem At.lt (h : l.At i run e) : i < l.slots.length :=
  (List.getElem?_eq_some_iff.mp h.slot).choose

theorem exists_at (h : Item.entry run e ∈ l.items) : ∃ i, l.At i run e := by
  obtain ⟨pre, post, heq⟩ := List.append_of_mem h
  unfold At
  rw [heq]
  exact ⟨_, at_split 0 run e pre post⟩

theorem At.ok (h : l.At i run e) : (Item.entry run e).Ok := l.ok _ h.mem

/-- `dir_find` answers the place of the entry it finds. -/
theorem find_at {name : CStr} (h : l.find name = some (j, run, e)) : l.At (j + run.length) run e := by
  obtain ⟨pre, post, heq, rfl, -⟩ := Listing.find_eq_some h
  have := at_split 0 run e pre post
  unfold At
  rw [heq]
  rwa [Nat.zero_add] at this

/-- The slots of the entry that a name finds. -/
theorem find_slots {name : CStr} {q : Nat} (h : l.find name = some (j, run, e))
    (hq : q < (run ++ [e]).length) : l.slots[j + q]? = (run ++ [e])[q]? := by
  obtain ⟨pre, post, heq, rfl, -⟩ := Listing.find_eq_some h
  have hitems : l.slots = pre.flatMap Item.slots ++ ((run ++ [e]) ++
      (post.flatMap Item.slots ++ l.tail)) := by
    simp [Listing.slots, heq, Item.slots]
  rw [hitems, List.getElem?_append_right (Nat.le_add_right _ _), Nat.add_sub_cancel_left,
    List.getElem?_append_left hq]

/-- An insertion gives one more entry and moves none. -/
theorem Inserted.at_iff (h : l.Inserted l' j run e) :
    l'.At i r x ↔ l.At i r x ∨ (i = j + run.length ∧ r = run ∧ x = e) := by
  obtain ⟨pre, hs, post, heq, hhs, heq', rfl, hcase⟩ := h
  unfold At
  rw [heq, heq', at_append, at_append, at_append, ← List.singleton_append, at_append, at_entry]
  have hno : ¬ Fat32.At i r x (0 + (pre.flatMap Item.slots).length) hs := not_at_holes hhs
  have hpost : Fat32.At i r x (0 + (pre.flatMap Item.slots).length +
      ([Item.entry run e].flatMap Item.slots).length) post ↔
      Fat32.At i r x (0 + ((pre ++ hs).flatMap Item.slots).length) post := by
    rcases hcase with hlen | rfl
    · rw [List.flatMap_append, List.length_append, length_holes hhs, hlen]
      simp [Item.slots]
    · exact Iff.rfl
  rw [hpost]
  constructor
  · rintro (h | ⟨hi, rfl, rfl⟩ | h)
    · exact Or.inl (Or.inl (Or.inl h))
    · exact Or.inr ⟨by omega, rfl, rfl⟩
    · exact Or.inl (Or.inr h)
  · rintro (((h | h) | h) | ⟨rfl, rfl, rfl⟩)
    · exact Or.inl h
    · exact absurd h hno
    · exact Or.inr (Or.inr h)
    · exact Or.inr (Or.inl ⟨by omega, rfl, rfl⟩)

/-- `l'` is `l` without the entry of slot `i`. -/
def Deleted (l l' : Listing) (i : Nat) (run : List DirEntry) (e : DirEntry) : Prop :=
  ∃ pre post, l.items = pre ++ Item.entry run e :: post ∧
    i = (pre.flatMap Item.slots).length + run.length ∧
    l'.items = pre ++ ((run ++ [e]).map DirEntry.deleted).map Item.hole ++ post

/-- `l'` is `l` with another short entry in slot `i`. -/
def Updated (l l' : Listing) (i : Nat) (run : List DirEntry) (e e' : DirEntry) : Prop :=
  ∃ pre post, l.items = pre ++ Item.entry run e :: post ∧
    i = (pre.flatMap Item.slots).length + run.length ∧
    l'.items = pre ++ Item.entry run e' :: post

theorem isHole_map {es : List DirEntry} : ∀ it ∈ es.map Item.hole, it.isHole = true := by
  intro it hit
  obtain ⟨d, -, rfl⟩ := List.mem_map.mp hit
  rfl

theorem Deleted.at_iff (h : l.Deleted l' i run e) :
    l'.At j r x ↔ l.At j r x ∧ j ≠ i := by
  obtain ⟨pre, post, heq, rfl, heq'⟩ := h
  unfold At
  have hlen : (((run ++ [e]).map DirEntry.deleted).map Item.hole).flatMap Item.slots =
      (run ++ [e]).map DirEntry.deleted := flatMap_holes _
  have hpost : 0 + ((pre ++ ((run ++ [e]).map DirEntry.deleted).map Item.hole).flatMap
      Item.slots).length = 0 + (pre.flatMap Item.slots).length + (run.length + 1) := by
    rw [List.flatMap_append, hlen, List.length_append, List.length_map, List.length_append,
      List.length_singleton]
    omega
  rw [heq, heq', at_append, at_append, at_append, ← List.singleton_append (l := post), at_append,
    at_entry, hpost, length_slots_entry]
  have hno : ¬ Fat32.At j r x (0 + (pre.flatMap Item.slots).length)
      (((run ++ [e]).map DirEntry.deleted).map Item.hole) := not_at_holes isHole_map
  have hpre : Fat32.At j r x 0 pre → j < 0 + (pre.flatMap Item.slots).length := Fat32.At.lt
  have hge : Fat32.At j r x (0 + (pre.flatMap Item.slots).length + (run.length + 1)) post →
      0 + (pre.flatMap Item.slots).length + (run.length + 1) + r.length ≤ j := Fat32.At.ge
  constructor
  · rintro ((h | h) | h)
    · have := hpre h
      exact ⟨Or.inl h, by omega⟩
    · exact absurd h hno
    · have := hge h
      exact ⟨Or.inr (Or.inr h), by omega⟩
  · rintro ⟨h | ⟨rfl, rfl, rfl⟩ | h, hne⟩
    · exact Or.inl (Or.inl h)
    · exact absurd (by omega) hne
    · exact Or.inr h

theorem Updated.at_iff {e' : DirEntry} (h : l.Updated l' i run e e') :
    l'.At j r x ↔ (l.At j r x ∧ j ≠ i) ∨ (j = i ∧ r = run ∧ x = e') := by
  obtain ⟨pre, post, heq, rfl, heq'⟩ := h
  unfold At
  rw [heq, heq', at_append, at_append, ← List.singleton_append (x := Item.entry run e),
    ← List.singleton_append (x := Item.entry run e'), at_append, at_append, at_entry, at_entry,
    length_slots_entry, length_slots_entry]
  have hpre : Fat32.At j r x 0 pre → j < 0 + (pre.flatMap Item.slots).length := Fat32.At.lt
  have hge : Fat32.At j r x (0 + (pre.flatMap Item.slots).length + (run.length + 1)) post →
      0 + (pre.flatMap Item.slots).length + (run.length + 1) + r.length ≤ j := Fat32.At.ge
  constructor
  · rintro (h | ⟨rfl, rfl, rfl⟩ | h)
    · have := hpre h
      exact Or.inl ⟨Or.inl h, by omega⟩
    · exact Or.inr ⟨by omega, rfl, rfl⟩
    · have := hge h
      exact Or.inl ⟨Or.inr (Or.inr h), by omega⟩
  · rintro (⟨h | ⟨rfl, rfl, rfl⟩ | h, hne⟩ | ⟨rfl, rfl, rfl⟩)
    · exact Or.inl h
    · exact absurd (by omega) hne
    · exact Or.inr (Or.inr h)
    · exact Or.inr (Or.inl ⟨by omega, rfl, rfl⟩)

end Listing

/-- The entry of slot `i` of the directory that starts at `s`. -/
def EntryAt (D : List Dir) (s i : Nat) (run : List DirEntry) (e : DirEntry) : Prop :=
  ∃ d ∈ D, d.start = s ∧ d.listing.At i run e

end Chimaera.Fat32
