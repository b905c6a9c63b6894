/-
Linked lists laid out in an array of links.  `Path next ok a xs b` follows
links from `a` through the cells `xs` and stops at the link `b`; a chain is a
path to an end mark.  Cells, links and end marks are arbitrary.
-/
import Mathlib.Data.List.Nodup
import Mathlib.Data.Finset.Card
import Mathlib.Tactic.Common

namespace Chimaera.Links

variable {ν : Type} {next next' : ν → ν} {ok : ν → Prop} {fin : ν → Prop}

/-- Follow links from `a` through the cells `xs` to the link `b`. -/
def Path (next : ν → ν) (ok : ν → Prop) : ν → List ν → ν → Prop
  | a, [], b => a = b
  | a, x :: xs, b => a = x ∧ ok x ∧ Path next ok (next x) xs b

/-- The cells `xs` from `a` to an end mark. -/
def Chain (next : ν → ν) (ok fin : ν → Prop) (a : ν) (xs : List ν) : Prop :=
  ∃ b, fin b ∧ Path next ok a xs b

theorem Path.mem_ok {a b : ν} {xs : List ν} (h : Path next ok a xs b) :
    ∀ x ∈ xs, ok x := by
  induction xs generalizing a with
  | nil => simp
  | cons y ys ih =>
      obtain ⟨-, hy, hrest⟩ := h
      intro x hx
      rcases List.mem_cons.mp hx with rfl | hx
      · exact hy
      · exact ih hrest x hx

theorem path_append {a b : ν} {xs ys : List ν} :
    Path next ok a (xs ++ ys) b ↔ ∃ m, Path next ok a xs m ∧ Path next ok m ys b := by
  induction xs generalizing a with
  | nil => simp [Path]
  | cons x xs ih =>
      simp only [List.cons_append, Path, ih]
      constructor
      · rintro ⟨rfl, hx, m, h₁, h₂⟩
        exact ⟨m, ⟨rfl, hx, h₁⟩, h₂⟩
      · rintro ⟨m, ⟨rfl, hx, h₁⟩, h₂⟩
        exact ⟨rfl, hx, m, h₁, h₂⟩

/-- A path does not notice changes of links outside its cells. -/
theorem Path.congr {a b : ν} {xs : List ν} (h : Path next ok a xs b)
    (hnext : ∀ x ∈ xs, next' x = next x) : Path next' ok a xs b := by
  induction xs generalizing a with
  | nil => exact h
  | cons x xs ih =>
      obtain ⟨rfl, hx, hrest⟩ := h
      refine ⟨rfl, hx, ?_⟩
      rw [hnext a List.mem_cons_self]
      exact ih hrest fun y hy => hnext y (List.mem_cons_of_mem a hy)

/-- Every link of a path leads to the next cell or to its end. -/
theorem Path.next_mem {a b : ν} {xs : List ν} (h : Path next ok a xs b) {x : ν}
    (hx : x ∈ xs) : next x ∈ xs ∨ next x = b := by
  induction xs generalizing a with
  | nil => simp at hx
  | cons y ys ih =>
      obtain ⟨rfl, -, hrest⟩ := h
      rcases List.mem_cons.mp hx with rfl | hx
      · cases ys with
        | nil => exact Or.inr hrest
        | cons z zs => exact Or.inl (by simp [hrest.1])
      · rcases ih hrest hx with hm | heq
        · exact Or.inl (List.mem_cons_of_mem _ hm)
        · exact Or.inr heq

theorem Path.next_last {a b x : ν} {xs : List ν} (h : Path next ok a (xs ++ [x]) b) :
    next x = b := by
  obtain ⟨m, -, h₂⟩ := path_append.mp h
  exact h₂.2.2

theorem Path.next_getElem {a b : ν} {xs : List ν} (h : Path next ok a xs b) {i : Nat}
    (hi : i + 1 < xs.length) : next (xs.get ⟨i, Nat.lt_of_succ_lt hi⟩) = xs[i + 1] := by
  induction xs generalizing a i with
  | nil => simp at hi
  | cons y ys ih =>
      obtain ⟨rfl, -, hrest⟩ := h
      cases i with
      | zero =>
          cases ys with
          | nil => simp at hi
          | cons z zs => simpa using hrest.1
      | succ i => simpa using ih hrest (i := i) (by simpa using hi)

/-- Following links through finitely many cells comes to a link that is no cell, or
to a cell that was met before. -/
theorem exists_path (a : ν) {S : Finset ν} (hS : ∀ x, ok x → x ∈ S) :
    ∃ xs b, Path next ok a xs b ∧ xs.Nodup ∧ (¬ ok b ∨ b ∈ xs) := by
  classical
  suffices h : ∀ n xs b, S.card - xs.length = n → Path next ok a xs b → xs.Nodup →
      ∃ xs b, Path next ok a xs b ∧ xs.Nodup ∧ (¬ ok b ∨ b ∈ xs) from
    h _ [] a rfl rfl List.nodup_nil
  intro n
  induction n with
  | zero =>
      intro xs b hn hp hnd
      refine ⟨xs, b, hp, hnd, ?_⟩
      by_contra hcon
      rw [not_or, not_not] at hcon
      have hsub : (b :: xs).toFinset ⊆ S := by
        intro x hx
        rcases List.mem_cons.mp (List.mem_toFinset.mp hx) with rfl | hx
        · exact hS x hcon.1
        · exact hS x (hp.mem_ok x hx)
      have hcard := Finset.card_le_card hsub
      rw [List.toFinset_card_of_nodup (List.nodup_cons.mpr ⟨hcon.2, hnd⟩), List.length_cons] at hcard
      omega
  | succ n ih =>
      intro xs b hn hp hnd
      by_cases hstop : ¬ ok b ∨ b ∈ xs
      · exact ⟨xs, b, hp, hnd, hstop⟩
      rw [not_or, not_not] at hstop
      refine ih (xs ++ [b]) (next b) ?_ (path_append.mpr ⟨b, hp, rfl, hstop.1, rfl⟩) ?_
      · rw [List.length_append, List.length_singleton]
        omega
      · exact List.nodup_append.mpr ⟨hnd, List.nodup_singleton b, by
          intro x hx y hy
          rw [List.mem_singleton.mp hy]
          rintro rfl
          exact hstop.2 hx⟩

section Longest

variable {a b c : ν} {xs ys : List ν}

/-- Follow links as far as they lead to new cells: `b` is no cell, or was met before. -/
structure Longest (next : ν → ν) (ok : ν → Prop) (a : ν) (xs : List ν) (b : ν) : Prop where
  path : Path next ok a xs b
  nodup : xs.Nodup
  stop : ¬ ok b ∨ b ∈ xs

/-- Of two paths from one cell, one goes on where the other ends. -/
theorem Path.comparable (h : Path next ok a xs b) (h' : Path next ok a ys c) :
    (∃ zs, ys = xs ++ zs ∧ Path next ok b zs c) ∨ ∃ zs, xs = ys ++ zs ∧ Path next ok c zs b := by
  induction xs generalizing a ys with
  | nil =>
      obtain rfl : a = b := h
      exact Or.inl ⟨ys, rfl, h'⟩
  | cons x xs ih =>
      cases ys with
      | nil =>
          obtain rfl : a = c := h'
          exact Or.inr ⟨x :: xs, rfl, h⟩
      | cons y ys =>
          obtain ⟨rfl, -, hrest⟩ := h
          obtain ⟨rfl, -, hrest'⟩ := h'
          rcases ih hrest hrest' with ⟨zs, rfl, hp⟩ | ⟨zs, rfl, hp⟩
          · exact Or.inl ⟨zs, rfl, hp⟩
          · exact Or.inr ⟨zs, rfl, hp⟩

/-- A path that stops is not continued by one without repetitions. -/
theorem Longest.eq_nil {zs : List ν} (h : Longest next ok a xs b) (hz : Path next ok b zs c)
    (hnd : (xs ++ zs).Nodup) : zs = [] := by
  cases zs with
  | nil => rfl
  | cons z zs =>
      obtain ⟨rfl, hz, -⟩ := hz
      have hnot := (List.nodup_append.mp hnd).2.2
      rcases h.stop with hno | hmem
      · exact absurd hz hno
      · exact absurd rfl (hnot b hmem b List.mem_cons_self)

/-- It is the longest of the paths without repetitions. -/
theorem Longest.isPrefix (h : Longest next ok a xs b) (h' : Path next ok a ys c)
    (hnd : ys.Nodup) : ys <+: xs := by
  rcases h.path.comparable h' with ⟨zs, rfl, hz⟩ | ⟨zs, rfl, -⟩
  · obtain rfl := h.eq_nil hz hnd
    rw [List.append_nil]
  · exact List.prefix_append ys zs

theorem Longest.unique (h : Longest next ok a xs b) (h' : Longest next ok a ys c) :
    xs = ys ∧ b = c := by
  rcases h.path.comparable h'.path with ⟨zs, rfl, hz⟩ | ⟨zs, rfl, hz⟩
  · obtain rfl := h.eq_nil hz h'.nodup
    exact ⟨(List.append_nil xs).symm, hz⟩
  · obtain rfl := h'.eq_nil hz h.nodup
    exact ⟨List.append_nil ys, hz.symm⟩

end Longest

namespace Chain

theorem mem_ok {a : ν} {xs : List ν} (h : Chain next ok fin a xs) : ∀ x ∈ xs, ok x := by
  obtain ⟨b, -, hp⟩ := h
  exact hp.mem_ok

theorem congr {a : ν} {xs : List ν} (h : Chain next ok fin a xs)
    (hnext : ∀ x ∈ xs, next' x = next x) : Chain next' ok fin a xs := by
  obtain ⟨b, hb, hp⟩ := h
  exact ⟨b, hb, hp.congr hnext⟩

theorem nil_iff {a : ν} : Chain next ok fin a [] ↔ fin a := by
  constructor
  · rintro ⟨b, hb, rfl⟩
    exact hb
  · exact fun ha => ⟨a, ha, rfl⟩

theorem cons_iff {a x : ν} {xs : List ν} :
    Chain next ok fin a (x :: xs) ↔ a = x ∧ ok x ∧ Chain next ok fin (next x) xs := by
  constructor
  · rintro ⟨b, hb, rfl, hx, hp⟩
    exact ⟨rfl, hx, b, hb, hp⟩
  · rintro ⟨rfl, hx, b, hb, hp⟩
    exact ⟨b, hb, rfl, hx, hp⟩

/-- A cell that is no end mark starts at most one chain. -/
theorem unique (hok : ∀ x, ok x → ¬ fin x) {a : ν} {xs ys : List ν}
    (h : Chain next ok fin a xs) (h' : Chain next ok fin a ys) : xs = ys := by
  induction xs generalizing a ys with
  | nil =>
      cases ys with
      | nil => rfl
      | cons y ys =>
          obtain ⟨rfl, hy, -⟩ := cons_iff.mp h'
          exact absurd (nil_iff.mp h) (hok a hy)
  | cons x xs ih =>
      obtain ⟨rfl, hx, hrest⟩ := cons_iff.mp h
      cases ys with
      | nil => exact absurd (nil_iff.mp h') (hok a hx)
      | cons y ys =>
          obtain ⟨rfl, -, hrest'⟩ := cons_iff.mp h'
          rw [ih hrest hrest']

/-- The cells from a cell of a chain on are a chain themselves. -/
theorem suffix {a x : ν} {xs ys : List ν} (h : Chain next ok fin a (xs ++ x :: ys)) :
    Chain next ok fin x (x :: ys) := by
  obtain ⟨b, hb, hp⟩ := h
  obtain ⟨m, -, hp'⟩ := path_append.mp hp
  obtain ⟨rfl, hx, hrest⟩ := hp'
  exact ⟨b, hb, rfl, hx, hrest⟩

/-- A chain that ends visits no cell twice. -/
theorem nodup (hok : ∀ x, ok x → ¬ fin x) {a : ν} {xs : List ν}
    (h : Chain next ok fin a xs) : xs.Nodup := by
  rw [List.nodup_iff_sublist]
  intro x hsub
  -- two visits of `x` would give two chains from `x` of different lengths
  obtain ⟨l₁, l₂, rfl, hl₁, hl₂⟩ := List.append_sublist_iff.mp
    (show List.Sublist ([x] ++ [x]) xs from hsub)
  obtain ⟨p, q, rfl⟩ := List.append_of_mem (List.singleton_sublist.mp hl₁)
  obtain ⟨r, t, rfl⟩ := List.append_of_mem (List.singleton_sublist.mp hl₂)
  have h₁ : Chain next ok fin x (x :: (q ++ (r ++ x :: t))) :=
    @suffix _ _ _ _ _ _ p _ (by simpa using h)
  have h₂ : Chain next ok fin x (x :: t) :=
    @suffix _ _ _ _ _ _ (p ++ x :: q ++ r) _ (by simpa using h)
  have hlen := congrArg List.length (unique hok h₁ h₂)
  simp only [List.length_cons, List.length_append] at hlen
  omega

theorem next_mem_or_fin {a : ν} {xs : List ν} (h : Chain next ok fin a xs) {x : ν}
    (hx : x ∈ xs) : next x ∈ xs ∨ fin (next x) := by
  obtain ⟨b, hb, hp⟩ := h
  rcases hp.next_mem hx with hm | heq
  · exact Or.inl hm
  · exact Or.inr (heq ▸ hb)

theorem fin_next_last {a x : ν} {xs : List ν} (h : Chain next ok fin a (xs ++ [x])) :
    fin (next x) := by
  obtain ⟨b, hb, hp⟩ := h
  exact hp.next_last ▸ hb

/-- The start of a chain that is no end mark is its first cell. -/
theorem head_mem {a : ν} {xs : List ν} (h : Chain next ok fin a xs) (ha : ¬ fin a) :
    ∃ ys, xs = a :: ys := by
  cases xs with
  | nil => exact absurd (nil_iff.mp h) ha
  | cons x xs =>
      obtain ⟨rfl, -, -⟩ := cons_iff.mp h
      exact ⟨xs, rfl⟩

/-- Hang a fresh cell behind the last one. -/
theorem snoc {a p k : ν} {xs : List ν} (h : Chain next ok fin a (xs ++ [p]))
    (hk : ok k) (hp : next' p = k) (hfin : fin (next' k))
    (hsame : ∀ x ∈ xs, next' x = next x) : Chain next' ok fin a (xs ++ [p] ++ [k]) := by
  obtain ⟨b, -, hpath⟩ := h
  obtain ⟨m, h₁, rfl, hokp, -⟩ := path_append.mp hpath
  refine ⟨next' k, hfin, path_append.mpr ⟨k, path_append.mpr ⟨m, h₁.congr hsame, ?_⟩, ?_⟩⟩
  · exact ⟨rfl, hokp, hp⟩
  · exact ⟨rfl, hk, rfl⟩

end Chain

end Chimaera.Links
