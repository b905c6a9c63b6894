/-
The tree of a consistent volume, from the cluster numbers: what lies below a
directory, on disjoint chains.
-/
import Chimaera.Trees
import Chimaera.Fat32.Layout
import Mathlib.Data.List.Pairwise

namespace Chimaera.Fat32

open Relation

variable {D : List Dir} {ch : Nat → List Nat} {v : View} {d : Dir} {a b m x : Nat}

/-- `b` is the cluster of an entry in the directory `a`. -/
def Child (D : List Dir) (a b : Nat) : Prop := ∃ d ∈ D, d.start = a ∧ b ∈ d.listing.targets

/-- `b` is the cluster of an entry in the directory `a` or further down. -/
def Below (D : List Dir) (a b : Nat) : Prop := ∃ m, Reach D a m ∧ Child D m b

/-- The cluster `x` is on the chain of something below `a`. -/
def Covered (D : List Dir) (ch : Nat → List Nat) (a x : Nat) : Prop := ∃ b, Below D a b ∧ x ∈ ch b

/-- The clusters that an item of a directory stands for: those of its own chain, and
of everything below it. -/
def Item.Covers (D : List Dir) (ch : Nat → List Nat) : Item → Nat → Prop
  | .entry _ e, x => e.cluster ≠ 0 ∧
      (x ∈ ch e.cluster ∨ e.isDir = true ∧ Covered D ch e.cluster x)
  | _, _ => False

theorem mem_targets {l : Listing} :
    b ∈ l.targets ↔ ∃ run e, Item.entry run e ∈ l.items ∧ e.cluster ≠ 0 ∧ e.cluster = b := by
  unfold Listing.targets
  rw [List.mem_filterMap]
  constructor
  · rintro ⟨it, hit, htarget⟩
    cases it with
    | hole e => exact absurd htarget (by simp [Item.target])
    | dot e => exact absurd htarget (by simp [Item.target])
    | entry run e =>
        by_cases h0 : e.cluster = 0
        · rw [Item.target_none h0] at htarget
          exact absurd htarget (by simp)
        · rw [Item.target_entry h0] at htarget
          exact ⟨run, e, hit, h0, Option.some.inj htarget⟩
  · rintro ⟨run, e, hit, h0, rfl⟩
    exact ⟨_, hit, Item.target_entry h0⟩

theorem Reach.trans (h : Reach D a m) (h' : Reach D m x) : Reach D a x := by
  induction h' with
  | root => exact h
  | sub hd _ he hdir h0 ih => exact Reach.sub hd ih he hdir h0

theorem Reach.reflTransGen (h : Reach D a m) : ReflTransGen (Child D) a m := by
  induction h with
  | root => exact .refl
  | sub hd _ he _ h0 ih => exact ih.tail ⟨_, hd, rfl, mem_targets.mpr ⟨_, _, he, h0, rfl⟩⟩

/-- The first step of the way down. -/
theorem Reach.cases_head (h : Reach D a m) : m = a ∨ ∃ d ∈ D, d.start = a ∧
    ∃ run e, Item.entry run e ∈ d.listing.items ∧ e.isDir = true ∧ e.cluster ≠ 0 ∧
      Reach D e.cluster m := by
  induction h with
  | root => exact Or.inl rfl
  | @sub d run e hd _ he hdir h0 ih =>
      rcases ih with heq | ⟨d', hd', hstart, run', e', he', hdir', h0', hr⟩
      · exact Or.inr ⟨d, hd, heq, run, e, he, hdir, h0, Reach.root⟩
      · exact Or.inr ⟨d', hd', hstart, run', e', he', hdir', h0', Reach.sub hd hr he hdir h0⟩

theorem Below.reflTransGen (h : Below D a b) : ReflTransGen (Child D) a b := by
  obtain ⟨m, hr, hb⟩ := h
  exact hr.reflTransGen.tail hb

/-- What is below something below a directory is below the directory. -/
theorem Below.of_reach (h : Reach D a m) (hb : Below D m b) : Below D a b := by
  obtain ⟨x, hr, hx⟩ := hb
  exact ⟨x, h.trans hr, hx⟩

/-- What lies below a directory is what its items stand for. -/
theorem View.Tree.covered_iff (h : v.Tree ch D) (hd : d ∈ D) :
    Covered D ch d.start x ↔ ∃ it ∈ d.listing.items, it.Covers D ch x := by
  constructor
  · rintro ⟨b, ⟨m, hr, hb⟩, hx⟩
    rcases hr.cases_head with rfl | ⟨d', hd', hstart, run, e, he, hdir, h0, hr'⟩
    · obtain ⟨d', hd', hstart, htarget⟩ := hb
      obtain rfl := eq_of_start_eq h.nodup hd' hd hstart
      obtain ⟨run, e, he, h0, rfl⟩ := mem_targets.mp htarget
      exact ⟨_, he, h0, Or.inl hx⟩
    · obtain rfl := eq_of_start_eq h.nodup hd' hd hstart
      exact ⟨_, he, h0, Or.inr ⟨hdir, b, ⟨m, hr', hb⟩, hx⟩⟩
  · rintro ⟨it, hit, hx⟩
    cases it with
    | hole e => exact absurd hx (by simp [Item.Covers])
    | dot e => exact absurd hx (by simp [Item.Covers])
    | entry run e =>
        obtain ⟨h0, hx | ⟨hdir, b, hb, hx⟩⟩ := hx
        · exact ⟨e.cluster,
            ⟨d.start, Reach.root, d, hd, rfl, mem_targets.mpr ⟨run, e, hit, h0, rfl⟩⟩, hx⟩
        · exact ⟨b, .of_reach (Reach.sub hd Reach.root hit hdir h0) hb, hx⟩

/-- The item's cluster, and the entry below it whose chain has `x`. -/
theorem Item.Covers.exists {it : Item} (h : it.Covers D ch x) : ∃ t b, it.target = some t ∧
    ReflTransGen (Child D) t b ∧ x ∈ ch b := by
  cases it with
  | hole e => exact absurd h (by simp [Item.Covers])
  | dot e => exact absurd h (by simp [Item.Covers])
  | entry run e =>
      obtain ⟨h0, hx | ⟨-, b, hb, hx⟩⟩ := h
      · exact ⟨e.cluster, e.cluster, Item.target_entry h0, .refl, hx⟩
      · exact ⟨e.cluster, b, Item.target_entry h0, hb.reflTransGen, hx⟩

namespace View.Layout

theorem isTree (h : v.Layout ch D []) : IsTree (Child D) v.vol.rootCluster := by
  have hnd := h.chains.nodup_start
  rw [List.append_nil] at hnd
  obtain ⟨hroot, hflat⟩ := List.nodup_cons.mp hnd
  constructor
  · rintro a b x ⟨d, hd, rfl, hx⟩ ⟨d', hd', rfl, hx'⟩
    by_contra hne
    have : Std.Symm (Function.onFun List.Disjoint fun d : Dir => d.listing.targets) :=
      ⟨fun _ _ h => h.symm⟩
    have hdis := (List.nodup_flatMap.mp hflat).2.forall hd hd' fun heq => hne (by rw [heq])
    exact hdis hx hx'
  · rintro a ⟨d, hd, -, hx⟩
    exact hroot (List.mem_flatMap.mpr ⟨d, hd, hx⟩)

theorem mem_starts_of_child (h : Child D a b) : b ∈ starts v.vol D := by
  obtain ⟨d, hd, -, hb⟩ := h
  exact List.mem_cons_of_mem _ (List.mem_flatMap.mpr ⟨d, hd, hb⟩)

/-- Whatever a step leads to has a chain of its own. -/
theorem mem_starts_of_below (ha : a ∈ starts v.vol D) (h : ReflTransGen (Child D) a b) :
    b ∈ starts v.vol D := by
  obtain rfl | ⟨m, -, hb⟩ := ReflTransGen.cases_tail h
  · exact ha
  · exact mem_starts_of_child hb

theorem start_eq (h : v.Layout ch D []) (ha : a ∈ starts v.vol D) (hb : b ∈ starts v.vol D)
    (hxa : x ∈ ch a) (hxb : x ∈ ch b) : a = b :=
  h.chains.start_unique (List.mem_append_left _ ha) (List.mem_append_left _ hb) hxa hxb

/-- What lies below a directory is not on its own chain. -/
theorem not_mem_of_covered (h : v.Layout ch D []) (ha : a ∈ starts v.vol D)
    (hr : ReflTransGen (Child D) v.vol.rootCluster a) (hx : Covered D ch a x) : x ∉ ch a := by
  obtain ⟨b, ⟨m, hm, hb⟩, hx⟩ := hx
  intro hxa
  obtain rfl := h.start_eq ha (mem_starts_of_child hb) hxa hx
  exact h.isTree.acyclic hr (TransGen.tail' hm.reflTransGen hb)

/-- Different items of a directory stand for different clusters. -/
theorem pairwise_covers (h : v.Layout ch D []) (hd : d ∈ D) :
    d.listing.items.Pairwise fun it it' => ∀ x, it.Covers D ch x → ¬ it'.Covers D ch x := by
  have hnd := h.chains.nodup_start
  rw [List.append_nil] at hnd
  have htargets : d.listing.targets.Nodup :=
    (List.nodup_flatMap.mp (List.nodup_cons.mp hnd).2).1 d hd
  have hroot := (h.tree.reach d hd).reflTransGen
  refine (List.pairwise_filterMap.mp htargets).imp_of_mem fun {it it'} hit hit' hne x hx hx' => ?_
  obtain ⟨t, b, ht, hb, hxb⟩ := hx.exists
  obtain ⟨t', b', ht', hb', hxb'⟩ := hx'.exists
  have hchild : Child D d.start t := ⟨d, hd, rfl, List.mem_filterMap.mpr ⟨it, hit, ht⟩⟩
  have hchild' : Child D d.start t' := ⟨d, hd, rfl, List.mem_filterMap.mpr ⟨it', hit', ht'⟩⟩
  obtain rfl := h.start_eq (mem_starts_of_below (mem_starts_of_child hchild) hb)
    (mem_starts_of_below (mem_starts_of_child hchild') hb') hxb hxb'
  exact h.isTree.disjoint hroot hchild hchild' (hne t ht t' ht') hb hb'

/-- Every chain is the root's or below the root. -/
theorem mem_or_covered (h : v.Layout ch D []) {k : Nat} (hk : k ∈ (starts v.vol D).flatMap ch) :
    k ∈ ch v.vol.rootCluster ∨ Covered D ch v.vol.rootCluster k := by
  obtain ⟨a, ha, hka⟩ := List.mem_flatMap.mp hk
  rcases List.mem_cons.mp ha with rfl | ha
  · exact Or.inl hka
  · obtain ⟨d, hd, hb⟩ := List.mem_flatMap.mp ha
    exact Or.inr ⟨a, ⟨d.start, h.tree.reach d hd, d, hd, rfl, hb⟩, hka⟩

end View.Layout

end Chimaera.Fat32
