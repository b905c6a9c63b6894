/-
Path resolution on a layout: the driver's walk along a path is a function of
the directories.
-/
import Chimaera.Fat32.Layout
import Mathlib.Data.List.TakeWhile

namespace Chimaera.Fat32

open Prog

variable {β : Type} {R : β → View → Prop} {w : View} {ch : Nat → List Nat} {D : List Dir}
  {T : List Nat} {v : Vol}

theorem length_pathRest_lt {p : CStr} (h : p ≠ []) : (pathRest p).length < p.length := by
  have hpos := List.length_pos_iff.mpr h
  have hle := (List.dropWhile_sublist (l := p) fun x => x != 0x2F).length_le
  unfold pathRest
  rw [List.length_drop]
  omega

/-- The contents of the directory that starts at `a`. -/
def listingOf (D : List Dir) (a : Nat) : Option Listing :=
  (D.find? fun d => d.start == a).map Dir.listing

/-- `path_resolve_parent` from the directory `a` on; directory 0 is an error. -/
def resolve (v : Vol) (D : List Dir) (a : Nat) (p : CStr) : Nat × CStr :=
  if p = [] then (a, [])
  else if pathRest p = [] then (a, pathComp p)
  else match (listingOf D a).bind fun l => l.find (pathComp p) with
    | none => (0, [])
    | some r => if r.2.2.isDir then resolve v D (v.dirTarget r.2.2) (pathRest p) else (0, [])
termination_by p.length
decreasing_by exact length_pathRest_lt ‹_›

/-- `path_resolve_parent` on a layout. -/
def resolveParent (v : Vol) (D : List Dir) : CStr → Nat × CStr
  | 0x2F :: rest => resolve v D v.rootCluster rest
  | _ => (0, [])

/-- `path_stat` on a layout. -/
def statPath (v : Vol) (ch : Nat → List Nat) (D : List Dir) (path : CStr) : Option PathInfo :=
  if path = [0x2F] then some ⟨rootEntry v, ⟨0, 0, 0, 0⟩, 0⟩
  else
    let r := resolveParent v D path
    if r.1 = 0 ∨ r.2 = [] then none
    else ((listingOf D r.1).bind fun l => l.found v (ch r.1) r.2).map fun f =>
      ⟨f.1, f.2.1, r.1⟩

/-- A path of one component names something in the root directory. -/
theorem resolveParent_single {v : Vol} {name : CStr} (hne : name ≠ [])
    (hlen : name.length ≤ 255) (hno : ∀ c ∈ name, c ≠ 0x2F) :
    resolveParent v D (0x2F :: name) = (v.rootCluster, name) := by
  have htake : name.takeWhile (· != 0x2F) = name :=
    List.takeWhile_eq_self_iff.mpr fun c hc => by simpa using hno c hc
  have hdrop : name.dropWhile (· != 0x2F) = [] :=
    List.dropWhile_eq_nil_iff.mpr fun c hc => by simpa using hno c hc
  rw [resolveParent, resolve, if_neg hne, pathRest, hdrop, List.drop_nil, if_pos rfl, pathComp,
    htake, List.take_of_length_le hlen]

theorem listingOf_start (hnd : (D.map Dir.start).Nodup) {d : Dir} (hd : d ∈ D) :
    listingOf D d.start = some d.listing := by
  induction D with
  | nil => simp at hd
  | cons x xs ih =>
      rw [List.map_cons, List.nodup_cons] at hnd
      unfold listingOf
      rw [List.find?_cons]
      by_cases hx : x = d
      · subst hx
        simp
      · have hdx := (List.mem_cons.mp hd).resolve_left (Ne.symm hx)
        have hne : (x.start == d.start) = false := by
          rw [beq_eq_false_iff_ne]
          intro heq
          exact hnd.1 (heq ▸ List.mem_map_of_mem hdx)
        rw [hne]
        exact ih hnd.2 hdx

namespace View.Layout

theorem sound_start (h : w.Layout ch D T) {d : Dir} (hd : d ∈ D) :
    d.start ∈ starts w.vol D ++ T :=
  List.mem_append_left T (h.tree.start_mem hd)

theorem lists (h : w.Layout ch D T) {d : Dir} (hd : d ∈ D) :
    w.Lists d.start (ch d.start) d.listing := by
  obtain ⟨hch, hne⟩ := h.chains.chain d.start (h.sound_start hd)
  exact ⟨hch, hne, h.tree.slots d hd⟩

theorem listingOf (h : w.Layout ch D T) {d : Dir} (hd : d ∈ D) :
    Fat32.listingOf D d.start = some d.listing :=
  listingOf_start h.tree.nodup hd

/-- Entries of directories lead to directories of the layout. -/
theorem dirTarget_mem (h : w.Layout ch D T) {d : Dir} (hd : d ∈ D) {run : List DirEntry}
    {e : DirEntry} (he : Item.entry run e ∈ d.listing.items) (hdir : e.isDir = true) :
    ∃ d' ∈ D, d'.start = w.vol.dirTarget e := by
  unfold Vol.dirTarget
  split
  · exact h.tree.root
  · next h0 => exact h.tree.closed d hd run e he hdir h0

end View.Layout

theorem Listing.find_eq_some {l : Listing} {name : CStr} {j : Nat} {run : List DirEntry}
    {e : DirEntry} (h : l.find name = some (j, run, e)) :
    ∃ pre post, l.items = pre ++ Item.entry run e :: post ∧
      j = (pre.flatMap Item.slots).length ∧ called name run e = true ∧
      ∀ it ∈ pre, it.isCalled name = false := by
  have := findFrom_eq_some h
  simpa only [Nat.zero_add] using this

/-- A path resolves to an error or to a directory of the layout. -/
theorem resolve_mem (h : w.Layout ch D T) {a : Nat} (ha : ∃ d ∈ D, d.start = a) (p : CStr) :
    (resolve w.vol D a p).1 = 0 ∨ ∃ d ∈ D, d.start = (resolve w.vol D a p).1 := by
  induction hn : p.length using Nat.strong_induction_on generalizing a p with
  | h n ih =>
      rw [resolve]
      split
      · exact Or.inr ha
      · next hp =>
          split
          · exact Or.inr ha
          · obtain ⟨d, hd, rfl⟩ := ha
            rw [h.listingOf hd]
            cases hf : d.listing.find (pathComp p) with
            | none => simp [hf]
            | some r =>
                obtain ⟨j, run, e⟩ := r
                simp only [Option.bind_some, hf]
                split
                · next hdir =>
                    obtain ⟨pre, post, heq, -⟩ := Listing.find_eq_some hf
                    have he : Item.entry run e ∈ d.listing.items := by simp [heq]
                    exact ih _ (hn ▸ length_pathRest_lt hp) (h.dirTarget_mem hd he hdir)
                      (pathRest p) rfl
                · exact Or.inl rfl

/-- The last component that a path resolves to is a piece of the path. -/
theorem resolve_name {a : Nat} (p : CStr) : (resolve v D a p).2.length ≤ 255 ∧
    ∀ c ∈ (resolve v D a p).2, c ∈ p ∧ c ≠ 0x2F := by
  induction hn : p.length using Nat.strong_induction_on generalizing a p with
  | h n ih =>
      rw [resolve]
      split
      · simp
      · next hp =>
          split
          · refine ⟨List.length_take_le _ _, fun c hc => ?_⟩
            have hc' := List.mem_of_mem_take hc
            exact ⟨(List.takeWhile_sublist _).subset hc', by
              simpa using List.all_eq_true.mp List.all_takeWhile c hc'⟩
          · split
            · simp
            · next r _ =>
                split
                · obtain ⟨hlen, hmem⟩ := ih _ (hn ▸ length_pathRest_lt hp)
                    (a := v.dirTarget r.2.2) (pathRest p) rfl
                  refine ⟨hlen, fun c hc => ⟨?_, (hmem c hc).2⟩⟩
                  exact (List.dropWhile_sublist _).subset (List.mem_of_mem_drop (hmem c hc).1)
                · simp

theorem resolveParent_mem (h : w.Layout ch D T) (path : CStr) :
    (resolveParent w.vol D path).1 = 0 ∨
      ∃ d ∈ D, d.start = (resolveParent w.vol D path).1 := by
  unfold resolveParent
  split
  · exact resolve_mem h h.tree.root _
  · exact Or.inl rfl

theorem resolveParent_name (path : CStr) : (resolveParent v D path).2.length ≤ 255 ∧
    ∀ c ∈ (resolveParent v D path).2, c ∈ path ∧ c ≠ 0x2F := by
  unfold resolveParent
  split
  · obtain ⟨hlen, hmem⟩ := resolve_name (v := v) (D := D) (a := v.rootCluster) ‹_›
    exact ⟨hlen, fun c hc => ⟨List.mem_cons_of_mem _ (hmem c hc).1, (hmem c hc).2⟩⟩
  · simp

theorem Holds.resolve (h : w.Layout ch D T) {d : Dir} (hd : d ∈ D) {p : CStr}
    {f : Nat × CStr → Prog Drv β} (hf : Holds (f (resolve w.vol D d.start p)) R w) :
    Holds (Prog.loop (resolveStep w.vol) (d.start, p) >>= f) R w := by
  apply Holds.bind
  induction hn : p.length using Nat.strong_induction_on generalizing d p with
  | h n ih =>
      apply Holds.loop
      rw [Fat32.resolve] at hf
      rw [resolveStep]
      by_cases hp : p = []
      · simp only [hp, if_true] at hf ⊢
        exact Holds.pure hf
      · simp only [hp, if_false] at hf ⊢
        by_cases hr : pathRest p = []
        · simp only [hr, if_true] at hf ⊢
          exact Holds.pure hf
        · simp only [hr, if_false, h.listingOf hd, Option.bind_some] at hf ⊢
          apply Holds.dirFind (h.lists hd)
          unfold Listing.found
          cases hfind : d.listing.find (pathComp p) with
          | none =>
              simp only [hfind, Option.map_none] at hf ⊢
              exact Holds.pure hf
          | some r =>
              obtain ⟨j, run, e⟩ := r
              simp only [hfind, Option.map_some] at hf ⊢
              cases hdir : e.isDir with
              | false =>
                  simp only [hdir, Bool.false_eq_true, if_false] at hf ⊢
                  exact Holds.pure hf
              | true =>
                  simp only [hdir, if_true] at hf ⊢
                  obtain ⟨pre, post, heq, -⟩ := Listing.find_eq_some hfind
                  have he : Item.entry run e ∈ d.listing.items := by simp [heq]
                  obtain ⟨d', hd', hs⟩ := h.dirTarget_mem hd he hdir
                  rw [← hs] at hf ⊢
                  apply Holds.pure
                  exact ih _ (hn ▸ length_pathRest_lt hp) hd' hf rfl

theorem Holds.pathResolveParent (h : w.Layout ch D T) {path : CStr}
    {f : Nat × CStr → Prog Drv β} (hf : Holds (f (resolveParent w.vol D path)) R w) :
    Holds (pathResolveParent path >>= f) R w := by
  rw [Fat32.pathResolveParent, bind_assoc]
  apply Holds.getStore
  intro c hc
  obtain ⟨d, hd, hs⟩ := h.tree.root
  unfold resolveParent at hf
  rw [hc.vol]
  split
  · next rest =>
      simp only at hf
      rw [← hs] at hf ⊢
      exact Holds.resolve h hd hf
  · next hno =>
      rw [pure_bind]
      split at hf
      · next rest => exact absurd rfl (hno rest)
      · exact hf

theorem Holds.pathStat (h : w.Layout ch D T) {path : CStr}
    {f : Option PathInfo → Prog Drv β} (hf : Holds (f (statPath w.vol ch D path)) R w) :
    Holds (pathStat path >>= f) R w := by
  rw [Fat32.pathStat, bind_assoc]
  apply Holds.getStore
  intro c hc
  rw [hc.vol]
  unfold statPath at hf
  by_cases hroot : path = [0x2F]
  · simp only [hroot, if_true, pure_bind] at hf ⊢
    exact hf
  · simp only [hroot, if_false] at hf ⊢
    rw [bind_assoc]
    apply Holds.pathResolveParent h
    by_cases herr : (resolveParent w.vol D path).1 = 0 ∨ (resolveParent w.vol D path).2 = []
    · simp only [herr, if_true, pure_bind] at hf ⊢
      exact hf
    · simp only [herr, if_false] at hf ⊢
      obtain ⟨d, hd, hs⟩ := (resolveParent_mem h path).resolve_left fun h0 => herr (Or.inl h0)
      rw [← hs, h.listingOf hd, Option.bind_some] at hf
      rw [← hs, bind_assoc]
      apply Holds.dirFind (h.lists hd)
      cases hfound : d.listing.found w.vol (ch d.start) (resolveParent w.vol D path).2 with
      | none =>
          simp only [hfound, Option.map_none, pure_bind] at hf ⊢
          exact hf
      | some r =>
          obtain ⟨e, pos, start⟩ := r
          simp only [hfound, Option.map_some, pure_bind] at hf ⊢
          exact hf

end Chimaera.Fat32
