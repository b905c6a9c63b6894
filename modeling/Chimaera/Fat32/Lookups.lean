/-
Lookups by what answers to a name: the entry found is the first one that does.
-/
import Chimaera.Fat32.Files

namespace Chimaera.Fat32

variable {w : View} {ch : Nat → List Nat} {D D' : List Dir} {T : List Nat} {l l' : Listing}
  {run r : List DirEntry} {e x z : DirEntry} {a s t i j k : Nat} {v : Vol} {path nm : CStr}

/-- The first entry that answers to a name is the one that is found. -/
theorem Listing.find_least (h : l.find nm = some (j, run, e)) : called nm run e = true ∧
    ∀ k r x, l.At k r x → called nm r x = true → j + run.length ≤ k := by
  obtain ⟨pre, post, heq, rfl, hcalled, hpre⟩ := findFrom_eq_some h
  refine ⟨hcalled, fun k r x hat hc => ?_⟩
  unfold Listing.At at hat
  rw [heq, at_append, ← List.singleton_append, at_append, at_entry] at hat
  rcases hat with hat | ⟨rfl, rfl, -⟩ | hat
  · have hno := hpre _ hat.mem
    rw [Item.isCalled, hc] at hno
    cases hno
  · omega
  · have hge := hat.ge
    rw [length_slots_entry] at hge
    omega

theorem Listing.find_of_least (hat : l.At i run e) (hc : called nm run e = true)
    (hleast : ∀ k r x, l.At k r x → called nm r x = true → i ≤ k) :
    ∃ j, l.find nm = some (j, run, e) ∧ i = j + run.length := by
  cases hf : l.find nm with
  | none =>
      have hno := findFrom_eq_none.mp hf _ hat.mem
      rw [Item.isCalled, hc] at hno
      cases hno
  | some q =>
      obtain ⟨j, r, x⟩ := q
      obtain ⟨hc', hleast'⟩ := Listing.find_least hf
      have hat' := Listing.find_at hf
      have hi : i = j + r.length :=
        Nat.le_antisymm (hleast _ _ _ hat' hc') (hleast' _ _ _ hat hc)
      subst hi
      obtain ⟨rfl, rfl⟩ := hat.unique hat'
      exact ⟨j, rfl, rfl⟩

/-- The entry in slot `i` of the directory at `s` answers to the name. -/
def Calls (D : List Dir) (s : Nat) (nm : CStr) (i : Nat) : Prop :=
  ∃ run e, EntryAt D s i run e ∧ called nm run e = true

theorem pathAt_iff (hnd : (D.map Dir.start).Nodup) : PathAt v D path s i run e ↔
    (resolveParent v D path).1 = s ∧ (resolveParent v D path).2 ≠ [] ∧ EntryAt D s i run e ∧
      called (resolveParent v D path).2 run e = true ∧
      ∀ k, Calls D s (resolveParent v D path).2 k → i ≤ k := by
  constructor
  · rintro ⟨l, j, hd, hs, hne, hfind, rfl⟩
    obtain ⟨hc, hleast⟩ := Listing.find_least hfind
    refine ⟨hs, hne, ⟨_, hd, rfl, Listing.find_at hfind⟩, hc, ?_⟩
    rintro k ⟨r, x, hat, hcx⟩
    exact hleast k r x ((entryAt_iff hnd hd).mp hat) hcx
  · rintro ⟨hs, hne, ⟨⟨a, l⟩, hd, ha, hat⟩, hc, hleast⟩
    change a = s at ha
    subst ha
    obtain ⟨j, hfind, hi⟩ := Listing.find_of_least hat hc fun k r x hx hcx =>
      hleast k ⟨r, x, (entryAt_iff hnd hd).mpr hx, hcx⟩
    exact ⟨l, j, hd, hs, hne, hfind, hi⟩

theorem PathAt.calls (hp : PathAt v D path s i run e) (hnd : (D.map Dir.start).Nodup) :
    Calls D (resolveParent v D path).1 (resolveParent v D path).2 i := by
  obtain ⟨hs, -, hat, hc, -⟩ := (pathAt_iff hnd).mp hp
  rw [hs]
  exact ⟨run, e, hat, hc⟩

/-- The path names what is in slot `i` of the directory at `s`. -/
def Denotes (v : Vol) (D : List Dir) (path : CStr) (s i : Nat) : Prop :=
  ∃ run e, PathAt v D path s i run e

theorem denotes_iff (hnd : (D.map Dir.start).Nodup) : Denotes v D path s i ↔
    (resolveParent v D path).1 = s ∧ (resolveParent v D path).2 ≠ [] ∧
      Calls D s (resolveParent v D path).2 i ∧
      ∀ k, Calls D s (resolveParent v D path).2 k → i ≤ k := by
  unfold Denotes
  constructor
  · rintro ⟨run, e, hp⟩
    obtain ⟨hs, hne, hat, hc, hleast⟩ := (pathAt_iff hnd).mp hp
    exact ⟨hs, hne, ⟨run, e, hat, hc⟩, hleast⟩
  · rintro ⟨hs, hne, ⟨run, e, hat, hc⟩, hleast⟩
    exact ⟨run, e, (pathAt_iff hnd).mpr ⟨hs, hne, hat, hc, hleast⟩⟩

/-- A name that is not found is answered by nothing. -/
theorem not_calls (hnd : (D.map Dir.start).Nodup) (hd : ⟨s, l⟩ ∈ D) (hf : l.find nm = none) :
    ¬ Calls D s nm i := by
  rintro ⟨run, e, hat, hc⟩
  have hno := findFrom_eq_none.mp hf _ ((entryAt_iff hnd hd).mp hat).mem
  rw [Item.isCalled, hc] at hno
  cases hno

theorem not_calls_of_statPath (h : w.Layout ch D T) (hno : statPath w.vol ch D path = none)
    (hpar : (resolveParent w.vol D path).1 ≠ 0) (hnm : (resolveParent w.vol D path).2 ≠ []) :
    ¬ Calls D (resolveParent w.vol D path).1 (resolveParent w.vol D path).2 i := by
  obtain ⟨⟨s, l⟩, hd, hs⟩ := (resolveParent_mem h path).resolve_left hpar
  change s = _ at hs
  subst hs
  exact not_calls h.tree.nodup hd (h.find_eq_none hno hd hnm)

theorem statPath_some_iff (h : w.Layout ch D T) {p : PathInfo} (hroot : path ≠ [0x2F]) :
    statPath w.vol ch D path = some p ↔
      ∃ s i run e, PathAt w.vol D path s i run e ∧ p = ⟨e, posAt w.vol 0 (ch s) i, s⟩ := by
  constructor
  · intro hp
    rw [statPath, if_neg hroot] at hp
    simp only at hp
    split at hp
    · cases hp
    · next hno =>
      obtain ⟨h0, hne⟩ := not_or.mp hno
      obtain ⟨⟨s, l⟩, hd, hs⟩ := (resolveParent_mem h path).resolve_left h0
      change s = _ at hs
      rw [← hs, h.listingOf hd, Option.bind_some, Listing.found, Option.map_map,
        Option.map_eq_some_iff] at hp
      obtain ⟨⟨j, run, e⟩, hfind, rfl⟩ := hp
      exact ⟨s, j + run.length, run, e, ⟨l, j, hd, hs.symm, hne, hfind, rfl⟩, rfl⟩
  · rintro ⟨s, i, run, e, hp, rfl⟩
    exact statPath_of_pathAt h hp

theorem EntryAt.unique (he : EntryAt D s i run e) (hnd : (D.map Dir.start).Nodup)
    (hx : EntryAt D s i r x) : run = r ∧ e = x := by
  obtain ⟨⟨a, l⟩, hd, ha, hat⟩ := he
  change a = s at ha
  subst ha
  exact hat.unique ((entryAt_iff hnd hd).mp hx)

/-- One place on the disk, one entry. -/
theorem EntryAt.place_unique {n : Nat} (he : EntryAt D s i run e) (hx : EntryAt D t j r x)
    (h : w.Layout ch D T) (hs : w.vol.Sound n)
    (hplace : ((posAt w.vol 0 (ch s) i).lba, (posAt w.vol 0 (ch s) i).off) =
      ((posAt w.vol 0 (ch t) j).lba, (posAt w.vol 0 (ch t) j).off)) : s = t ∧ i = j := by
  obtain ⟨⟨a, l⟩, hd, ha, hat⟩ := he
  obtain ⟨⟨b, l'⟩, hd', hb, hat'⟩ := hx
  change a = s at ha
  change b = t at hb
  subst ha hb
  have hl := h.lists hd
  have hl' := h.lists hd'
  have hi : i < (ch a).length * w.vol.perCluster := by
    rw [← hl.length_slots]
    exact hat.lt
  have hj : j < (ch b).length * w.vol.perCluster := by
    rw [← hl'.length_slots]
    exact hat'.lt
  obtain ⟨hlba, hoff⟩ := Prod.mk.inj hplace
  have hclus : (ch a).getD (i / w.vol.perCluster) 0 = (ch b).getD (j / w.vol.perCluster) 0 := by
    simp only [posAt] at hlba
    exact (Vol.Sound.secLba_inj (hl.chain.inRange (getD_mem hi)) (hl'.chain.inRange (getD_mem hj))
      (index_lt hs.spc_pos) (index_lt hs.spc_pos) hlba).1
  have hab : a = b := h.chains.start_unique (h.sound_start hd) (h.sound_start hd') (getD_mem hi)
    (hclus ▸ getD_mem hj)
  subst hab
  exact ⟨rfl, posAt_inj hs (hl.chain.nodup hs) (fun y hy => hl.chain.inRange hy) hi hj hlba hoff⟩

section Changes

variable (hnd : (D.map Dir.start).Nodup) (hd : ⟨s, l⟩ ∈ D)

include hnd hd

theorem entryAt_deleted (h : l.Deleted l' i run e) : EntryAt (setListing D s l') t j r z ↔
    EntryAt D t j r z ∧ ¬ (t = s ∧ j = i) := by
  rw [entryAt_setListing hd, h.at_iff]
  by_cases hts : t = s
  · subst hts
    rw [entryAt_iff hnd hd]
    simp
  · simp [hts]

theorem entryAt_updated (h : l.Updated l' i run e x) : EntryAt (setListing D s l') t j r z ↔
    (EntryAt D t j r z ∧ ¬ (t = s ∧ j = i)) ∨ (t = s ∧ j = i ∧ r = run ∧ z = x) := by
  rw [entryAt_setListing hd, h.at_iff]
  by_cases hts : t = s
  · subst hts
    rw [entryAt_iff hnd hd]
    simp
  · simp [hts]

theorem entryAt_inserted (h : l.Inserted l' k run e) : EntryAt (setListing D s l') t j r z ↔
    EntryAt D t j r z ∨ (t = s ∧ j = k + run.length ∧ r = run ∧ z = e) := by
  rw [entryAt_setListing hd, h.at_iff]
  by_cases hts : t = s
  · subst hts
    rw [entryAt_iff hnd hd]
    simp
  · simp [hts]

theorem calls_deleted (h : l.Deleted l' i run e) : Calls (setListing D s l') t nm k ↔
    Calls D t nm k ∧ ¬ (t = s ∧ k = i) := by
  unfold Calls
  simp only [entryAt_deleted hnd hd h]
  constructor
  · rintro ⟨r, z, ⟨hat, hne⟩, hc⟩
    exact ⟨⟨r, z, hat, hc⟩, hne⟩
  · rintro ⟨⟨r, z, hat, hc⟩, hne⟩
    exact ⟨r, z, ⟨hat, hne⟩, hc⟩

/-- A walk that got to its directory gets there without the entry of a file. -/
theorem resolveParent_deleted (hdel : l.Deleted l' i run e) (hat : l.At i run e)
    (hfile : e.isDir = false) (h : (resolveParent v D path).1 ≠ 0) :
    resolveParent v (setListing D s l') path = resolveParent v D path := by
  unfold resolveParent at h ⊢
  split
  · exact resolve_delete hnd hd hdel hat hfile (Or.inl h)
  · rfl

/-- What a path denotes without the entry in slot `i`: the first of the others. -/
theorem denotes_deleted (hdel : l.Deleted l' i run e) (hat : l.At i run e)
    (hfile : e.isDir = false) (h : (resolveParent v D path).1 ≠ 0) :
    Denotes v (setListing D s l') path t j ↔
      (resolveParent v D path).1 = t ∧ (resolveParent v D path).2 ≠ [] ∧
      (Calls D t (resolveParent v D path).2 j ∧ ¬ (t = s ∧ j = i)) ∧
      ∀ k, Calls D t (resolveParent v D path).2 k ∧ ¬ (t = s ∧ k = i) → j ≤ k := by
  rw [denotes_iff (by rwa [map_start_setListing]), resolveParent_deleted hnd hd hdel hat hfile h]
  simp only [calls_deleted hnd hd hdel]

theorem PathAt.deleted (hp : PathAt v D path t j r z) (hdel : l.Deleted l' i run e)
    (hat : l.At i run e) (hfile : e.isDir = false) (h : (resolveParent v D path).1 ≠ 0)
    (hne : ¬ (t = s ∧ j = i)) : PathAt v (setListing D s l') path t j r z := by
  obtain ⟨hs, hnm, he, hc, hleast⟩ := (pathAt_iff hnd).mp hp
  rw [pathAt_iff (by rwa [map_start_setListing]), resolveParent_deleted hnd hd hdel hat hfile h]
  refine ⟨hs, hnm, (entryAt_deleted hnd hd hdel).mpr ⟨he, hne⟩, hc, fun k hk => ?_⟩
  exact hleast k ((calls_deleted hnd hd hdel).mp hk).1

end Changes

end Chimaera.Fat32
