/-
What it means for a volume to be consistent.  A layout names the directories
that are reachable from the root and the chain of every root, directory and
file; the chains are disjoint and hold every allocated cluster.
-/
import Chimaera.Fat32.Entries
import Mathlib.Data.List.Perm.Basic

namespace Chimaera.Fat32

structure Dir where
  start : Nat
  listing : Listing

/-- The cluster that an item leads to, when it leads to one. -/
def Item.target : Item → Option Nat
  | .entry _ e => if e.cluster = 0 then none else some e.cluster
  | _ => none

def Listing.targets (l : Listing) : List Nat := l.items.filterMap Item.target

/-- The first clusters of the chains of a volume: the root's and those of the
live entries of its directories. -/
def starts (v : Vol) (D : List Dir) : List Nat :=
  v.rootCluster :: D.flatMap fun d => d.listing.targets

/-- The directories that live entries lead to from the root. -/
inductive Reach (D : List Dir) (root : Nat) : Nat → Prop
  | root : Reach D root root
  | sub {d : Dir} {run : List DirEntry} {e : DirEntry} (hd : d ∈ D)
      (hr : Reach D root d.start) (he : Item.entry run e ∈ d.listing.items)
      (hdir : e.isDir = true) (h0 : e.cluster ≠ 0) : Reach D root e.cluster

/-- `ch a` is the chain from `a`, for every `a` in `S`: the chains are in
range, end, share no cluster, and hold every cluster that is neither free nor
bad. -/
structure View.Chains (w : View) (ch : Nat → List Nat) (S : List Nat) : Prop where
  chain : ∀ a ∈ S, w.Chain a (ch a) ∧ ch a ≠ []
  nodup : (S.flatMap ch).Nodup
  covered : ∀ k, w.vol.InRange k → w.fat k ≠ 0 → w.fat k ≠ 0x0FFFFFF7 → k ∈ S.flatMap ch

def room (v : Vol) (ch : Nat → List Nat) (cluster : Nat) : Nat :=
  if cluster = 0 then 0 else (ch cluster).length * (v.secPerClus * 512)

/-- `D` lists the directories reachable from the root, with their contents. -/
structure View.Tree (w : View) (ch : Nat → List Nat) (D : List Dir) : Prop where
  root : ∃ d ∈ D, d.start = w.vol.rootCluster
  nodup : (D.map Dir.start).Nodup
  slots : ∀ d ∈ D, w.slots (ch d.start) = d.listing.slots
  closed : ∀ d ∈ D, ∀ run e, Item.entry run e ∈ d.listing.items → e.isDir = true →
    e.cluster ≠ 0 → ∃ d' ∈ D, d'.start = e.cluster
  reach : ∀ d ∈ D, Reach D w.vol.rootCluster d.start
  size : ∀ d ∈ D, ∀ run e, Item.entry run e ∈ d.listing.items → e.isDir = false →
    e.size ≤ room w.vol ch e.cluster

/-- A layout of the volume; the chains of `T` belong to no entry. -/
structure View.Layout (w : View) (ch : Nat → List Nat) (D : List Dir) (T : List Nat) :
    Prop where
  chains : w.Chains ch (starts w.vol D ++ T)
  tree : w.Tree ch D

def View.Consistent (w : View) : Prop := ∃ ch D, w.Layout ch D []

def Drv.Consistent (s : Drv) : Prop := ∃ w, s.toStore.Shows w ∧ w.Consistent

namespace View.Chains

variable {w w' : View} {ch ch' : Nat → List Nat} {S S' : List Nat} {a b k n : Nat}

theorem perm (h : w.Chains ch S) (hp : S.Perm S') : w.Chains ch S' :=
  ⟨fun a ha => h.chain a (hp.mem_iff.mpr ha), (hp.flatMap_right ch).nodup_iff.mp h.nodup,
    fun k hk h0 h7 => (hp.flatMap_right ch).mem_iff.mp (h.covered k hk h0 h7)⟩

theorem of_fat (h : w.Chains ch S) (hv : w'.vol = w.vol) (hf : w'.fat = w.fat) :
    w'.Chains ch S := by
  refine ⟨fun a ha => ⟨(h.chain a ha).1.of_fat hv fun x _ => by rw [hf], (h.chain a ha).2⟩,
    h.nodup, ?_⟩
  rw [hv, hf]
  exact h.covered

theorem mem_self (h : w.Chains ch S) (ha : a ∈ S) : a ∈ ch a := by
  obtain ⟨hch, hne⟩ := h.chain a ha
  cases hc : ch a with
  | nil => exact absurd hc hne
  | cons x xs =>
      rw [hc] at hch
      obtain ⟨rfl, -, -⟩ := Links.Chain.cons_iff.mp hch
      exact List.mem_cons_self

theorem inRange (h : w.Chains ch S) (ha : a ∈ S) {x : Nat} (hx : x ∈ ch a) :
    w.vol.InRange x :=
  (h.chain a ha).1.inRange hx

theorem fat_ne (h : w.Chains ch S) (hs : w.vol.Sound n) (ha : a ∈ S) {x : Nat}
    (hx : x ∈ ch a) : w.fat x ≠ 0 ∧ w.fat x ≠ 0x0FFFFFF7 :=
  (h.chain a ha).1.fat_ne hs hx

/-- A free cluster lies on no chain. -/
theorem not_mem_of_free (h : w.Chains ch S) (hs : w.vol.Sound n) (h0 : w.fat k = 0) :
    k ∉ S.flatMap ch := by
  intro hk
  obtain ⟨a, ha, hka⟩ := List.mem_flatMap.mp hk
  exact (h.fat_ne hs ha hka).1 h0

/-- The chains of two starts share no cluster. -/
theorem disjoint (h : w.Chains ch (a :: S)) (hb : b ∈ S) {x : Nat} (hx : x ∈ ch a) :
    x ∉ ch b := by
  intro hxb
  have hnd := h.nodup
  rw [List.flatMap_cons, List.nodup_append] at hnd
  exact hnd.2.2 x hx x (List.mem_flatMap.mpr ⟨b, hb, hxb⟩) rfl

/-- A start is listed once. -/
theorem not_mem_tail (h : w.Chains ch (a :: S)) : a ∉ S := fun ha =>
  h.disjoint ha (h.mem_self List.mem_cons_self) (h.mem_self (List.mem_cons_of_mem a ha))

/-- A start on a chain is the start of that chain. -/
theorem start_unique (h : w.Chains ch S) (ha : a ∈ S) (hb : b ∈ S) {x : Nat} (hxa : x ∈ ch a)
    (hxb : x ∈ ch b) : a = b := by
  obtain ⟨S₁, S₂, rfl⟩ := List.append_of_mem ha
  have h' := h.perm List.perm_middle
  have hb' := List.perm_middle.mem_iff.mp hb
  rcases List.mem_cons.mp hb' with rfl | hb'
  · rfl
  · exact absurd hxb (h'.disjoint hb' hxa)

theorem nodup_start (h : w.Chains ch S) : S.Nodup := by
  induction S with
  | nil => exact List.nodup_nil
  | cons a S ih =>
      refine List.nodup_cons.mpr ⟨h.not_mem_tail, ?_⟩
      rw [List.nodup_iff_sublist]
      intro b hb
      have hmem : b ∈ S := hb.subset List.mem_cons_self
      obtain ⟨S₁, S₂, rfl⟩ := List.append_of_mem hmem
      have h' := h.perm ((List.perm_middle.cons a).trans (List.Perm.swap b a _))
      have hcount := hb.count_le b
      have hno := fun hx => h'.not_mem_tail (List.mem_cons_of_mem a hx)
      rw [List.count_append, List.count_cons_self, List.count_cons_self, List.count_cons_self,
        List.count_nil, List.count_eq_zero.mpr fun hx => hno (List.mem_append_left _ hx),
        List.count_eq_zero.mpr fun hx => hno (List.mem_append_right _ hx)] at hcount
      omega

theorem flatMap_update (hk : k ∉ S) (xs : List Nat) :
    S.flatMap (Function.update ch k xs) = S.flatMap ch := by
  apply List.flatMap_congr
  intro a ha
  rw [Function.update_of_ne]
  rintro rfl
  exact hk ha

/-- A free cluster becomes a chain of its own. -/
theorem alloc (h : w.Chains ch S) (hs : w.vol.Sound n) (hk : w.vol.InRange k)
    (h0 : w.fat k = 0) : (w.alloc 0 k).Chains (Function.update ch k [k]) (k :: S) := by
  have hnot := h.not_mem_of_free hs h0
  have hkS : k ∉ S := fun hm => hnot (List.mem_flatMap.mpr ⟨k, hm, h.mem_self hm⟩)
  have hk0 : (0 : Nat) ≠ k := by
    have := hk.1
    omega
  have hfat : ∀ x, x ≠ k → (w.alloc 0 k).fat x = w.fat x := by
    intro x hx
    rw [View.fat_alloc hk0, if_neg hx, if_neg (by omega)]
  refine ⟨?_, ?_, ?_⟩
  · intro a ha
    by_cases hak : a = k
    · subst hak
      rw [Function.update_self]
      refine ⟨⟨0x0FFFFFFF, by omega, rfl, ?_, ?_⟩, by simp⟩
      · rw [View.vol_alloc]
        exact hk
      · rw [Links.Path, View.fat_alloc hk0, if_pos rfl]
    · rw [Function.update_of_ne hak]
      have haS := (List.mem_cons.mp ha).resolve_left hak
      refine ⟨(h.chain a haS).1.of_fat View.vol_alloc fun x hx => hfat x ?_, (h.chain a haS).2⟩
      rintro rfl
      exact hnot (List.mem_flatMap.mpr ⟨a, haS, hx⟩)
  · rw [List.flatMap_cons, Function.update_self, flatMap_update hkS]
    exact List.nodup_cons.mpr ⟨hnot, h.nodup⟩
  · intro x hx hx0 hx7
    rw [List.flatMap_cons, Function.update_self, flatMap_update hkS]
    by_cases hxk : x = k
    · simp [hxk]
    · rw [hfat x hxk] at hx0 hx7
      rw [View.vol_alloc] at hx
      exact List.mem_append_right _ (h.covered x hx hx0 hx7)

/-- A free cluster goes to the end of a chain. -/
theorem extend (h : w.Chains ch (a :: S)) (hs : w.vol.Sound n) (hk : w.vol.InRange k)
    (h0 : w.fat k = 0) : (w.alloc ((ch a).getLastD 0) k).Chains
      (Function.update ch a (ch a ++ [k])) (a :: S) := by
  have hnot := h.not_mem_of_free hs h0
  rw [List.flatMap_cons, List.mem_append, not_or] at hnot
  have haS := h.not_mem_tail
  obtain ⟨hch, hne⟩ := h.chain a List.mem_cons_self
  have hxs := eq_append_getLastD hne 0
  have hlast : (ch a).getLastD 0 ∈ ch a := by
    rw [hxs]
    simp
  have hpk : (ch a).getLastD 0 ≠ k := by
    intro heq
    exact hnot.1 (heq ▸ hlast)
  have hfat : ∀ x, x ≠ k → x ∉ ch a →
      (w.alloc ((ch a).getLastD 0) k).fat x = w.fat x := by
    intro x hx hxa
    rw [View.fat_alloc hpk, if_neg hx, if_neg]
    rintro ⟨-, rfl⟩
    exact hxa hlast
  refine ⟨?_, ?_, ?_⟩
  · intro b hb
    by_cases hba : b = a
    · subst hba
      rw [Function.update_self]
      refine ⟨?_, by simp⟩
      rw [hxs] at hch
      have := hch.alloc_last hs hk h0
      rw [← hxs] at this
      exact this
    · rw [Function.update_of_ne hba]
      have hbS := (List.mem_cons.mp hb).resolve_left hba
      refine ⟨(h.chain b hb).1.of_fat View.vol_alloc fun x hx => hfat x ?_ ?_, (h.chain b hb).2⟩
      · rintro rfl
        exact hnot.2 (List.mem_flatMap.mpr ⟨b, hbS, hx⟩)
      · exact fun hxa => h.disjoint hbS hxa hx
  · have hnd := h.nodup
    rw [List.flatMap_cons] at hnd
    rw [List.flatMap_cons, Function.update_self, flatMap_update haS, List.append_assoc]
    refine (List.perm_middle.nodup_iff).mpr (List.nodup_cons.mpr ⟨?_, hnd⟩)
    rw [List.mem_append, not_or]
    exact hnot
  · intro x hx hx0 hx7
    rw [List.flatMap_cons, Function.update_self, flatMap_update haS]
    by_cases hxk : x = k
    · simp [hxk]
    · by_cases hxa : x ∈ ch a
      · simp [hxa]
      · rw [hfat x hxk hxa] at hx0 hx7
        rw [View.vol_alloc] at hx
        have := h.covered x hx hx0 hx7
        rw [List.flatMap_cons] at this
        simp only [List.mem_append] at this ⊢
        exact Or.inr (this.resolve_left hxa)

/-- A chain is given back. -/
theorem free (h : w.Chains ch (a :: S)) : (w.freeChain (ch a)).Chains ch S := by
  have hfat : ∀ x, x ∉ ch a → (w.freeChain (ch a)).fat x = w.fat x := by
    intro x hx
    exact if_neg hx
  refine ⟨?_, ?_, ?_⟩
  · intro b hb
    have hb' := List.mem_cons_of_mem a hb
    refine ⟨(h.chain b hb').1.of_fat rfl fun x hx => hfat x fun hxa => ?_, (h.chain b hb').2⟩
    exact h.disjoint hb hxa hx
  · have hnd := h.nodup
    rw [List.flatMap_cons] at hnd
    exact (List.nodup_append.mp hnd).2.1
  · intro x hx hx0 hx7
    by_cases hxa : x ∈ ch a
    · simp [hxa] at hx0
    · rw [hfat x hxa] at hx0 hx7
      have := h.covered x hx hx0 hx7
      rw [List.flatMap_cons] at this
      exact (List.mem_append.mp this).resolve_left hxa

end View.Chains

theorem Reach.mono {D D' : List Dir} {r : Nat}
    (h : ∀ d ∈ D, ∃ d' ∈ D', d'.start = d.start ∧
      ∀ run e, Item.entry run e ∈ d.listing.items → e.isDir = true → e.cluster ≠ 0 →
        ∃ run' e', Item.entry run' e' ∈ d'.listing.items ∧ e'.isDir = true ∧
          e'.cluster = e.cluster) {x : Nat} (hx : Reach D r x) : Reach D' r x := by
  induction hx with
  | root => exact Reach.root
  | sub hd hr he hdir h0 ih =>
      obtain ⟨d', hd', hstart, hkeep⟩ := h _ hd
      obtain ⟨run', e', he', hdir', hcl⟩ := hkeep _ _ he hdir h0
      rw [← hcl] at h0 ⊢
      exact Reach.sub hd' (hstart ▸ ih) he' hdir' h0

theorem Item.target_entry {run : List DirEntry} {e : DirEntry} (h : e.cluster ≠ 0) :
    Item.target (.entry run e) = some e.cluster := if_neg h

theorem Item.target_none {run : List DirEntry} {e : DirEntry} (h : e.cluster = 0) :
    Item.target (.entry run e) = none := if_pos h

theorem mem_starts {v : Vol} {D : List Dir} {d : Dir} (hd : d ∈ D) {run : List DirEntry}
    {e : DirEntry} (he : Item.entry run e ∈ d.listing.items) (h0 : e.cluster ≠ 0) :
    e.cluster ∈ starts v D := by
  refine List.mem_cons_of_mem _ (List.mem_flatMap.mpr ⟨d, hd, ?_⟩)
  exact List.mem_filterMap.mpr ⟨_, he, Item.target_entry h0⟩

/-- The directories with another listing at `s`. -/
def setListing (D : List Dir) (s : Nat) (l : Listing) : List Dir :=
  D.map fun d => if d.start = s then ⟨s, l⟩ else d

section SetListing

variable {D : List Dir} {s : Nat} {l l' : Listing}

@[simp] theorem map_start_setListing : (setListing D s l').map Dir.start = D.map Dir.start := by
  unfold setListing
  rw [List.map_map]
  apply List.map_congr_left
  intro d _
  rw [Function.comp_apply]
  split
  · next h => exact h.symm
  · rfl

theorem mem_setListing (hd : ⟨s, l⟩ ∈ D) {d : Dir} :
    d ∈ setListing D s l' ↔ (d ∈ D ∧ d.start ≠ s) ∨ d = ⟨s, l'⟩ := by
  unfold setListing
  rw [List.mem_map]
  constructor
  · rintro ⟨x, hx, rfl⟩
    by_cases hs : x.start = s
    · exact Or.inr (if_pos hs)
    · rw [if_neg hs]
      exact Or.inl ⟨hx, hs⟩
  · rintro (⟨hd', hs⟩ | rfl)
    · exact ⟨d, hd', if_neg hs⟩
    · exact ⟨_, hd, if_pos rfl⟩

/-- A start tells its directory. -/
theorem eq_of_start_eq (hnd : (D.map Dir.start).Nodup) {d d' : Dir} (hd : d ∈ D) (hd' : d' ∈ D)
    (h : d.start = d'.start) : d = d' :=
  List.inj_on_of_nodup_map hnd hd hd' h

theorem setListing_eq {D₁ D₂ : List Dir} (hnd : ((D₁ ++ ⟨s, l⟩ :: D₂).map Dir.start).Nodup) :
    setListing (D₁ ++ ⟨s, l⟩ :: D₂) s l' = D₁ ++ ⟨s, l'⟩ :: D₂ := by
  rw [List.map_append, List.map_cons] at hnd
  have hne : ∀ d ∈ D₁ ++ D₂, d.start ≠ s := by
    intro d hd heq
    have hnd' := (List.perm_middle.nodup_iff).mp hnd
    rw [← List.map_append, List.nodup_cons] at hnd'
    exact hnd'.1 (List.mem_map.mpr ⟨d, hd, heq⟩)
  have hsame : ∀ X : List Dir, (∀ d ∈ X, d.start ≠ s) → setListing X s l' = X := by
    intro X hX
    unfold setListing
    conv_rhs => rw [← List.map_id X]
    exact List.map_congr_left fun d hd => if_neg (hX d hd)
  have h₁ := hsame D₁ fun d hd => hne d (List.mem_append_left _ hd)
  have h₂ := hsame D₂ fun d hd => hne d (List.mem_append_right _ hd)
  unfold setListing at h₁ h₂ ⊢
  rw [List.map_append, List.map_cons, h₁, h₂, if_pos rfl]

end SetListing

/-- What a change of one listing does to the starts. -/
theorem starts_perm {v : Vol} {D N : List Dir} {s : Nat} {l l' : Listing} {A B : List Nat}
    (hnd : (D.map Dir.start).Nodup) (hd : ⟨s, l⟩ ∈ D) (hN : ∀ d ∈ N, d.listing.targets = [])
    (h : (A ++ l'.targets).Perm (B ++ l.targets)) :
    (A ++ starts v (setListing D s l' ++ N)).Perm (B ++ starts v D) := by
  obtain ⟨D₁, D₂, rfl⟩ := List.append_of_mem hd
  have hN' : N.flatMap (fun d => d.listing.targets) = [] := by
    rw [List.flatMap_eq_nil_iff]
    exact hN
  rw [setListing_eq hnd]
  refine List.perm_iff_count.mpr fun x => ?_
  have hx := List.perm_iff_count.mp h x
  unfold starts
  simp only [List.flatMap_append, List.flatMap_cons, hN', List.append_nil, List.count_append,
    List.count_cons] at hx ⊢
  omega

theorem room_mono {v : Vol} {ch ch' : Nat → List Nat} {a : Nat}
    (h : a ≠ 0 → (ch a).length ≤ (ch' a).length) : room v ch a ≤ room v ch' a := by
  unfold room
  split
  · exact Nat.le_refl 0
  · next h0 => exact Nat.mul_le_mul_right _ (h h0)

namespace View.Tree

variable {w w' : View} {ch ch' : Nat → List Nat} {D N : List Dir} {s : Nat}
  {l l' : Listing}

theorem start_mem (h : w.Tree ch D) {d : Dir} (hd : d ∈ D) : d.start ∈ starts w.vol D := by
  have hr := h.reach d hd
  generalize d.start = x at hr
  cases hr with
  | root => exact List.mem_cons_self
  | sub hd' _ he _ h0 => exact mem_starts hd' he h0

/-- A change that leaves the directories' clusters alone. -/
theorem frame (h : w.Tree ch D) (hv : w'.vol = w.vol)
    (hD : ∀ d ∈ D, ch' d.start = ch d.start ∧ ∀ x ∈ ch d.start, w'.sec x = w.sec x)
    (hsize : ∀ a ∈ starts w.vol D, (ch a).length ≤ (ch' a).length) : w'.Tree ch' D := by
  obtain ⟨hroot, hnd, hslots, hclosed, hreach, hsz⟩ := h
  refine ⟨by rw [hv]; exact hroot, hnd, ?_, hclosed, by rw [hv]; exact hreach, ?_⟩
  · intro d hd
    rw [(hD d hd).1, View.slots_congr hv (hD d hd).2]
    exact hslots d hd
  · intro d hd run e he hdir
    have hle := hsz d hd run e he hdir
    unfold room at hle ⊢
    rw [hv]
    split
    · next h0 => simpa [h0] using hle
    · next h0 =>
        rw [if_neg h0] at hle
        exact hle.trans (Nat.mul_le_mul_right _ (hsize _ (mem_starts hd he h0)))

variable (w' ch' l') in
/-- The listing of one directory changes, and the directories `N` are new. -/
theorem replace (h : w.Tree ch D) (hd₀ : ⟨s, l⟩ ∈ D) (hv : w'.vol = w.vol)
    (hother : ∀ d ∈ D, d.start ≠ s → ch' d.start = ch d.start ∧
      ∀ x ∈ ch d.start, w'.sec x = w.sec x)
    (hslots : w'.slots (ch' s) = l'.slots)
    (hsize : ∀ d ∈ D, ∀ run e, Item.entry run e ∈ d.listing.items →
      (d.start = s → Item.entry run e ∈ l'.items) → e.isDir = false →
      e.size ≤ room w.vol ch e.cluster → e.size ≤ room w.vol ch' e.cluster)
    (hitems : ∀ run e, Item.entry run e ∈ l'.items → Item.entry run e ∈ l.items ∨
      ((e.isDir = true → e.cluster ≠ 0 → ∃ d ∈ setListing D s l' ++ N, d.start = e.cluster) ∧
        (e.isDir = false → e.size ≤ room w.vol ch' e.cluster)))
    (hkeep : ∀ run e, Item.entry run e ∈ l.items → e.isDir = true → e.cluster ≠ 0 →
      ∃ run' e', Item.entry run' e' ∈ l'.items ∧ e'.isDir = true ∧ e'.cluster = e.cluster)
    (hN : ∀ d ∈ N, w'.slots (ch' d.start) = d.listing.slots ∧
      (∀ run e, Item.entry run e ∉ d.listing.items) ∧
      ∃ run e, Item.entry run e ∈ l'.items ∧ e.isDir = true ∧ e.cluster ≠ 0 ∧
        e.cluster = d.start)
    (hNnd : (N.map Dir.start).Nodup) (hNnew : ∀ d ∈ N, d.start ∉ D.map Dir.start) :
    w'.Tree ch' (setListing D s l' ++ N) := by
  have hmem : ∀ d, d ∈ setListing D s l' ++ N ↔ ((d ∈ D ∧ d.start ≠ s) ∨ d = ⟨s, l'⟩) ∨
      d ∈ N := by
    intro d
    rw [List.mem_append, mem_setListing hd₀]
  have hself : ∀ {d}, d ∈ D → d.start = s → d = ⟨s, l⟩ := fun hd hs =>
    eq_of_start_eq h.nodup hd hd₀ hs
  have hnew : ⟨s, l'⟩ ∈ setListing D s l' ++ N := (hmem _).mpr (Or.inl (Or.inr rfl))
  have hsucc : ∀ d ∈ D, ∃ d' ∈ setListing D s l' ++ N, d'.start = d.start := by
    intro d hd
    by_cases hs : d.start = s
    · exact ⟨⟨s, l'⟩, hnew, hs.symm⟩
    · exact ⟨d, (hmem d).mpr (Or.inl (Or.inl ⟨hd, hs⟩)), rfl⟩
  have hmono : ∀ {x}, Reach D w.vol.rootCluster x →
      Reach (setListing D s l' ++ N) w.vol.rootCluster x := by
    intro x hx
    refine Reach.mono (fun d hd => ?_) hx
    by_cases hs : d.start = s
    · rw [hself hd hs]
      exact ⟨⟨s, l'⟩, hnew, rfl, hkeep⟩
    · exact ⟨d, (hmem d).mpr (Or.inl (Or.inl ⟨hd, hs⟩)), rfl,
        fun run e he hdir _ => ⟨run, e, he, hdir, rfl⟩⟩
  refine ⟨?_, ?_, ?_, ?_, ?_, ?_⟩
  · obtain ⟨d, hd, hr⟩ := h.root
    obtain ⟨d', hd', hs⟩ := hsucc d hd
    exact ⟨d', hd', by rw [hv, hs, hr]⟩
  · rw [List.map_append, map_start_setListing]
    refine List.nodup_append.mpr ⟨h.nodup, hNnd, ?_⟩
    rintro a ha b hb rfl
    obtain ⟨d, hd, rfl⟩ := List.mem_map.mp hb
    exact hNnew d hd ha
  · intro d hd
    rcases (hmem d).mp hd with (⟨hd, hs⟩ | rfl) | hd
    · rw [(hother d hd hs).1, View.slots_congr hv (hother d hd hs).2]
      exact h.slots d hd
    · exact hslots
    · exact (hN d hd).1
  · intro d hd run e he hdir h0
    have hcl : (∃ d ∈ D, Item.entry run e ∈ d.listing.items) →
        ∃ d' ∈ setListing D s l' ++ N, d'.start = e.cluster := by
      rintro ⟨d, hd, he⟩
      obtain ⟨d', hd', hs⟩ := h.closed d hd run e he hdir h0
      obtain ⟨d'', hd'', hs'⟩ := hsucc d' hd'
      exact ⟨d'', hd'', hs'.trans hs⟩
    rcases (hmem d).mp hd with (⟨hd, -⟩ | rfl) | hd
    · exact hcl ⟨d, hd, he⟩
    · rcases hitems run e he with hin | hnew
      · exact hcl ⟨_, hd₀, hin⟩
      · exact hnew.1 hdir h0
    · exact absurd he ((hN d hd).2.1 run e)
  · intro d hd
    rw [hv]
    rcases (hmem d).mp hd with (⟨hd, -⟩ | rfl) | hd
    · exact hmono (h.reach d hd)
    · exact hmono (h.reach ⟨s, l⟩ hd₀)
    · obtain ⟨run, e, he, hdir, h0, hs⟩ := (hN d hd).2.2
      rw [← hs]
      exact Reach.sub (d := ⟨s, l'⟩) hnew (hmono (h.reach ⟨s, l⟩ hd₀)) he hdir h0
  · intro d hd run e he hdir
    rw [hv]
    rcases (hmem d).mp hd with (⟨hd, hs⟩ | rfl) | hd
    · exact hsize d hd run e he (fun h => absurd h hs) hdir (h.size d hd run e he hdir)
    · rcases hitems run e he with hin | hnew
      · exact hsize _ hd₀ run e hin (fun _ => he) hdir (h.size _ hd₀ run e hin hdir)
      · exact hnew.2 hdir
    · exact absurd he ((hN d hd).2.1 run e)

end View.Tree

end Chimaera.Fat32
