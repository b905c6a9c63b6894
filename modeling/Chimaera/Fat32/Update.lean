/-
Changes of a layout: taking and giving back clusters, adding, deleting and
rewriting an entry, and writing to the chain of a file.
-/
import Chimaera.Fat32.Places
import Chimaera.Fat32.Stream
import Mathlib.Data.List.Pairwise

namespace Chimaera.Fat32

variable {w w' w₀ : View} {ch ch' : Nat → List Nat} {D D' N : List Dir} {S T xs' : List Nat}
  {a k n s t i j : Nat} {l l' l₁ : Listing} {run r : List DirEntry} {e e' x : DirEntry}

theorem entryAt_iff (hnd : (D.map Dir.start).Nodup) (hd : ⟨s, l⟩ ∈ D) :
    EntryAt D s j r x ↔ l.At j r x := by
  constructor
  · rintro ⟨d, hd', hs, h⟩
    rw [eq_of_start_eq hnd hd' hd hs] at h
    exact h
  · exact fun h => ⟨_, hd, rfl, h⟩

/-- A directory has a successor. -/
theorem exists_setListing (l' : Listing) (hd : ⟨s, l⟩ ∈ D) {d : Dir} (hd' : d ∈ D) :
    ∃ d' ∈ setListing D s l', d'.start = d.start := by
  by_cases hs : d.start = s
  · exact ⟨_, (mem_setListing hd).mpr (Or.inr rfl), hs.symm⟩
  · exact ⟨d, (mem_setListing hd).mpr (Or.inl ⟨hd', hs⟩), rfl⟩

theorem entryAt_setListing (hd : ⟨s, l⟩ ∈ D) :
    EntryAt (setListing D s l') t j r x ↔
      (t ≠ s ∧ EntryAt D t j r x) ∨ (t = s ∧ l'.At j r x) := by
  constructor
  · rintro ⟨d, hd', rfl, h⟩
    rcases (mem_setListing hd).mp hd' with ⟨hd', hs⟩ | rfl
    · exact Or.inl ⟨hs, d, hd', rfl, h⟩
    · exact Or.inr ⟨rfl, h⟩
  · rintro (⟨hs, d, hd', rfl, h⟩ | ⟨rfl, h⟩)
    · exact ⟨d, (mem_setListing hd).mpr (Or.inl ⟨hd', hs⟩), rfl, h⟩
    · exact ⟨_, (mem_setListing hd).mpr (Or.inr rfl), rfl, h⟩

theorem EntryAt.append (h : EntryAt D s i run e) : EntryAt (D ++ N) s i run e := by
  obtain ⟨d, hd, hs, hat⟩ := h
  exact ⟨d, List.mem_append_left N hd, hs, hat⟩

theorem EntryAt.mem_starts {v : Vol} (h : EntryAt D s i run e) (h0 : e.cluster ≠ 0) :
    e.cluster ∈ starts v D := by
  obtain ⟨d, hd, -, hat⟩ := h
  exact Fat32.mem_starts hd hat.mem h0

theorem at_target_unique {items : List Item} {b : Nat} (hnd : (items.filterMap Item.target).Nodup)
    (h : At i run e b items) (h' : At j r x b items) (heq : x.cluster = e.cluster)
    (h0 : e.cluster ≠ 0) : i = j := by
  induction items generalizing b with
  | nil => exact h.elim
  | cons it rest ih =>
      have hin : ∀ {i r y}, At i r y (b + it.slots.length) rest → y.cluster = e.cluster →
          e.cluster ∈ rest.filterMap Item.target := by
        intro i r y hy hc
        have hy0 : y.cluster ≠ 0 := by rwa [hc]
        exact List.mem_filterMap.mpr ⟨_, hy.mem, (Item.target_entry hy0).trans (by rw [hc])⟩
      have hhead : ∀ {r y}, it = Item.entry r y → y.cluster = e.cluster →
          e.cluster ∉ rest.filterMap Item.target := by
        rintro r y rfl hc
        have hy0 : y.cluster ≠ 0 := by rwa [hc]
        rw [List.filterMap_cons_some (Item.target_entry hy0), List.nodup_cons, hc] at hnd
        exact hnd.1
      rcases h with ⟨hit, rfl⟩ | h
      · rcases h' with ⟨hit', rfl⟩ | h'
        · rw [hit, Item.entry.injEq] at hit'
          rw [hit'.1]
        · exact absurd (hin h' heq) (hhead hit rfl)
      · rcases h' with ⟨hit', -⟩ | h'
        · exact absurd (hin h rfl) (hhead hit' heq)
        · refine ih ?_ h h'
          cases ht : Item.target it with
          | none => rwa [List.filterMap_cons_none ht] at hnd
          | some c =>
              rw [List.filterMap_cons_some ht, List.nodup_cons] at hnd
              exact hnd.2

/-- Entries with the same chain are one entry. -/
theorem EntryAt.target_unique (hnd : (D.flatMap fun d => d.listing.targets).Nodup)
    (h : EntryAt D s i run e) (h' : EntryAt D t j r x) (heq : x.cluster = e.cluster)
    (h0 : e.cluster ≠ 0) : s = t ∧ i = j ∧ run = r ∧ e = x := by
  obtain ⟨d, hd, rfl, hat⟩ := h
  obtain ⟨d', hd', rfl, hat'⟩ := h'
  have hdd : d = d' := by
    by_contra hne
    have : Std.Symm (Function.onFun List.Disjoint fun d : Dir => d.listing.targets) :=
      ⟨fun _ _ h => h.symm⟩
    have hdis := (List.nodup_flatMap.mp hnd).2.forall hd hd' hne
    have hx0 : x.cluster ≠ 0 := by rwa [heq]
    refine hdis (List.mem_filterMap.mpr ⟨_, hat.mem, Item.target_entry h0⟩)
      (List.mem_filterMap.mpr ⟨_, hat'.mem, (Item.target_entry hx0).trans (by rw [heq])⟩)
  subst hdd
  have hnd' := (List.nodup_flatMap.mp hnd).1 d hd
  obtain rfl := at_target_unique hnd' hat hat' heq h0
  obtain ⟨rfl, rfl⟩ := hat.unique hat'
  exact ⟨rfl, rfl, rfl, rfl⟩

namespace View.Layout

theorem nodup_starts (h : w.Layout ch D T) : (starts w.vol D).Nodup :=
  (List.nodup_append.mp h.chains.nodup_start).1

theorem target_unique (h : w.Layout ch D T) (he : EntryAt D s i run e) (hx : EntryAt D t j r x)
    (heq : x.cluster = e.cluster) (h0 : e.cluster ≠ 0) : s = t ∧ i = j ∧ run = r ∧ e = x :=
  he.target_unique (List.nodup_cons.mp h.nodup_starts).2 hx heq h0

/-- A file does not share its chain with a directory. -/
theorem start_ne (h : w.Layout ch D T) {d : Dir} (hd : d ∈ D) (he : EntryAt D t j r x)
    (hdir : x.isDir = false) (h0 : x.cluster ≠ 0) : d.start ≠ x.cluster := by
  have hr := h.tree.reach d hd
  have hnd := List.nodup_cons.mp h.nodup_starts
  generalize d.start = c at hr
  cases hr with
  | root =>
      intro heq
      obtain ⟨d', hd', -, hat⟩ := he
      refine hnd.1 (List.mem_flatMap.mpr ⟨d', hd', List.mem_filterMap.mpr ⟨_, hat.mem, ?_⟩⟩)
      rw [heq]
      exact Item.target_entry h0
  | sub hd' _ he' hdir' h0' =>
      intro heq
      obtain ⟨i', hat'⟩ := Listing.exists_at he'
      obtain ⟨-, -, -, rfl⟩ := he.target_unique hnd.2 ⟨_, hd', rfl, hat'⟩ heq h0
      rw [hdir] at hdir'
      exact absurd hdir' (by decide)

/-- The chain of a file is disjoint from the chain of a directory. -/
theorem file_disjoint (h : w.Layout ch D T) {d : Dir} (hd : d ∈ D) (he : EntryAt D t j r x)
    (hdir : x.isDir = false) (h0 : x.cluster ≠ 0) {y : Nat} (hy : y ∈ ch x.cluster) :
    y ∉ ch d.start := fun hyd =>
  h.start_ne hd he hdir h0 (h.chains.start_unique (h.sound_start hd)
    (List.mem_append_left T (he.mem_starts h0)) hyd hy)

theorem cluster_inRange (h : w.Layout ch D T) (he : EntryAt D t j r x) (h0 : x.cluster ≠ 0) :
    w.vol.InRange x.cluster :=
  h.chains.inRange (List.mem_append_left T (he.mem_starts h0))
    (h.chains.mem_self (List.mem_append_left T (he.mem_starts h0)))

end View.Layout

/-- All entries but those at the places `X` stay where they are, and the files
among them keep their chains and contents. -/
structure Kept (X : Nat → Nat → Prop) (w : View) (ch : Nat → List Nat) (D : List Dir)
    (w' : View) (ch' : Nat → List Nat) (D' : List Dir) : Prop where
  entry : ∀ s i run e, EntryAt D s i run e → ¬ X s i → EntryAt D' s i run e
  chain : ∀ s i run e, EntryAt D s i run e → ¬ X s i → e.isDir = false → e.cluster ≠ 0 →
    ch' e.cluster = ch e.cluster ∧ ∀ y ∈ ch e.cluster, w'.sec y = w.sec y
  dirs : ∀ d ∈ D, ∃ d' ∈ D', d'.start = d.start ∧ ∃ ys, ch' d.start = ch d.start ++ ys

namespace Kept

variable {X : Nat → Nat → Prop} {w'' : View} {ch'' : Nat → List Nat} {D'' : List Dir}

theorem refl : Kept X w ch D w ch D :=
  ⟨fun _ _ _ _ h _ => h, fun _ _ _ _ _ _ _ _ => ⟨rfl, fun _ _ => rfl⟩,
    fun d hd => ⟨d, hd, rfl, [], by simp⟩⟩

theorem trans (h : Kept X w ch D w' ch' D') (h' : Kept X w' ch' D' w'' ch'' D'') :
    Kept X w ch D w'' ch'' D'' := by
  refine ⟨fun s i run e he hX => h'.entry s i run e (h.entry s i run e he hX) hX, ?_, ?_⟩
  · intro s i run e he hX hdir h0
    obtain ⟨hch, hsec⟩ := h.chain s i run e he hX hdir h0
    obtain ⟨hch', hsec'⟩ := h'.chain s i run e (h.entry s i run e he hX) hX hdir h0
    refine ⟨hch'.trans hch, fun y hy => ?_⟩
    rw [hsec' y (by rw [hch]; exact hy), hsec y hy]
  · intro d hd
    obtain ⟨d', hd', hs, ys, hys⟩ := h.dirs d hd
    obtain ⟨d'', hd'', hs', zs, hzs⟩ := h'.dirs d' hd'
    refine ⟨d'', hd'', hs'.trans hs, ys ++ zs, ?_⟩
    rw [← hs, hzs, hs, hys, List.append_assoc]

theorem mono {Y : Nat → Nat → Prop} (h : Kept X w ch D w' ch' D')
    (hXY : ∀ s i, X s i → Y s i) : Kept Y w ch D w' ch' D' :=
  ⟨fun s i run e he hY => h.entry s i run e he fun hX => hY (hXY s i hX),
    fun s i run e he hY => h.chain s i run e he fun hX => hY (hXY s i hX), h.dirs⟩

/-- The driver's variables are no part of a file. -/
theorem of_sec (h : Kept X w ch D w' ch' D') (hsec : w''.sec = w'.sec) :
    Kept X w ch D w'' ch' D' :=
  ⟨h.entry, fun s i run e he hX hdir h0 => by
    rw [hsec]
    exact h.chain s i run e he hX hdir h0, h.dirs⟩

/-- The descriptors before do not matter. -/
theorem of_setFd {fd : Nat} {f : Fd} (h : Kept X (w.setFd fd f) ch D w' ch' D') :
    Kept X w ch D w' ch' D' := ⟨h.entry, h.chain, h.dirs⟩

end Kept

namespace View.Layout

/-- The driver's variables are no part of a layout. -/
theorem of_eq (h : w.Layout ch D T) (hv : w'.vol = w.vol) (hf : w'.fat = w.fat)
    (hsec : w'.sec = w.sec) : w'.Layout ch D T :=
  ⟨by rw [hv]; exact h.chains.of_fat hv hf,
    h.tree.frame hv (fun _ _ => ⟨rfl, fun _ _ => by rw [hsec]⟩) fun _ _ => Nat.le_refl _⟩

theorem alloc (h : w.Layout ch D T) (hs : w.vol.Sound n) (hk : w.vol.InRange k)
    (h0 : w.fat k = 0) :
    (w.alloc 0 k).Layout (Function.update ch k [k]) D (k :: T) := by
  have hnot := h.chains.not_mem_of_free hs h0
  have hne : ∀ b ∈ starts w.vol D ++ T, b ≠ k := by
    rintro b hb rfl
    exact hnot (List.mem_flatMap.mpr ⟨b, hb, h.chains.mem_self hb⟩)
  refine ⟨?_, ?_⟩
  · rw [View.vol_alloc]
    exact (h.chains.alloc hs hk h0).perm List.perm_middle.symm
  · refine h.tree.frame View.vol_alloc (fun d hd => ⟨?_, fun y hy => ?_⟩) fun b hb => ?_
    · exact Function.update_of_ne (hne _ (h.sound_start hd)) _ _
    · rw [View.sec_alloc, Function.update_of_ne]
      rintro rfl
      exact hnot (List.mem_flatMap.mpr ⟨_, h.sound_start hd, hy⟩)
    · rw [Function.update_of_ne (hne b (List.mem_append_left T hb))]

theorem kept_alloc (h : w.Layout ch D T) (hs : w.vol.Sound n) (h0 : w.fat k = 0)
    {X : Nat → Nat → Prop} :
    Kept X w ch D (w.alloc 0 k) (Function.update ch k [k]) D := by
  have hnot := h.chains.not_mem_of_free hs h0
  have hne : ∀ b ∈ starts w.vol D ++ T, b ≠ k := by
    rintro b hb rfl
    exact hnot (List.mem_flatMap.mpr ⟨b, hb, h.chains.mem_self hb⟩)
  refine ⟨fun _ _ _ _ he _ => he, fun s i run e he _ _ hc => ?_, fun d hd => ⟨d, hd, rfl, [], ?_⟩⟩
  · have hm := List.mem_append_left T (he.mem_starts (v := w.vol) hc)
    refine ⟨Function.update_of_ne (hne _ hm) _ _, fun y hy => ?_⟩
    rw [View.sec_alloc, Function.update_of_ne]
    rintro rfl
    exact hnot (List.mem_flatMap.mpr ⟨_, hm, hy⟩)
  · rw [Function.update_of_ne (hne _ (h.sound_start hd)), List.append_nil]

theorem free (h : w.Layout ch D (a :: T)) : (w.freeChain (ch a)).Layout ch D T :=
  ⟨(h.chains.perm List.perm_middle).free,
    h.tree.frame rfl (fun _ _ => ⟨rfl, fun _ _ => rfl⟩) fun _ _ => Nat.le_refl _⟩

/-- Writing into clusters that no entry owns. -/
theorem loose (h : w.Layout ch D (a :: T)) (hv : w'.vol = w.vol) (hf : w'.fat = w.fat)
    (hsec : ∀ y, y ∉ ch a → w'.sec y = w.sec y) : w'.Layout ch D (a :: T) := by
  refine ⟨by rw [hv]; exact h.chains.of_fat hv hf, h.tree.frame hv (fun d hd => ⟨rfl, ?_⟩)
    fun _ _ => Nat.le_refl _⟩
  intro y hy
  refine hsec y fun hya => ?_
  exact (h.chains.perm List.perm_middle).disjoint
    (List.mem_append_left T (h.tree.start_mem hd)) hya hy

end View.Layout

theorem targets_eq_nil (h : ∀ run e, Item.entry run e ∉ l.items) : l.targets = [] := by
  unfold Listing.targets
  rw [List.filterMap_eq_nil_iff]
  intro it hit
  cases it with
  | hole d => rfl
  | dot d => rfl
  | entry run e => exact absurd hit (h run e)

theorem targets_holes {items : List Item} (h : ∀ it ∈ items, it.isHole = true) :
    items.filterMap Item.target = [] := by
  rw [List.filterMap_eq_nil_iff]
  intro it hit
  cases it with
  | hole d => rfl
  | dot d => rfl
  | entry run e => exact absurd (h _ hit) (by simp [Item.isHole])

namespace Listing

theorem Inserted.mem_iff (h : l.Inserted l' i run e) :
    Item.entry r x ∈ l'.items ↔ Item.entry r x ∈ l.items ∨ (r = run ∧ x = e) := by
  obtain ⟨pre, hs, post, heq, hhs, heq', -⟩ := h
  have hno : Item.entry r x ∉ hs := fun hm => absurd (hhs _ hm) (by simp [Item.isHole])
  rw [heq, heq']
  simp only [List.mem_append, List.mem_cons, Item.entry.injEq, hno, or_false]
  tauto

theorem Inserted.targets (h : l.Inserted l' i run e) (h0 : e.cluster ≠ 0) :
    l'.targets.Perm (e.cluster :: l.targets) := by
  obtain ⟨pre, hs, post, heq, hhs, heq', -⟩ := h
  unfold Listing.targets
  rw [heq, heq', List.filterMap_append, List.filterMap_append, List.filterMap_append,
    targets_holes hhs, List.append_nil, List.filterMap_cons_some (Item.target_entry h0)]
  exact List.perm_middle

end Listing

/-- The chain of a directory that may have grown. -/
theorem View.Grown.chains (hg : w.Grown (ch s) l w' xs' l') (h : w.Chains ch S)
    (hs : w.vol.Sound n) (hsS : s ∈ S) : w'.Chains (Function.update ch s xs') S ∧
      (∃ ys, xs' = ch s ++ ys) ∧ ∀ y, y ∉ xs' → w'.sec y = w.sec y := by
  cases hg with
  | same =>
      rw [Function.update_eq_self]
      exact ⟨h, ⟨[], by simp⟩, fun _ _ => rfl⟩
  | more k hk h0 =>
      have hp := List.perm_cons_erase hsS
      refine ⟨((h.perm hp).extend hs hk h0).perm hp.symm, ⟨[k], rfl⟩, fun y hy => ?_⟩
      rw [View.sec_alloc, Function.update_of_ne]
      rintro rfl
      exact hy (by simp)

section Attach

variable {w₁ : View}

/-- The files and the room of the other chains when a directory's chain grows. -/
theorem room_update {v : Vol} {b : Nat} (hle : (ch s).length ≤ xs'.length) :
    room v ch b ≤ room v (Function.update ch s xs') b := by
  refine room_mono fun _ => ?_
  rw [Function.update_apply]
  split
  · next h => rw [h]; exact hle
  · exact Nat.le_refl _

variable (w' e) in
theorem View.Layout.attach (h : w.Layout ch D (e.cluster :: T)) (hs : w.vol.Sound n)
    (hd : ⟨s, l⟩ ∈ D) (h0 : e.cluster ≠ 0) (hg : w.Grown (ch s) l w₁ xs' l₁)
    (hins : l₁.Inserted l' i run e) (hv : w'.vol = w₁.vol) (hf : w'.fat = w₁.fat)
    (hsec : ∀ y, y ∉ xs' → w'.sec y = w₁.sec y) (hslots : w'.slots xs' = l'.slots)
    (hnew : (e.isDir = false ∧ N = [] ∧ e.size ≤ room w.vol ch e.cluster) ∨
      (e.isDir = true ∧ ∃ lN : Listing, N = [⟨e.cluster, lN⟩] ∧
        w.slots (ch e.cluster) = lN.slots ∧ ∀ r x, Item.entry r x ∉ lN.items)) :
    w'.Layout (Function.update ch s xs') (setListing D s l' ++ N) T := by
  have hsS : s ∈ starts w.vol D ++ e.cluster :: T := List.mem_append_left _ (h.tree.start_mem hd)
  have hcS : e.cluster ∈ starts w.vol D ++ e.cluster :: T := by simp
  obtain ⟨hch, ⟨ys, hys⟩, hsec₁⟩ := hg.chains h.chains hs hsS
  have hle : (ch s).length ≤ xs'.length := by
    rw [hys, List.length_append]
    omega
  have hcs : ∀ d ∈ D, d.start ≠ e.cluster := by
    intro d hd' heq
    have hnd := h.chains.nodup_start
    exact (List.nodup_append.mp hnd).2.2 _ (h.tree.start_mem hd') _ List.mem_cons_self heq
  have hsc : s ≠ e.cluster := hcs _ hd
  have hkeep : ∀ {b y}, b ∈ starts w.vol D ++ e.cluster :: T → b ≠ s → y ∈ ch b →
      w'.sec y = w.sec y := by
    intro b y hb hbs hy
    have hyx : y ∉ xs' := by
      intro hyx
      refine hbs (hch.start_unique hb hsS (x := y) ?_ ?_)
      · rwa [Function.update_of_ne hbs]
      · rwa [Function.update_self]
    rw [hsec y hyx, hsec₁ y hyx]
  have hNtargets : ∀ d ∈ N, d.listing.targets = [] := by
    intro d hdN
    rcases hnew with ⟨-, rfl, -⟩ | ⟨-, lN, rfl, -, hno⟩
    · cases hdN
    · rw [List.mem_singleton] at hdN
      subst hdN
      exact targets_eq_nil hno
  have htargets : l'.targets.Perm (e.cluster :: l.targets) := by
    have := hins.targets h0
    unfold Listing.targets at this ⊢
    rwa [hg.items] at this
  have hmem : ∀ {r x}, Item.entry r x ∈ l'.items ↔ Item.entry r x ∈ l.items ∨
      (r = run ∧ x = e) := by
    intro r x
    rw [hins.mem_iff, hg.items]
  refine ⟨?_, ?_⟩
  · rw [hv, hg.vol]
    refine (hch.of_fat hv hf).perm ?_
    have hp := starts_perm (v := w.vol) (A := []) (B := [e.cluster]) h.tree.nodup hd hNtargets
      htargets
    exact (List.perm_middle.trans (hp.symm.append_right T))
  · refine h.tree.replace _ _ _ hd (hv.trans hg.vol) ?_ ?_ ?_ ?_ ?_ ?_ ?_ ?_
    · intro d hd' hds
      exact ⟨Function.update_of_ne hds _ _, fun y hy => hkeep (h.sound_start hd') hds hy⟩
    · rw [Function.update_self]
      exact hslots
    · exact fun _ _ _ _ _ _ _ hle' => hle'.trans (room_update hle)
    · intro r x hx
      rcases hmem.mp hx with hx | ⟨rfl, rfl⟩
      · exact Or.inl hx
      · refine Or.inr ⟨fun hdir _ => ?_, fun hdir => ?_⟩
        · rcases hnew with ⟨hfile, -⟩ | ⟨-, lN, rfl, -⟩
          · rw [hfile] at hdir
            exact absurd hdir (by decide)
          · exact ⟨⟨x.cluster, lN⟩, by simp, rfl⟩
        · rcases hnew with ⟨-, -, hsize⟩ | ⟨hdir', -⟩
          · exact hsize.trans (room_update hle)
          · rw [hdir] at hdir'
            exact absurd hdir' (by decide)
    · exact fun r x hx hdir _ => ⟨r, x, hmem.mpr (Or.inl hx), hdir, rfl⟩
    · intro d hdN
      rcases hnew with ⟨-, rfl, -⟩ | ⟨hdir, lN, rfl, hslotsN, hno⟩
      · cases hdN
      · rw [List.mem_singleton] at hdN
        subst hdN
        refine ⟨?_, hno, run, e, hmem.mpr (Or.inr ⟨rfl, rfl⟩), hdir, h0, rfl⟩
        rw [Function.update_of_ne (Ne.symm hsc), ← hslotsN]
        exact View.slots_congr (hv.trans hg.vol) fun y hy => hkeep hcS (Ne.symm hsc) hy
    · rcases hnew with ⟨-, rfl, -⟩ | ⟨-, lN, rfl, -⟩ <;> simp
    · intro d hdN hmap
      rcases hnew with ⟨-, rfl, -⟩ | ⟨-, lN, rfl, -⟩
      · cases hdN
      · rw [List.mem_singleton] at hdN
        subst hdN
        obtain ⟨d', hd', heq⟩ := List.mem_map.mp hmap
        exact hcs d' hd' heq

variable (w') in
theorem View.Layout.kept_attach (h : w.Layout ch D T) (hs : w.vol.Sound n)
    (hd : ⟨s, l⟩ ∈ D) (hg : w.Grown (ch s) l w₁ xs' l₁) (hins : l₁.Inserted l' i run e)
    (hsec : ∀ y, y ∉ xs' → w'.sec y = w₁.sec y) {X : Nat → Nat → Prop} :
    Kept X w ch D w' (Function.update ch s xs') (setListing D s l' ++ N) := by
  have hsS := h.sound_start hd
  obtain ⟨hch, hext, hsec₁⟩ := hg.chains h.chains hs hsS
  refine ⟨fun t j r x hx _ => ?_, fun t j r x hx _ hdir h0 => ?_, fun d hd' => ?_⟩
  · refine EntryAt.append ((entryAt_setListing hd).mpr ?_)
    by_cases hts : t = s
    · subst hts
      refine Or.inr ⟨rfl, hins.at_iff.mpr (Or.inl ?_)⟩
      have := (entryAt_iff h.tree.nodup hd).mp hx
      unfold Listing.At at this ⊢
      rwa [hg.items]
    · exact Or.inl ⟨hts, hx⟩
  · have hne : x.cluster ≠ s := Ne.symm (h.start_ne hd hx hdir h0)
    have hxS := List.mem_append_left T (hx.mem_starts (v := w.vol) h0)
    refine ⟨Function.update_of_ne hne _ _, fun y hy => ?_⟩
    have hyx : y ∉ xs' := by
      intro hyx
      refine hne (hch.start_unique hxS hsS (x := y) ?_ ?_)
      · rwa [Function.update_of_ne hne]
      · rwa [Function.update_self]
    rw [hsec y hyx, hsec₁ y hyx]
  · by_cases hds : d.start = s
    · refine ⟨⟨s, l'⟩, List.mem_append_left N ((mem_setListing hd).mpr (Or.inr rfl)), hds.symm, ?_⟩
      rw [hds, Function.update_self]
      exact hext
    · refine ⟨d, List.mem_append_left N ((mem_setListing hd).mpr (Or.inl ⟨hd', hds⟩)), rfl, [], ?_⟩
      rw [Function.update_of_ne hds, List.append_nil]

end Attach

namespace DirEntry

theorem cluster_setCluster (e : DirEntry) {c : Nat} (h : c < 4294967296) :
    (e.setCluster c).cluster = c := by
  unfold setCluster cluster
  rw [Block.word_patch_disjoint _ (by simp), Block.word_patch_same _ (by omega),
    Block.word_patch_same _ (by omega)]
  omega

theorem size_setCluster (e : DirEntry) (c : Nat) : (e.setCluster c).size = e.size := by
  unfold setCluster size
  rw [Block.word_patch_disjoint _ (by simp), Block.word_patch_disjoint _ (by simp)]

theorem cluster_setSize (e : DirEntry) (n : Nat) : (e.setSize n).cluster = e.cluster := by
  unfold setSize cluster
  rw [Block.word_patch_disjoint _ (by simp), Block.word_patch_disjoint _ (by simp)]

theorem size_setSize (e : DirEntry) {n : Nat} (h : n < 4294967296) : (e.setSize n).size = n := by
  unfold setSize size
  rw [Block.word_patch_same _ (by omega)]
  omega

theorem byte_setCluster (e : DirEntry) {c b : Nat} (h : b < 20) :
    (e.setCluster c).byte b = e.byte b := by
  unfold setCluster
  rw [Block.byte_patch_of_outside _ (by omega), Block.byte_patch_of_outside _ (by omega)]

theorem byte_setSize (e : DirEntry) {n b : Nat} (h : b < 20) :
    (e.setSize n).byte b = e.byte b := by
  unfold setSize
  rw [Block.byte_patch_of_outside _ (by omega)]

theorem isDir_congr (h : ∀ b, b < 20 → e'.byte b = e.byte b) : e'.isDir = e.isDir := by
  unfold isDir attr
  rw [h 11 (by omega)]

theorem name_congr (h : ∀ b, b < 20 → e'.byte b = e.byte b) : e'.name = e.name := by
  apply List.ext_getElem (by simp [name])
  intro i hi hi'
  rw [name, Block.length_toList] at hi
  rw [← List.getD_eq_getElem _ 0, ← List.getD_eq_getElem _ 0, name, name, Block.getD_toList,
    Block.getD_toList, Block.byte_slice _ _ hi, Block.byte_slice _ _ hi, h _ (by omega)]

theorem isDir_rootEntry {v : Vol} : (rootEntry v).isDir = true := by
  have hbyte : (rootEntry v).byte 11 = 0x10 := by
    rw [rootEntry, byte_setCluster _ (by omega)]
    exact Block.byte_patch_of_inside (Block.zero 32) (o := 11) (s := [0x10]) (i := 0)
      (by simp) (by omega)
  rw [isDir, attr, hbyte]
  decide

end DirEntry

theorem dirTarget_rootEntry {v : Vol} (hs : v.Sound n) :
    v.dirTarget (rootEntry v) = v.rootCluster := by
  have := hs.total_le
  have := hs.root
  have hc : (rootEntry v).cluster = v.rootCluster := DirEntry.cluster_setCluster _ (by omega)
  unfold Vol.dirTarget
  rw [hc, if_neg]
  omega

/-- An entry is told to be well formed by its name and its attributes. -/
theorem Item.Ok.congr (h : (Item.entry run e).Ok) (hb : ∀ b, b < 20 → e'.byte b = e.byte b) :
    (Item.entry run e').Ok := by
  have hname := DirEntry.name_congr hb
  simp only [Item.Ok, DirEntry.first, DirEntry.isLfn, DirEntry.isDot, DirEntry.attr] at h ⊢
  rw [hname, hb 0 (by omega), hb 1 (by omega), hb 11 (by omega)]
  exact h

namespace Listing

theorem Deleted.mem (h : l.Deleted l' i run e) (hx : Item.entry r x ∈ l'.items) :
    Item.entry r x ∈ l.items := by
  obtain ⟨pre, post, heq, -, heq'⟩ := h
  rw [heq'] at hx
  rw [heq]
  simp only [List.mem_append, List.mem_cons] at hx ⊢
  rcases hx with (hx | hx) | hx
  · exact Or.inl hx
  · exact absurd (isHole_map _ hx) (by simp [Item.isHole])
  · exact Or.inr (Or.inr hx)

theorem Deleted.keep (h : l.Deleted l' i run e) (hx : Item.entry r x ∈ l.items)
    (hne : x.isDir ≠ e.isDir) : Item.entry r x ∈ l'.items := by
  obtain ⟨pre, post, heq, -, heq'⟩ := h
  rw [heq] at hx
  rw [heq']
  simp only [List.mem_append, List.mem_cons, Item.entry.injEq] at hx ⊢
  rcases hx with hx | ⟨-, rfl⟩ | hx
  · exact Or.inl (Or.inl hx)
  · exact absurd rfl hne
  · exact Or.inr hx

theorem Deleted.targets (h : l.Deleted l' i run e) :
    ((Item.target (.entry run e)).toList ++ l'.targets).Perm l.targets := by
  obtain ⟨pre, post, heq, -, heq'⟩ := h
  unfold Listing.targets
  rw [heq, heq', List.filterMap_append, List.filterMap_append, List.filterMap_append,
    targets_holes isHole_map, List.append_nil, ← List.singleton_append (l := post),
    List.filterMap_append]
  have hone : [Item.entry run e].filterMap Item.target =
      (Item.target (.entry run e)).toList := by
    cases ht : Item.target (.entry run e) with
    | none => simp [ht]
    | some c => simp [ht]
  rw [hone, ← List.append_assoc, ← List.append_assoc]
  exact List.perm_append_comm.append_right _

theorem Updated.mem (h : l.Updated l' i run e e') (hx : Item.entry r x ∈ l'.items) :
    Item.entry r x ∈ l.items ∨ (r = run ∧ x = e') := by
  obtain ⟨pre, post, heq, -, heq'⟩ := h
  rw [heq'] at hx
  rw [heq]
  simp only [List.mem_append, List.mem_cons, Item.entry.injEq] at hx ⊢
  tauto

theorem Updated.keep (h : l.Updated l' i run e e') (hx : Item.entry r x ∈ l.items)
    (hne : x.isDir ≠ e.isDir) : Item.entry r x ∈ l'.items := by
  obtain ⟨pre, post, heq, -, heq'⟩ := h
  rw [heq] at hx
  rw [heq']
  simp only [List.mem_append, List.mem_cons, Item.entry.injEq] at hx ⊢
  rcases hx with hx | ⟨-, rfl⟩ | hx
  · exact Or.inl hx
  · exact absurd rfl hne
  · exact Or.inr (Or.inr hx)

theorem Updated.targets (h : l.Updated l' i run e e') :
    ((Item.target (.entry run e)).toList ++ l'.targets).Perm
      ((Item.target (.entry run e')).toList ++ l.targets) := by
  obtain ⟨pre, post, heq, -, heq'⟩ := h
  have hone : ∀ d, [Item.entry run d].filterMap Item.target =
      (Item.target (.entry run d)).toList := by
    intro d
    cases ht : Item.target (.entry run d) with
    | none => simp [ht]
    | some c => simp [ht]
  unfold Listing.targets
  rw [heq, heq', ← List.singleton_append (x := Item.entry run e),
    ← List.singleton_append (x := Item.entry run e'), List.filterMap_append,
    List.filterMap_append, List.filterMap_append, List.filterMap_append, hone, hone]
  refine List.perm_iff_count.mpr fun c => ?_
  simp only [List.count_append]
  omega

end Listing

section Change

/-- A change of one entry of a directory: what happens to the chains is told
apart from what happens to the slots. -/
theorem View.Layout.rewrite (h : w.Layout ch D T) (hd : ⟨s, l⟩ ∈ D)
    (hchains : w'.Chains ch' (starts w.vol (setListing D s l') ++ S)) (hv : w'.vol = w.vol)
    (hother : ∀ d ∈ D, ch' d.start = ch d.start ∧
      (d.start ≠ s → ∀ y ∈ ch d.start, w'.sec y = w.sec y))
    (hslots : w'.slots (ch s) = l'.slots)
    (hsize : ∀ j r x, l'.At j r x → x.isDir = false →
      (l.At j r x ∧ (x.cluster ≠ 0 → (ch x.cluster).length ≤ (ch' x.cluster).length)) ∨
        x.size ≤ room w.vol ch' x.cluster)
    (hfiles : ∀ t j r x, t ≠ s → EntryAt D t j r x → x.isDir = false → x.cluster ≠ 0 →
      (ch x.cluster).length ≤ (ch' x.cluster).length)
    (hdirs : ∀ r x, Item.entry r x ∈ l'.items → x.isDir = true → Item.entry r x ∈ l.items)
    (hkeep : ∀ r x, Item.entry r x ∈ l.items → x.isDir = true → Item.entry r x ∈ l'.items) :
    w'.Layout ch' (setListing D s l') S := by
  have htree := h.tree.replace w' ch' l' (N := []) hd hv
    (fun d hd' hds => ⟨(hother d hd').1, (hother d hd').2 hds⟩)
    (by rw [(hother _ hd).1]; exact hslots) ?_ ?_
    (fun r x hx hdir _ => ⟨r, x, hkeep r x hx hdir, hdir, rfl⟩) (by simp) (by simp) (by simp)
  · rw [List.append_nil] at htree
    exact ⟨by rw [hv]; exact hchains, htree⟩
  · intro d hd' r x hx hin hdir hle
    by_cases hds : d.start = s
    · obtain ⟨j, hat⟩ := Listing.exists_at (hin hds)
      rcases hsize j r x hat hdir with ⟨-, hlen⟩ | hle'
      · exact hle.trans (room_mono hlen)
      · exact hle'
    · obtain ⟨j, hat⟩ := Listing.exists_at hx
      exact hle.trans (room_mono (hfiles _ j r x hds ⟨d, hd', rfl, hat⟩ hdir))
  · intro r x hx
    cases hdir : x.isDir with
    | true => exact Or.inl (hdirs r x hx hdir)
    | false =>
        obtain ⟨j, hat⟩ := Listing.exists_at hx
        rcases hsize j r x hat hdir with ⟨hold, -⟩ | hle
        · exact Or.inl hold.mem
        · exact Or.inr ⟨fun h => absurd h (by decide), fun _ => hle⟩

/-- Deleting a file's entry, with its chain given back. -/
theorem View.Layout.delete (h : w.Layout ch D T) (hd : ⟨s, l⟩ ∈ D)
    (hdel : l.Deleted l' i run e) (hdir : e.isDir = false) (hv : w'.vol = w.vol)
    (hf : w'.fat = if e.cluster = 0 then w.fat else (w.freeChain (ch e.cluster)).fat)
    (hsec : ∀ y, y ∉ ch s → w'.sec y = w.sec y) (hslots : w'.slots (ch s) = l'.slots) :
    w'.Layout ch (setListing D s l') T := by
  have hsS := h.sound_start hd
  have hchains : w'.Chains ch (starts w.vol (setListing D s l') ++ T) := by
    have hp := starts_perm (N := []) (v := w.vol) (B := []) h.tree.nodup hd (by simp) hdel.targets
    rw [List.append_nil, List.nil_append] at hp
    by_cases h0 : e.cluster = 0
    · rw [if_pos h0] at hf
      rw [Item.target_none h0] at hp
      exact (h.chains.perm (hp.symm.append_right T)).of_fat hv hf
    · rw [if_neg h0] at hf
      rw [Item.target_entry h0] at hp
      exact (h.chains.perm (hp.symm.append_right T)).free.of_fat hv hf
  refine h.rewrite hd hchains hv (fun d hd' => ⟨rfl, fun hds y hy => hsec y fun hys => ?_⟩) hslots
    ?_ (fun _ _ _ _ _ _ _ _ => Nat.le_refl _) (fun r x hx _ => hdel.mem hx) ?_
  · exact hds (h.chains.start_unique (h.sound_start hd') hsS hy hys)
  · exact fun j r x hat _ => Or.inl ⟨(hdel.at_iff.mp hat).1, fun _ => Nat.le_refl _⟩
  · intro r x hx hxdir
    exact hdel.keep hx (by rw [hxdir, hdir]; decide)

theorem View.Layout.kept_delete (h : w.Layout ch D T) (hd : ⟨s, l⟩ ∈ D)
    (hdel : l.Deleted l' i run e) (hsec : ∀ y, y ∉ ch s → w'.sec y = w.sec y) :
    Kept (fun t j => t = s ∧ j = i) w ch D w' ch (setListing D s l') := by
  refine ⟨fun t j r x hx hne => (entryAt_setListing hd).mpr ?_, fun t j r x hx _ hdir h0 =>
    ⟨rfl, fun y hy => hsec y (h.file_disjoint hd hx hdir h0 hy)⟩, fun d hd' => ?_⟩
  · by_cases hts : t = s
    · subst hts
      exact Or.inr ⟨rfl, hdel.at_iff.mpr ⟨(entryAt_iff h.tree.nodup hd).mp hx,
        fun hji => hne ⟨rfl, hji⟩⟩⟩
    · exact Or.inl ⟨hts, hx⟩
  · obtain ⟨d', hd'', hs⟩ := exists_setListing l' hd hd'
    exact ⟨d', hd'', hs, [], by simp⟩

theorem View.Layout.kept_rewrite (h : w.Layout ch D T) (hd : ⟨s, l⟩ ∈ D)
    (hup : l.Updated l' i run e e')
    (hchain : ∀ t j r x, EntryAt D t j r x → ¬ (t = s ∧ j = i) → x.isDir = false →
      x.cluster ≠ 0 → ch' x.cluster = ch x.cluster ∧ ∀ y ∈ ch x.cluster, w'.sec y = w.sec y)
    (hdirs : ∀ d ∈ D, ch' d.start = ch d.start) :
    Kept (fun t j => t = s ∧ j = i) w ch D w' ch' (setListing D s l') := by
  refine ⟨fun t j r x hx hne => (entryAt_setListing hd).mpr ?_, hchain, fun d hd' => ?_⟩
  · by_cases hts : t = s
    · subst hts
      exact Or.inr ⟨rfl, hup.at_iff.mpr (Or.inl ⟨(entryAt_iff h.tree.nodup hd).mp hx,
        fun hji => hne ⟨rfl, hji⟩⟩)⟩
    · exact Or.inl ⟨hts, hx⟩
  · obtain ⟨d', hd'', hs⟩ := exists_setListing l' hd hd'
    exact ⟨d', hd'', hs, [], by rw [hdirs d hd', List.append_nil]⟩

variable (w') in
/-- Storing another size into the short entry of a file. -/
theorem View.Layout.resize (h : w.Layout ch D T) (hd : ⟨s, l⟩ ∈ D)
    (hup : l.Updated l' i run e e') (hdir : e.isDir = false) (hdir' : e'.isDir = false)
    (hcl : e'.cluster = e.cluster) (hsize : e'.size ≤ room w.vol ch e'.cluster)
    (hv : w'.vol = w.vol) (hf : w'.fat = w.fat) (hsec : ∀ y, y ∉ ch s → w'.sec y = w.sec y)
    (hslots : w'.slots (ch s) = l'.slots) :
    w'.Layout ch (setListing D s l') T ∧
      Kept (fun t j => t = s ∧ j = i) w ch D w' ch (setListing D s l') := by
  have hsS := h.sound_start hd
  have htarget : Item.target (.entry run e') = Item.target (.entry run e) := by
    simp only [Item.target, hcl]
  have hchains : w'.Chains ch (starts w.vol (setListing D s l') ++ T) := by
    have ht := hup.targets
    rw [htarget] at ht
    have hp := starts_perm (N := []) (v := w.vol) (A := []) (B := []) h.tree.nodup hd (by simp)
      ((List.perm_append_left_iff _).mp ht)
    rw [List.append_nil] at hp
    exact (h.chains.perm (hp.symm.append_right T)).of_fat hv hf
  refine ⟨h.rewrite hd hchains hv (fun d hd' => ⟨rfl, fun hds y hy => hsec y fun hys => ?_⟩)
    hslots ?_ (fun _ _ _ _ _ _ _ _ => Nat.le_refl _) ?_ ?_, h.kept_rewrite hd hup
      (fun t j r x hx _ hxdir h0 => ⟨rfl, fun y hy =>
        hsec y (h.file_disjoint hd hx hxdir h0 hy)⟩) fun _ _ => rfl⟩
  · exact hds (h.chains.start_unique (h.sound_start hd') hsS hy hys)
  · intro j r x hat _
    rcases hup.at_iff.mp hat with ⟨hold, -⟩ | ⟨rfl, rfl, rfl⟩
    · exact Or.inl ⟨hold, fun _ => Nat.le_refl _⟩
    · exact Or.inr hsize
  · intro r x hx hxdir
    rcases hup.mem hx with hx | ⟨-, rfl⟩
    · exact hx
    · rw [hdir'] at hxdir
      exact absurd hxdir (by decide)
  · intro r x hx hxdir
    exact hup.keep hx (by rw [hxdir, hdir]; decide)

/-- A cluster that is free once a file has given its chain back lies on no other chain. -/
theorem View.Layout.not_mem_freed {k b : Nat} (h : w.Layout ch D T) (hs : w.vol.Sound n)
    (hat : EntryAt D s i run e) (hw₀ : w₀ = if e.cluster = 0 then w else w.freeChain (ch e.cluster))
    (h0 : w₀.fat k = 0) (hb : b ∈ starts w.vol D ++ T) (hne : b ≠ e.cluster ∨ e.cluster = 0) :
    k ∉ ch b := by
  intro hm
  have hnot := (h.chains.fat_ne hs hb hm).1
  by_cases hc : e.cluster = 0
  · rw [hw₀, if_pos hc] at h0
    exact hnot h0
  · rw [hw₀, if_neg hc, View.fat_freeChain] at h0
    by_cases hin : k ∈ ch e.cluster
    · exact (hne.resolve_right hc) (h.chains.start_unique hb
        (List.mem_append_left T (hat.mem_starts hc)) hm hin)
    · simp only [hin, if_false] at h0
      exact hnot h0

/-- The chains once a file has given its own back and got a fresh cluster. -/
theorem View.Layout.chains_truncated (h : w.Layout ch D T) (hs : w.vol.Sound n) (hd : ⟨s, l⟩ ∈ D)
    (hup : l.Updated l' i run e e') (hat : EntryAt D s i run e)
    (hw₀ : w₀ = if e.cluster = 0 then w else w.freeChain (ch e.cluster))
    (hk : w.vol.InRange e'.cluster) (h0 : w₀.fat e'.cluster = 0) (hv : w'.vol = w.vol)
    (hf : w'.fat = (w₀.alloc 0 e'.cluster).fat) :
    w'.Chains (Function.update ch e'.cluster [e'.cluster])
      (starts w.vol (setListing D s l') ++ T) := by
  have hk0 : e'.cluster ≠ 0 := by
    have := hk.1
    omega
  have hv₀ : w₀.vol = w.vol := by
    rw [hw₀]
    split <;> rfl
  have hp := starts_perm (N := []) (v := w.vol) h.tree.nodup hd (by simp) hup.targets
  rw [List.append_nil, Item.target_entry hk0] at hp
  have halloc : ∀ R, w₀.Chains ch (R ++ T) →
      (starts w.vol (setListing D s l')).Perm (e'.cluster :: R) →
      w'.Chains (Function.update ch e'.cluster [e'.cluster])
        (starts w.vol (setListing D s l') ++ T) := by
    intro R hR hperm
    have hs₀ : w₀.vol.Sound n := hv₀ ▸ hs
    refine View.Chains.of_fat (((hR.alloc hs₀ (hv₀ ▸ hk) h0)).perm
      (hperm.append_right T).symm) ?_ hf
    rw [View.vol_alloc, hv, hv₀]
  by_cases hc : e.cluster = 0
  · rw [if_pos hc] at hw₀
    rw [Item.target_none hc] at hp
    exact halloc _ (hw₀ ▸ h.chains) hp
  · rw [if_neg hc] at hw₀
    rw [Item.target_entry hc] at hp
    have her := List.perm_cons_erase (hat.mem_starts (v := w.vol) hc)
    refine halloc _ (hw₀ ▸ (h.chains.perm (her.append_right T)).free) ?_
    refine List.Perm.cons_inv (a := e.cluster) ?_
    exact (hp.trans (her.cons e'.cluster)).trans (List.Perm.swap _ _ _)

variable (w') in
/-- Truncation: the chain of a file is given back, and its entry gets a fresh
cluster. -/
theorem View.Layout.truncate (h : w.Layout ch D T) (hs : w.vol.Sound n) (hd : ⟨s, l⟩ ∈ D)
    (hup : l.Updated l' i run e e') (hdir : e.isDir = false) (hdir' : e'.isDir = false)
    (hw₀ : w₀ = if e.cluster = 0 then w else w.freeChain (ch e.cluster))
    (hk : w.vol.InRange e'.cluster) (h0 : w₀.fat e'.cluster = 0) (hsize : e'.size = 0)
    (hv : w'.vol = w.vol) (hf : w'.fat = (w₀.alloc 0 e'.cluster).fat)
    (hsec : ∀ y, y ∉ ch s → y ≠ e'.cluster → w'.sec y = w.sec y)
    (hslots : w'.slots (ch s) = l'.slots) :
    w'.Layout (Function.update ch e'.cluster [e'.cluster]) (setListing D s l') T ∧
      Kept (fun t j => t = s ∧ j = i) w ch D w' (Function.update ch e'.cluster [e'.cluster])
        (setListing D s l') := by
  have hsS := h.sound_start hd
  have hat : EntryAt D s i run e := by
    obtain ⟨pre, post, heq, rfl, -⟩ := hup
    refine (entryAt_iff h.tree.nodup hd).mpr ?_
    have := at_split 0 run e pre post
    unfold Listing.At
    rw [heq]
    rwa [Nat.zero_add] at this
  have hchains := h.chains_truncated hs hd hup hat hw₀ hk h0 hv hf
  have hfresh : ∀ b ∈ starts w.vol D ++ T, b ≠ e.cluster ∨ e.cluster = 0 → e'.cluster ∉ ch b :=
    fun b hb hne => h.not_mem_freed hs hat hw₀ h0 hb hne
  have hdirs : ∀ d ∈ D, d.start ≠ e.cluster ∨ e.cluster = 0 := by
    intro d hd'
    by_cases hc : e.cluster = 0
    · exact Or.inr hc
    · exact Or.inl (h.start_ne hd' hat hdir hc)
  have hfiles : ∀ t j r x, EntryAt D t j r x → ¬ (t = s ∧ j = i) → x.cluster ≠ 0 →
      x.cluster ≠ e.cluster ∨ e.cluster = 0 := by
    intro t j r x hx hne hx0
    by_cases heq : x.cluster = e.cluster
    · obtain ⟨rfl, rfl, -⟩ := h.target_unique hat hx heq (heq ▸ hx0)
      exact absurd ⟨rfl, rfl⟩ hne
    · exact Or.inl heq
  have hupd : ∀ b ∈ starts w.vol D ++ T, b ≠ e.cluster ∨ e.cluster = 0 →
      Function.update ch e'.cluster [e'.cluster] b = ch b := by
    intro b hb hne
    refine Function.update_of_ne ?_ _ _
    rintro rfl
    exact hfresh _ hb hne (h.chains.mem_self hb)
  refine ⟨h.rewrite hd hchains hv (fun d hd' => ?_) hslots ?_ ?_ ?_ ?_,
    h.kept_rewrite hd hup ?_ fun d hd' => hupd _ (h.sound_start hd') (hdirs d hd')⟩
  · have hdS := h.sound_start hd'
    refine ⟨hupd _ hdS (hdirs d hd'), fun hds y hy => hsec y (fun hys => ?_) ?_⟩
    · exact hds (h.chains.start_unique hdS hsS hy hys)
    · rintro rfl
      exact hfresh _ hdS (hdirs d hd') hy
  · intro j r x hx hxdir
    rcases hup.at_iff.mp hx with ⟨hold, hne⟩ | ⟨rfl, rfl, rfl⟩
    · refine Or.inl ⟨hold, fun hx0 => ?_⟩
      have hxat := (entryAt_iff h.tree.nodup hd).mpr hold
      rw [hupd _ (List.mem_append_left T (hxat.mem_starts hx0))
        (hfiles s j r x hxat (fun hc => hne hc.2) hx0)]
    · exact Or.inr (by rw [hsize]; exact Nat.zero_le _)
  · intro t j r x hts hx hxdir hx0
    rw [hupd _ (List.mem_append_left T (hx.mem_starts hx0))
      (hfiles t j r x hx (fun hc => hts hc.1) hx0)]
  · intro r x hx hxdir
    rcases hup.mem hx with hx | ⟨-, rfl⟩
    · exact hx
    · rw [hdir'] at hxdir
      exact absurd hxdir (by decide)
  · intro r x hx hxdir
    exact hup.keep hx (by rw [hxdir, hdir]; decide)
  · intro t j r x hx hne hxdir hx0
    have hxS := List.mem_append_left T (hx.mem_starts (v := w.vol) hx0)
    have hxne := hfiles t j r x hx hne hx0
    refine ⟨hupd _ hxS hxne, fun y hy => hsec y (h.file_disjoint hd hx hxdir hx0 hy) ?_⟩
    rintro rfl
    exact hfresh _ hxS hxne hy

end Change

/-- The chain of the file at a place, in front of the other chains. -/
theorem EntryAt.perm_starts {v : Vol} (h : EntryAt D s i run e) (h0 : e.cluster ≠ 0) :
    (starts v D ++ T).Perm (e.cluster :: (starts v D).erase e.cluster ++ T) :=
  (List.perm_cons_erase (h.mem_starts h0)).append_right T

theorem Touched.layout (h : w.Layout ch D T) (he : EntryAt D s i run e) (hdir : e.isDir = false)
    (h0 : e.cluster ≠ 0)
    (hw : Touched w ch e.cluster ((starts w.vol D).erase e.cluster ++ T) w' ch') :
    w'.Layout ch' D T ∧ Kept (fun t j => t = s ∧ j = i) w ch D w' ch' D := by
  have hp := he.perm_starts (v := w.vol) (T := T) h0
  have hv := hw.vol
  obtain ⟨ys, hys⟩ := hw.ext
  have hother : ∀ b ∈ starts w.vol D ++ T, b ≠ e.cluster →
      ch' b = ch b ∧ ∀ y ∈ ch b, w'.sec y = w.sec y := by
    intro b hb hne
    refine ⟨hw.other b hne, fun y hy => hw.sec y fun hm => ?_⟩
    rw [← hw.other b hne] at hy
    exact hne (hw.chains.start_unique (hp.mem_iff.mp hb) List.mem_cons_self hy hm)
  refine ⟨⟨?_, h.tree.frame hv (fun d hd => hother _ (h.sound_start hd)
    (h.start_ne hd he hdir h0)) fun b hb => ?_⟩, fun _ _ _ _ hx _ => hx, ?_, fun d hd =>
      ⟨d, hd, rfl, [], ?_⟩⟩
  · rw [hv]
    exact hw.chains.perm hp.symm
  · by_cases hbe : b = e.cluster
    · rw [hbe, hys, List.length_append]
      omega
    · rw [hw.other b hbe]
  · intro t j r x hx hne hxdir hx0
    refine hother _ (List.mem_append_left T (hx.mem_starts hx0)) fun heq => hne ?_
    obtain ⟨rfl, rfl, -⟩ := h.target_unique he hx heq h0
    exact ⟨rfl, rfl⟩
  · rw [(hother _ (h.sound_start hd) (h.start_ne hd he hdir h0)).1, List.append_nil]

end Chimaera.Fat32
