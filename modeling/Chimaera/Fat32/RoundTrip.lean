/-
Directory names round trip: what `dir_add_entry` stores under a name is what
`dir_find` and `fat32_readdir` give back, and every other name keeps its answer.
-/
import Chimaera.Fat32.Consistency
import Chimaera.Preserves

namespace Chimaera.Fat32

open Prog

variable {α β : Type} {R : β → View → Prop} {w w' w₁ : View} {ch ch' : Nat → List Nat}
  {D : List Dir} {T xs xs' : List Nat} {l l' l₁ : Listing} {run : List DirEntry} {e : DirEntry}
  {s i n : Nat} {name nm path : CStr}

theorem toNat_fToupper (c : UInt8) : (fToupper c).toNat =
    if 97 ≤ c.toNat ∧ c.toNat ≤ 122 then c.toNat - 32 else c.toNat := by
  have hiff : (0x61 ≤ c ∧ c ≤ 0x7A) ↔ (97 ≤ c.toNat ∧ c.toNat ≤ 122) := by
    rw [UInt8.le_iff_toNat_le, UInt8.le_iff_toNat_le]
    rfl
  unfold fToupper
  by_cases hc : 97 ≤ c.toNat ∧ c.toNat ≤ 122
  · rw [if_pos (hiff.mpr hc), if_pos hc,
      UInt8.toNat_sub_of_le _ _ (UInt8.le_iff_toNat_le.mpr (by simp; omega))]
    rfl
  · rw [if_neg (fun h => hc (hiff.mp h)), if_neg hc]

theorem fToupper_eq_dot {c : UInt8} : fToupper c = 0x2E ↔ c = 0x2E := by
  rw [← UInt8.toNat_inj, ← UInt8.toNat_inj, toNat_fToupper]
  have hdot : (0x2E : UInt8).toNat = 46 := rfl
  rw [hdot]
  split <;> omega

theorem fToupper_fToupper (c : UInt8) : fToupper (fToupper c) = fToupper c := by
  rw [← UInt8.toNat_inj, toNat_fToupper (fToupper c), toNat_fToupper c]
  by_cases hc : 97 ≤ c.toNat ∧ c.toNat ≤ 122
  · rw [if_pos hc, if_neg (by omega)]
  · rw [if_neg hc, if_neg hc]

theorem splitDot_map (name : CStr) : splitDot (name.map fToupper) =
    ((splitDot name).1.map fToupper, (splitDot name).2.map fToupper) := by
  have hp : ((fun c : UInt8 => c != 0x2E) ∘ fToupper) = fun c => c != 0x2E := by
    funext c
    rw [Function.comp_apply, Bool.eq_iff_iff, bne_iff_ne, bne_iff_ne, ne_eq, ne_eq,
      fToupper_eq_dot]
  unfold splitDot
  rw [List.span_eq_takeWhile_dropWhile, List.span_eq_takeWhile_dropWhile, ← List.map_reverse,
    List.takeWhile_map, List.dropWhile_map, hp]
  cases List.dropWhile (fun c : UInt8 => c != 0x2E) name.reverse with
  | nil => simp
  | cons d stem => simp

/-- A short name only depends on the upper case of the name. -/
theorem make83_map (name : CStr) : make83 (name.map fToupper) = make83 name := by
  have hid : fToupper ∘ fToupper = fToupper := funext fToupper_fToupper
  unfold make83 stem83
  rw [splitDot_map, List.map_map, List.map_map, hid]

theorem make83_of_sameName (h : sameName nm name = true) : make83 nm = make83 name := by
  unfold sameName at h
  rw [← make83_map nm, beq_iff_eq.mp h, make83_map]

/-- Names that differ in case call the same entries. -/
theorem called_of_sameName (h : sameName nm name = true) : called nm run e = called name run e := by
  unfold called
  rw [make83_of_sameName h]
  unfold sameName at h ⊢
  rw [beq_iff_eq.mp h]

/-- A name that no entry has is no entry's in another case. -/
theorem Listing.find_of_sameName (h : sameName nm name = true) (hno : l.find name = none) :
    l.find nm = none := by
  rw [Listing.find, findFrom_eq_none] at hno ⊢
  intro it hit
  have := hno it hit
  cases it with
  | hole d => rfl
  | dot d => rfl
  | entry r x => exact (called_of_sameName h).trans this

theorem findFrom_append (name : CStr) (i : Nat) (items its : List Item) :
    findFrom name i (items ++ its) =
      (findFrom name i items).or (findFrom name (i + (items.flatMap Item.slots).length) its) := by
  induction items generalizing i with
  | nil => simp [findFrom]
  | cons it rest ih =>
      rw [List.cons_append, List.flatMap_cons, List.length_append]
      cases it with
      | hole d =>
          simp only [findFrom, ih, Item.slots, List.length_singleton]
          rw [Nat.add_assoc]
      | dot d =>
          simp only [findFrom, ih, Item.slots, List.length_singleton]
          rw [Nat.add_assoc]
      | entry r d =>
          simp only [findFrom, ih, Item.slots, List.length_append, List.length_singleton]
          split
          · rfl
          · rw [Nat.add_assoc]

theorem findFrom_holes {hs : List Item} (h : ∀ it ∈ hs, it.isHole = true) :
    findFrom name i hs = none := by
  rw [findFrom_eq_none]
  intro it hit
  cases it with
  | hole d => rfl
  | dot d => rfl
  | entry r d => exact absurd (h _ hit) (by simp [Item.isHole])

namespace Listing

/-- Lookups by name after an entry went in. -/
theorem Inserted.find (h : l.Inserted l' s run e) (hnew : called nm run e = true →
    l.find nm = none) :
    l'.find nm = if called nm run e then some (s, run, e) else l.find nm := by
  obtain ⟨pre, hs, post, heq, hhs, heq', hpre, hcase⟩ := h
  unfold Listing.find at hnew ⊢
  rw [heq, List.append_assoc, findFrom_append] at hnew
  rw [heq, heq', List.append_assoc, findFrom_append, findFrom_append, Nat.zero_add, hpre]
  by_cases hc : called nm run e = true
  · have hnone := (Option.or_eq_none_iff.mp (hnew hc)).1
    rw [if_pos hc, hnone, Option.none_or, findFrom, if_pos hc]
  · rw [if_neg hc, findFrom, if_neg hc, findFrom_append, findFrom_holes hhs, Option.none_or]
    rcases hcase with hlen | rfl
    · rw [length_holes hhs, hlen]
    · rfl

theorem Inserted.listed (h : l.Inserted l' s run e) :
    ∃ pre post, l.listed = pre ++ post ∧
      l'.listed = pre ++ e.dirent (shownName run e) :: post := by
  obtain ⟨pre, hs, post, heq, hhs, heq', -⟩ := h
  have hnil : hs.flatMap Item.listed = [] := by
    rw [List.flatMap_eq_nil_iff]
    intro it hit
    cases it with
    | hole d => rfl
    | dot d => rfl
    | entry r d => exact absurd (hhs _ hit) (by simp [Item.isHole])
  refine ⟨pre.flatMap Item.listed, post.flatMap Item.listed, ?_, ?_⟩
  · simp [Listing.listed, heq, hnil]
  · simp [Listing.listed, heq', Item.listed]

end Listing

theorem newPieces_ne (l : Listing) (hpos : 1 ≤ name.length) : newPieces l name ≠ [] := by
  intro hnil
  have hlen := congrArg List.length hnil
  rw [length_newPieces, lfnCount, List.length_nil] at hlen
  omega

/-- An entry with the pieces of a name answers to that name in any case, and
to no other name. -/
theorem called_newPieces (hpos : 1 ≤ name.length) (hlen : name.length ≤ 255)
    (hz : ∀ c ∈ name, c ≠ 0) : called nm (newPieces l name) e = sameName nm name := by
  rw [called, if_neg (newPieces_ne l hpos), newPieces, runName_newRun hz hlen]

theorem shownName_newPieces (hpos : 1 ≤ name.length) (hlen : name.length ≤ 255)
    (hz : ∀ c ∈ name, c ≠ 0) : shownName (newPieces l name) e = name := by
  have hbuf : runBuf (newPieces l name) 0 ≠ 0 := by
    rw [newPieces, runBuf_newRun hz hlen, bufFrom, if_pos (by omega),
      List.getD_eq_getElem _ _ hpos]
    exact hz _ (List.getElem_mem hpos)
  rw [shownName, if_pos ⟨newPieces_ne l hpos, hbuf⟩, newPieces, runName_newRun hz hlen]

/-- The directories of a layout still list, and whatever a name found in one of
them it still finds. -/
def StillFinds (w' : View) (ch' : Nat → List Nat) (D : List Dir) : Prop :=
  ∀ d ∈ D, ∃ l', w'.Lists d.start (ch' d.start) l' ∧
    ∀ nm r, d.listing.find nm = some r → l'.find nm = some r

theorem Holds.resolve_still (h : w.Layout ch D T) (hk : StillFinds w' ch' D)
    {d : Dir} (hd : d ∈ D) {p : CStr} (hne : (Fat32.resolve w.vol D d.start p).1 ≠ 0)
    {f : Nat × CStr → Prog Drv β} (hf : Holds (f (Fat32.resolve w.vol D d.start p)) R w') :
    Holds (Prog.loop (resolveStep w.vol) (d.start, p) >>= f) R w' := by
  apply Holds.bind
  induction hn : p.length using Nat.strong_induction_on generalizing d p with
  | h n ih =>
      apply Holds.loop
      rw [Fat32.resolve] at hf hne
      rw [resolveStep]
      by_cases hp : p = []
      · simp only [hp, if_true] at hf ⊢
        exact Holds.pure hf
      · simp only [hp, if_false] at hf hne ⊢
        by_cases hr : pathRest p = []
        · simp only [hr, if_true] at hf ⊢
          exact Holds.pure hf
        · simp only [hr, if_false, h.listingOf hd, Option.bind_some] at hf hne ⊢
          obtain ⟨l', hl', hfinds⟩ := hk d hd
          apply Holds.dirFind hl'
          cases hfind : d.listing.find (pathComp p) with
          | none => simp [hfind] at hne
          | some r =>
              obtain ⟨j, run, e⟩ := r
              simp only [hfind] at hf hne
              rw [Listing.found, hfinds _ _ hfind, Option.map_some]
              cases hdir : e.isDir with
              | false => simp [hdir] at hne
              | true =>
                  simp only [hdir, if_true] at hf hne ⊢
                  obtain ⟨pre, post, heq, -⟩ := Listing.find_eq_some hfind
                  have he : Item.entry run e ∈ d.listing.items := by simp [heq]
                  obtain ⟨d', hd', hs⟩ := h.dirTarget_mem hd he hdir
                  rw [← hs] at hf hne ⊢
                  apply Holds.pure
                  exact ih _ (hn ▸ length_pathRest_lt hp) hd' hne hf rfl

theorem Holds.pathResolveParent_still (h : w.Layout ch D T) (hk : StillFinds w' ch' D)
    (hv : w'.vol = w.vol) (hne : (Fat32.resolveParent w.vol D path).1 ≠ 0)
    {f : Nat × CStr → Prog Drv β} (hf : Holds (f (Fat32.resolveParent w.vol D path)) R w') :
    Holds (Fat32.pathResolveParent path >>= f) R w' := by
  rw [Fat32.pathResolveParent, bind_assoc]
  apply Holds.getStore
  intro c hc
  rw [hc.vol, hv]
  obtain ⟨d, hd, hs⟩ := h.tree.root
  unfold Fat32.resolveParent at hf hne
  split
  · next rest =>
      simp only at hf hne
      rw [← hs] at hf hne ⊢
      exact Holds.resolve_still h hk hd hne hf
  · next hno =>
      exfalso
      split at hne
      · next rest => exact hno rest rfl
      · exact hne rfl

/-- A path that named an entry still names it. -/
theorem Holds.pathStat_still (h : w.Layout ch D T) (hk : StillFinds w' ch' D)
    (hv : w'.vol = w.vol) {p : PathInfo} (hp : statPath w.vol ch D path = some p)
    {f : Option PathInfo → Prog Drv β}
    (hf : ∀ q : PathInfo, q.entry = p.entry → Holds (f (some q)) R w') :
    Holds (Fat32.pathStat path >>= f) R w' := by
  rw [Fat32.pathStat, bind_assoc]
  apply Holds.getStore
  intro c hc
  rw [hc.vol, hv]
  unfold statPath at hp
  by_cases hroot : path = [0x2F]
  · simp only [hroot, if_true, pure_bind, Option.some.injEq] at hp ⊢
    exact hf _ (by rw [← hp])
  · simp only [hroot, if_false] at hp ⊢
    by_cases herr : (resolveParent w.vol D path).1 = 0 ∨ (resolveParent w.vol D path).2 = []
    · simp [herr] at hp
    · rw [if_neg herr] at hp
      have hne : (resolveParent w.vol D path).1 ≠ 0 := fun h0 => herr (Or.inl h0)
      obtain ⟨d, hd, hs⟩ := (resolveParent_mem h path).resolve_left hne
      rw [bind_assoc]
      apply Holds.pathResolveParent_still h hk hv hne
      simp only [if_neg herr]
      rw [← hs, h.listingOf hd, Option.bind_some, Listing.found] at hp
      obtain ⟨l', hl', hfinds⟩ := hk d hd
      rw [← hs, bind_assoc]
      apply Holds.dirFind hl'
      cases hfind : d.listing.find (resolveParent w.vol D path).2 with
      | none => simp [hfind] at hp
      | some r =>
          rw [hfind, Option.map_some, Option.map_some, Option.some.injEq] at hp
          rw [Listing.found, hfinds _ _ hfind, Option.map_some]
          simp only [pure_bind]
          exact hf _ (by rw [← hp])

/-- A path that names a directory leads to one of the layout. -/
theorem statPath_dir (h : w.Layout ch D T) (hs : w.vol.Sound n) {p : PathInfo}
    (hp : statPath w.vol ch D path = some p) (hdir : p.entry.isDir = true) :
    ∃ d ∈ D, d.start = w.vol.dirTarget p.entry := by
  unfold statPath at hp
  by_cases hroot : path = [0x2F]
  · rw [if_pos hroot, Option.some.injEq] at hp
    rw [← hp, dirTarget_rootEntry hs]
    exact h.tree.root
  · rw [if_neg hroot] at hp
    by_cases herr : (resolveParent w.vol D path).1 = 0 ∨ (resolveParent w.vol D path).2 = []
    · simp [herr] at hp
    · rw [if_neg herr] at hp
      obtain ⟨d, hd, hs⟩ := (resolveParent_mem h path).resolve_left fun h0 => herr (Or.inl h0)
      rw [← hs, h.listingOf hd, Option.bind_some, Listing.found] at hp
      cases hfind : d.listing.find (resolveParent w.vol D path).2 with
      | none => simp [hfind] at hp
      | some r =>
          obtain ⟨j, run, e⟩ := r
          rw [hfind, Option.map_some, Option.map_some, Option.some.injEq] at hp
          obtain ⟨pre, post, heq, -⟩ := Listing.find_eq_some hfind
          have he : Item.entry run e ∈ d.listing.items := by simp [heq]
          rw [← hp] at hdir ⊢
          exact h.dirTarget_mem hd he hdir

/-- `fat32_readdir` on a layout. -/
def readdirPath (w : View) (ch : Nat → List Nat) (D : List Dir) (path : CStr) :
    Int × List Dirent :=
  if !w.mounted then (Err.noDev.code, [])
  else match statPath w.vol ch D path with
    | none => (Err.notFound.code, [])
    | some p =>
        if !p.entry.isDir then (Err.notDir.code, [])
        else match listingOf D (w.vol.dirTarget p.entry) with
          | none => (0, [])
          | some l => (l.listed.length, l.listed)

theorem Holds.fat32Readdir (h : w.Layout ch D T) {f : Int × List Dirent → Prog Drv β}
    (hf : Holds (f (readdirPath w ch D path)) R w) :
    Holds (Fat32.fat32Readdir path >>= f) R w := by
  refine Holds.of_sound fun n hs => ?_
  unfold readdirPath at hf
  rw [Fat32.fat32Readdir, bind_assoc]
  apply Holds.getStore
  intro c hc
  rw [hc.mounted, hc.vol]
  cases hm : w.mounted with
  | false =>
      simp only [hm, Bool.not_false, if_true, pure_bind] at hf ⊢
      exact hf
  | true =>
      simp only [hm, Bool.not_true, Bool.false_eq_true, if_false, bind_assoc] at hf ⊢
      apply Holds.pathStat h
      cases hp : statPath w.vol ch D path with
      | none =>
          simp only [hp, pure_bind] at hf ⊢
          exact hf
      | some p =>
          cases hdir : p.entry.isDir with
          | false =>
              simp only [hp, hdir, Bool.not_false, if_true, pure_bind] at hf ⊢
              exact hf
          | true =>
              obtain ⟨d, hd, hstart⟩ := statPath_dir h hs hp hdir
              simp only [hp, hdir, Bool.not_true, Bool.false_eq_true, if_false, bind_assoc,
                ← hstart, h.listingOf hd] at hf ⊢
              apply Holds.readdirCluster (h.lists hd)
              rw [pure_bind]
              exact hf

/-- Listing a path that led to a directory before. -/
theorem Holds.fat32Readdir_still (h : w.Layout ch D T) (hk : StillFinds w' ch' D)
    (hv : w'.vol = w.vol) (hm : w'.mounted = true) {p : PathInfo}
    (hp : statPath w.vol ch D path = some p) (hdir : p.entry.isDir = true)
    (hl : w'.Lists (w.vol.dirTarget p.entry) xs l') {f : Int × List Dirent → Prog Drv β}
    (hf : Holds (f (l'.listed.length, l'.listed)) R w') :
    Holds (Fat32.fat32Readdir path >>= f) R w' := by
  rw [Fat32.fat32Readdir, bind_assoc]
  apply Holds.getStore
  intro c hc
  rw [hc.mounted, hc.vol, hm, hv]
  simp only [Bool.not_true, Bool.false_eq_true, if_false, bind_assoc]
  apply Holds.pathStat_still h hk hv hp
  intro q hq
  simp only [hq, hdir, Bool.not_true, Bool.false_eq_true, if_false, bind_assoc]
  apply Holds.readdirCluster hl
  rw [pure_bind]
  exact hf

/-- The other directories list as before when one of them got an entry. -/
theorem stillFinds_inserted (h : w.Layout ch D T) (hs : w.vol.Sound n) (hd : ⟨s, l⟩ ∈ D)
    (hg : w.Grown (ch s) l w₁ xs' l₁) (hins : l₁.Inserted l' i run e) (hv : w'.vol = w₁.vol)
    (hf : w'.fat = w₁.fat) (hsec : ∀ y, y ∉ xs' → w'.sec y = w₁.sec y)
    (hslots : w'.slots xs' = l'.slots)
    (hnew : ∀ nm, called nm run e = true → l.find nm = none) :
    StillFinds w' (Function.update ch s xs') D := by
  have hsS : s ∈ starts w.vol D ++ T := h.sound_start hd
  obtain ⟨hch, ⟨ys, hys⟩, hsec₁⟩ := hg.chains h.chains hs hsS
  have hvol : w'.vol = w.vol := hv.trans hg.vol
  intro d hd'
  obtain ⟨hchain, hne⟩ := hch.chain d.start (h.sound_start hd')
  have hchain' := hchain.of_fat hv fun x _ => by rw [hf]
  by_cases hstart : d.start = s
  · obtain rfl := eq_of_start_eq h.tree.nodup hd' hd hstart
    refine ⟨l', ⟨hchain', hne, ?_⟩, fun nm r hfind => ?_⟩
    · rw [Function.update_self]
      exact hslots
    · have hfind₁ : l₁.find nm = l.find nm := by
        unfold Listing.find
        rw [hg.items]
      rw [hins.find fun hc => hfind₁.trans (hnew nm hc), hfind₁, hfind, if_neg]
      intro hc
      rw [hnew nm hc] at hfind
      cases hfind
  · refine ⟨d.listing, ⟨hchain', hne, ?_⟩, fun nm r hfind => hfind⟩
    rw [Function.update_of_ne hstart, ← h.tree.slots d hd']
    apply View.slots_congr hvol
    intro y hy
    have hyx : y ∉ xs' := by
      intro hyx
      refine hstart (hch.start_unique (h.sound_start hd') hsS (x := y) ?_ ?_)
      · rwa [Function.update_of_ne hstart]
      · rwa [Function.update_self]
    rw [hsec y hyx, hsec₁ y hyx]

/-- The new entry moves no other one. -/
theorem found_inserted (hl : w.Lists s xs l)
    (hg : w.Grown xs l w₁ xs' l₁) (hins : l₁.Inserted l' i run e)
    (hnew : ∀ nm, called nm run e = true → l.find nm = none) :
    l'.found w.vol xs' nm = if called nm run e then
      some (e, posAt w.vol 0 xs' (i + run.length), posAt w.vol 0 xs' i)
      else l.found w.vol xs nm := by
  have hfind₁ : l₁.find nm = l.find nm := by
    unfold Listing.find
    rw [hg.items]
  unfold Listing.found
  rw [hins.find fun hc => hfind₁.trans (hnew nm hc), hfind₁]
  split
  · rfl
  · cases hfind : l.find nm with
    | none => rfl
    | some r =>
        obtain ⟨j, r, x⟩ := r
        have hlt := (Listing.find_at hfind).lt
        rw [hl.length_slots] at hlt
        have hin : ∀ k, k ≤ j + r.length → posAt w.vol 0 xs' k = posAt w.vol 0 xs k := by
          intro k hk
          cases hg with
          | same => rfl
          | more c hc h0 =>
              exact posAt_append [c] (div_lt_length (by omega))
        simp only [Option.map_some, Option.some.injEq, Prod.mk.injEq, true_and]
        exact ⟨hin _ (Nat.le_refl _), hin _ (by omega)⟩

/-- The directory that starts at `a` belongs to a volume that is consistent, up
to chains that no entry leads to yet. -/
def Drv.Directory (s : Drv) (a : Nat) : Prop :=
  ∃ w ch D T, s.toStore.Shows w ∧ w.Layout ch D T ∧ ∃ d ∈ D, d.start = a

/-- The path names the directory that starts at `a`. -/
def Leads (s : Drv) (path : CStr) (a : Nat) : Prop :=
  ∃ p, (pathStat path).Answers s (some p) ∧ p.entry.isDir = true ∧ s.vol.dirTarget p.entry = a

/-- A new name in the directory `a`: it is found in every spelling with what was
stored under it, other names answer as before, and the listing has one more. -/
structure NameAdded (s s' : Drv) (a : Nat) (name : CStr) (attr : UInt8) (cluster size : Nat) :
    Prop where
  found : ∀ nm, sameName nm name = true → ∃ e pos start,
    (dirFind a nm).Answers s' (some (e, pos, start)) ∧ e.attr = attr ∧ e.cluster = cluster ∧
      e.size = size
  others : ∀ nm r, sameName nm name = false →
    ((dirFind a nm).Answers s' r ↔ (dirFind a nm).Answers s r)
  listed : ∃ pre de post, de.name = name ∧ de.attr = attr ∧ de.cluster = cluster ∧
    de.size = size ∧ ∀ path, s.volMounted = true → Leads s path a →
      (fat32Readdir path).Answers s ((pre ++ post).length, pre ++ post) ∧
      (fat32Readdir path).Answers s' ((pre ++ de :: post).length, pre ++ de :: post)

/-- No lookup and no listing tells the states apart. -/
structure NamesKept (s s' : Drv) (a : Nat) : Prop where
  find : ∀ nm r, (dirFind a nm).Answers s' r ↔ (dirFind a nm).Answers s r
  readdir : ∀ path r, (fat32Readdir path).Answers s' r ↔ (fat32Readdir path).Answers s r

theorem answers_congr {x : Prog Drv α} {s s' : Drv} {a : α} (h : x.Answers s a)
    (h' : x.Answers s' a) (r : α) : x.Answers s' r ↔ x.Answers s r :=
  ⟨fun hr => h'.det hr ▸ h, fun hr => h.det hr ▸ h'⟩

/-- What a rule for `x` says about its answer. -/
theorem Holds.answers {x : Prog Drv α} {a : α} {s : Drv} (hs : s.Ready)
    (hw : s.toStore.Shows w) (h : Holds (x >>= Pure.pure) (fun b _ => b = a) w) :
    x.Answers s a := by
  rw [bind_pure] at h
  refine wp.answers ((h.wp hs hw).mono ?_)
  rintro b s' ⟨-, -, -, hb⟩
  exact hb

theorem View.Lists.answers_find {s : Drv} {a : Nat} {xs : List Nat} (hl : w.Lists a xs l)
    (hs : s.Ready) (hw : s.toStore.Shows w) :
    (dirFind a nm).Answers s (l.found w.vol xs nm) :=
  Holds.answers hs hw (Holds.dirFind hl (Holds.pure rfl))

theorem View.Layout.answers_readdir {s : Drv} (h : w.Layout ch D T) (hs : s.Ready)
    (hw : s.toStore.Shows w) : (fat32Readdir path).Answers s (readdirPath w ch D path) :=
  Holds.answers hs hw (Holds.fat32Readdir h (Holds.pure rfl))

theorem View.Layout.answers_stat {s : Drv} (h : w.Layout ch D T) (hs : s.Ready)
    (hw : s.toStore.Shows w) (path : CStr) :
    (pathStat path).Answers s (statPath w.vol ch D path) :=
  Holds.answers hs hw (Holds.pathStat h (Holds.pure rfl))

theorem View.Layout.answers_parent {s : Drv} (h : w.Layout ch D T) (hs : s.Ready)
    (hw : s.toStore.Shows w) (path : CStr) :
    (pathResolveParent path).Answers s (resolveParent w.vol D path) :=
  Holds.answers hs hw (Holds.pathResolveParent h (Holds.pure rfl))

theorem View.Layout.namesKept {s s' : Drv} {d : Dir} (h : w.Layout ch D T) (hd : d ∈ D)
    (hs : s.Ready) (hs' : s'.Ready) (hw : s.toStore.Shows w) (hw' : s'.toStore.Shows w) :
    NamesKept s s' d.start :=
  ⟨fun _ => answers_congr ((h.lists hd).answers_find hs hw) ((h.lists hd).answers_find hs' hw'),
    fun _ => answers_congr (h.answers_readdir hs hw) (h.answers_readdir hs' hw')⟩

theorem View.Layout.leads {s : Drv} {a : Nat} (h : w.Layout ch D T) (hs : s.Ready)
    (hw : s.toStore.Shows w) (hp : Leads s path a) :
    ∃ p, statPath w.vol ch D path = some p ∧ p.entry.isDir = true ∧
      w.vol.dirTarget p.entry = a := by
  obtain ⟨p, hstat, hdir, ha⟩ := hp
  exact ⟨p, (h.answers_stat hs hw path).det hstat, hdir, hw.vol ▸ ha⟩

/-- The answers of a directory whose listing got an entry under a name that it
did not know. -/
theorem View.Layout.nameAdded {s s' : Drv} {a : Nat} {attr : UInt8} {cluster size : Nat}
    (h : w.Layout ch D T) (hd : ⟨a, l⟩ ∈ D) (hs : s.Ready) (hs' : s'.Ready)
    (hw : s.toStore.Shows w) (hw' : s'.toStore.Shows w')
    (hg : w.Grown (ch a) l w₁ xs' l₁)
    (hins : l₁.Inserted l' i (newPieces l name) (newEntry l name attr cluster size))
    (hv : w'.vol = w₁.vol) (hf : w'.fat = w₁.fat) (hm : w'.mounted = w.mounted)
    (hsec : ∀ y, y ∉ xs' → w'.sec y = w₁.sec y) (hslots : w'.slots xs' = l'.slots)
    (hpos : 1 ≤ name.length) (hlen : name.length ≤ 255) (hz : ∀ c ∈ name, c ≠ 0)
    (hcl : cluster < 4294967296) (hsz : size < 4294967296) (hno : l.find name = none) :
    NameAdded s s' a name attr cluster size := by
  have hsound : w.vol.Sound s.sectors := hw.vol ▸ hw.sound
  have hlist := h.lists hd
  have hcalled : ∀ nm, called nm (newPieces l name) (newEntry l name attr cluster size) =
      sameName nm name := fun nm => called_newPieces hpos hlen hz
  have hnew : ∀ nm, called nm (newPieces l name) (newEntry l name attr cluster size) = true →
      l.find nm = none := by
    intro nm hc
    rw [hcalled] at hc
    exact Listing.find_of_sameName hc hno
  have hstill := stillFinds_inserted h hsound hd hg hins hv hf hsec hslots hnew
  have hlist' : w'.Lists a xs' l' := by
    obtain ⟨hch, -, -⟩ := hg.chains h.chains hsound (h.sound_start hd)
    obtain ⟨hchain, hne⟩ := hch.chain a (h.sound_start hd)
    rw [Function.update_self] at hchain hne
    exact ⟨hchain.of_fat hv fun x _ => by rw [hf], hne, hslots⟩
  have hvol : w'.vol = w.vol := hv.trans hg.vol
  have hfind : ∀ nm, (dirFind a nm).Answers s' (l'.found w.vol xs' nm) :=
    fun nm => hvol ▸ hlist'.answers_find hs' hw'
  refine ⟨fun nm hnm => ?_, fun nm r hnm => ?_, ?_⟩
  · have hgot := hfind nm
    rw [found_inserted hlist hg hins hnew, hcalled, if_pos hnm] at hgot
    exact ⟨_, _, _, hgot, shortEntry_attr, shortEntry_cluster hcl, shortEntry_size hsz⟩
  · have hgot := hfind nm
    rw [found_inserted hlist hg hins hnew, hcalled, if_neg (by simp [hnm])] at hgot
    exact answers_congr (hlist.answers_find hs hw) hgot r
  · obtain ⟨pre, post, hpp, hpost⟩ := hins.listed
    rw [shownName_newPieces hpos hlen hz] at hpost
    have hattr : (newEntry l name attr cluster size).attr = attr := shortEntry_attr
    refine ⟨pre, (newEntry l name attr cluster size).dirent name, post, rfl, hattr,
      shortEntry_cluster hcl, shortEntry_size hsz, fun path hmount hp => ?_⟩
    obtain ⟨p, hstat, hdir, rfl⟩ := h.leads hs hw hp
    rw [hw.mounted] at hmount
    have hl₁ : l.listed = pre ++ post := by
      rw [← hpp]
      unfold Listing.listed
      rw [hg.items]
    constructor
    · have hread : (fat32Readdir path).Answers _ _ := h.answers_readdir hs hw
      rw [readdirPath, hmount, hstat] at hread
      simp only [hdir, Bool.not_true, Bool.false_eq_true, if_false, h.listingOf hd, hl₁] at hread
      exact hread
    · rw [← hpost]
      exact Holds.answers hs' hw' (Holds.fat32Readdir_still h hstill hvol (hm.trans hmount) hstat
        hdir hlist' (Holds.pure rfl))

/-- A name that the directory does not know round trips through `dir_add_entry`;
when the disk is full nothing changes. -/
theorem dirAddEntry_roundTrip {s : Drv} {a : Nat} {attr : UInt8} {cluster size : Nat}
    (hs : s.Ready) (hdir : s.Directory a) (hspc : 2 ≤ s.vol.secPerClus)
    (hpos : 1 ≤ name.length) (hlen : name.length ≤ 255) (hp : Printable name)
    (hattr : attr = 0x20 ∨ attr = 0x10) (hcl : cluster < 4294967296) (hsz : size < 4294967296)
    (hno : (dirFind a name).Answers s none) :
    (dirAddEntry a name attr cluster size).wp (fun r s' => match r with
      | some _ => NameAdded s s' a name attr cluster size
      | none => NamesKept s s' a) s := by
  obtain ⟨w, ch, D, T, hw, h, ⟨a, l⟩, hd, rfl⟩ := hdir
  have hsound : w.vol.Sound s.sectors := hw.vol ▸ hw.sound
  have hlist := h.lists hd
  have hnone : l.find name = none := by
    have hgot := (hlist.answers_find hs hw).det hno
    simpa [Listing.found] using hgot
  have hwp : Holds (dirAddEntry a name attr cluster size >>= Pure.pure) (fun r w' =>
      ∀ s' : Drv, s'.Ready → s'.toStore.Shows w' → match r with
        | some _ => NameAdded s s' a name attr cluster size
        | none => NamesKept s s' a) w := by
    apply Holds.dirAddEntry hlist (hw.vol ▸ hspc) hlen
    · exact fun _ => Holds.pure fun s' hs' hw' => h.namesKept hd hs hs' hw hw'
    · intro w₁ xs' l₁ hg i o hrun
      have hlists := hg.lists hlist hsound
      have hok : (Item.entry (newPieces l name) (newEntry l name attr cluster size)).Ok :=
        newEntry_ok hlen hp.ne_zero (hp.pick83_ne l.has) (by
          rcases hattr with rfl | rfl <;> decide)
      obtain ⟨l', hins, hslots'⟩ := l₁.insert hok (n := lfnCount name + 1)
        (by rw [length_newPieces]) hrun
      have hfit : i + (newPieces l name ++ [newEntry l name attr cluster size]).length ≤
          xs'.length * w₁.vol.perCluster := by
        rw [List.length_append, List.length_singleton, length_newPieces, ← hlists.length_slots]
        exact hrun.le
      have hslots := View.slots_setSlots (hlists.chain.nodup (hg.vol ▸ hsound)) hfit
      rw [hlists.slots, ← hslots'] at hslots
      refine Holds.pure fun s' hs' hw' => ?_
      exact h.nameAdded hd hs hs' hw hw' hg hins View.vol_setSlots View.fat_setSlots
        ((hg.evolves hsound hlist.chain).trans View.evolves_setSlots).mounted
        (fun y hy => View.sec_setSlots hfit hy) hslots hpos hlen hp.ne_zero hcl hsz hnone
  rw [bind_pure] at hwp
  refine (hwp.wp hs hw).mono ?_
  rintro r s' ⟨hs', w', hw', hdone⟩
  exact hdone s' hs' hw'

/-- The name `a` in the root directory of a fresh volume. -/
theorem dirAddEntry_roundTrip_fresh :
    (dirAddEntry 2 [0x61] 0x20 3 7).wp (fun r s' => match r with
      | some _ => NameAdded (fresh 4) s' 2 [0x61] 0x20 3 7
      | none => NamesKept (fresh 4) s' 2) (fresh 4) :=
  have hb := fresh_blank (n := 4) (by omega) (by omega)
  have hroot : (fresh 4).toStore.view.vol.rootCluster = 2 := rfl
  dirAddEntry_roundTrip (fresh_ready (by omega))
    ⟨_, _, _, _, hb.shows, hb.empty.layout, _, List.mem_singleton_self _, rfl⟩ (by decide)
    (by decide) (by decide) (by simp [Printable]) (Or.inl rfl) (by omega) (by omega)
    ((hb.empty.layout.lists (List.mem_singleton_self _)).answers_find (fresh_ready (by omega))
      hb.shows)

end Chimaera.Fat32
