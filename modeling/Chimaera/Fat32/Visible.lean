/-
The short entry that `dir_add_entry` writes, as the scans of a directory see it: its first byte
must not be one that they take for the end of the directory or for a deleted entry.
-/
import Chimaera.Fat32.Storing

namespace Chimaera.Fat32

open Prog

variable {name path : CStr} {n83 : List UInt8} {e : DirEntry} {s s' t t' : Drv}
  {dir cluster size : Nat} {attr : UInt8}

/-- Every scan looks at the entry: `dir_find` finds it by its short name, `dir_83_exists` knows
that name, `fat32_readdir` hands it out, and `walk_dir` validates it and marks its chain. -/
structure DirEntry.Seen (e : DirEntry) : Prop where
  find : ∀ nm st pos, make83 nm = e.name → st.buildingLfn = false →
    dirFindStep nm st pos e = .inr (some (e, pos, pos))
  has : ∀ pos, hasStep e.name () pos e = .inr true
  readdir : ∀ st pos, ∃ nm st', readdirStep st pos e = .inl st' ∧
    st'.out = st.out ++ [e.dirent nm]
  walk : ∀ sub dir total st it t t' d u, (fsckDirIterNext st.it).Runs t (some (e, it)) t' →
    ((walkStep sub dir total st).Runs t d u ↔
      (walkEndRun dir { st with it } e >>= fun st => walkShort sub dir total st e >>= fun st =>
        pure (.inl st)).Runs t' d u)

/-- The first byte of an entry that is neither the end mark nor deleted. -/
def DirEntry.Live (e : DirEntry) : Prop := e.first ≠ 0 ∧ e.first ≠ 0xE5

theorem DirEntry.seen_iff (hlfn : e.isLfn = false) (hdot : e.isDot = false) :
    e.Seen ↔ e.Live := by
  constructor
  · intro h
    have hhas := h.has ⟨0, 0, 0, 0⟩
    unfold hasStep at hhas
    refine ⟨fun h0 => ?_, fun h5 => ?_⟩
    · rw [if_pos h0] at hhas
      cases hhas
    · rw [h5, if_neg (by decide), if_pos (Or.inl rfl)] at hhas
      cases hhas
  · rintro ⟨h0, h5⟩
    refine ⟨fun nm st pos hnm hb => ?_, fun pos => ?_, fun st pos => ?_, ?_⟩
    · simp [dirFindStep, h0, h5, hlfn, hb, hnm]
    · simp [hasStep, h0, h5, hlfn]
    · obtain ⟨nm, hnm⟩ : ∃ nm, nm = if st.buildingLfn && st.lfnBuf 0 != 0 then st.lfnBuf.str
          else e.shortName := ⟨_, rfl⟩
      refine ⟨nm, { st with buildingLfn := false, out := st.out ++ [e.dirent nm] }, ?_, rfl⟩
      simp only [readdirStep, h0, h5, hlfn, hdot, if_false, Bool.false_eq_true, hnm]
    · intro sub dir total st it t t' d u hr
      rw [walkStep, hr.bind_iff]
      simp [h0, h5, hlfn]

/-- The first byte of a name, before its last dot, that `make_83` keeps. -/
def firstKept (name : CStr) : Option UInt8 :=
  (splitDot name).1.find? fun c => c != 0x20 && c != 0x2E

theorem fToupper_eq_space {c : UInt8} : fToupper c = 0x20 ↔ c = 0x20 := by
  rw [← UInt8.toNat_inj, ← UInt8.toNat_inj, toNat_fToupper]
  have hspace : (0x20 : UInt8).toNat = 32 := rfl
  rw [hspace]
  split <;> omega

theorem head_stem83 (name : CStr) : (stem83 name 8).head? = (firstKept name).map fToupper := by
  have hp : ((fun c : UInt8 => c != 0x20 && c != 0x2E) ∘ fToupper) =
      fun c => c != 0x20 && c != 0x2E := by
    funext c
    rw [Function.comp_apply, Bool.eq_iff_iff]
    simp only [Bool.and_eq_true, bne_iff_ne, ne_eq, fToupper_eq_dot, fToupper_eq_space]
  rw [stem83, List.head?_take, if_neg (by omega), List.head?_filter, List.find?_map, hp, firstKept]

/-- `make_83_unique` answers the plain short name or one with a numeric tail. -/
theorem runs_make83Unique (h : (make83Unique dir name).Runs s n83 s') :
    n83 = make83 name ∨ ∃ n, n < 10000 ∧ n83 = make83Tail name n := by
  obtain ⟨b, s₁, -, hrest⟩ := runs_bind.mp h
  cases b with
  | false => exact Or.inl (runs_pure.mp hrest).1
  | true =>
      obtain ⟨o, s₂, hloop, hend⟩ := runs_bind.mp hrest
      cases o with
      | none => exact Or.inl (runs_pure.mp hend).1
      | some r =>
          obtain ⟨m, s₃, hm, -, hround, -⟩ := runs_forUntil_find (fun _ _ _ hr => hr) hloop
          obtain ⟨b, s₄, -, hr⟩ := runs_bind.mp hround
          refine Or.inr ⟨1 + m, by omega, (runs_pure.mp hend).1.trans ?_⟩
          cases b with
          | true => cases (runs_pure.mp hr).1
          | false => exact Option.some.inj (runs_pure.mp hr).1

/-- Both begin with the first byte that is kept, in upper case, or with one of their own. -/
theorem first_make83Unique (h : (make83Unique dir name).Runs s n83 s') : n83.length = 11 ∧
    ((∃ c, firstKept name = some c ∧ n83.getD 0 0 = fToupper c) ∨
      firstKept name = none ∧ (n83.getD 0 0 = 0x20 ∨ n83.getD 0 0 = 0x7E)) := by
  have hhead := head_stem83 name
  have hfirst : n83.getD 0 0 = (stem83 name 8).headD 0x20 ∨
      n83.getD 0 0 = (stem83 name 8).headD 0x7E := by
    rcases runs_make83Unique h with rfl | ⟨n, hn, rfl⟩
    · exact Or.inl (getD_make83 name)
    · exact Or.inr (getD_make83Tail name hn)
  have hlen : n83.length = 11 := by
    rcases runs_make83Unique h with rfl | ⟨n, hn, rfl⟩
    · exact length_make83 name
    · exact length_make83Tail name hn
  refine ⟨hlen, ?_⟩
  rw [List.headD_eq_head?_getD, List.headD_eq_head?_getD, hhead] at hfirst
  cases hk : firstKept name with
  | none =>
      rw [hk] at hfirst
      exact Or.inr ⟨rfl, hfirst⟩
  | some c =>
      rw [hk] at hfirst
      exact Or.inl ⟨c, rfl, hfirst.elim id id⟩

/-- Every 8.3 entry that `dir_add_entry` comes to write for the name is seen, whatever the
directory. -/
def AddsSeen (name : CStr) : Prop :=
  ∀ dir attr cluster size s n83 s', attr ≠ 0x0F → (make83Unique dir name).Runs s n83 s' →
    (shortEntry n83 attr cluster size).Seen

/-- A path to a new file of that name, whose slots have room, leads to its cluster once
`fat32_open` has created it, and no cluster of the volume is orphaned. -/
def FindsCreated (name : CStr) : Prop :=
  ∀ t path dir fd t', t.Ready → t.Consistent → (∀ c ∈ path, c ≠ 0) → t.SlotsFit path →
    (pathResolveParent path).Answers t (dir, name) → (pathStat path).Answers t none →
    (fat32Open path true).Runs t fd t' → 0 ≤ fd → t'.Consistent ∧
      ∃ p, (pathStat path).Answers t' (some p) ∧ p.entry.Seen ∧
        p.entry.cluster = (t'.fds fd.toNat).cluster

theorem seen_shortEntry_iff (hz : ∀ c ∈ name, c ≠ 0) (hattr : attr ≠ 0x0F)
    (h : (make83Unique dir name).Runs s n83 s') :
    (shortEntry n83 attr cluster size).Seen ↔ firstKept name ≠ some 0xE5 := by
  obtain ⟨hlen, hfirst⟩ := first_make83Unique h
  have hbyte : (shortEntry n83 attr cluster size).byte 0 = n83.getD 0 0 :=
    shortEntry_byte (by omega) hlen
  have hlfn : (shortEntry n83 attr cluster size).isLfn = false := by
    rw [DirEntry.isLfn, shortEntry_attr]
    simpa using hattr
  have hdot : (shortEntry n83 attr cluster size).isDot = false := by
    have hne : n83.getD 0 0 ≠ 0x2E := by
      rcases hfirst with ⟨c, hc, heq⟩ | ⟨-, heq | heq⟩
      · have hp := List.find?_some hc
        rw [heq, Ne, fToupper_eq_dot]
        rintro rfl
        exact absurd hp (by decide)
      · rw [heq]
        decide
      · rw [heq]
        decide
    rw [DirEntry.isDot, hbyte, beq_false_of_ne hne, Bool.false_and]
  rw [DirEntry.seen_iff hlfn hdot, DirEntry.Live, DirEntry.first, hbyte]
  rcases hfirst with ⟨c, hc, heq⟩ | ⟨hnone, heq⟩
  · have hmem : c ∈ name := mem_of_mem_splitDot (List.mem_of_find?_eq_some hc)
    have h5 : fToupper c ≠ 0xE5 ↔ c ≠ 0xE5 := not_congr (fToupper_eq_iff (by decide))
    have hsome : (some c : Option UInt8) ≠ some 0xE5 ↔ c ≠ 0xE5 := not_congr Option.some_inj
    rw [heq, hc, h5, hsome]
    exact and_iff_right (fToupper_ne_zero (hz c hmem))
  · rw [hnone]
    refine iff_of_true ?_ (by simp)
    rcases heq with heq | heq <;> rw [heq] <;> decide

theorem pick83_ne_of_firstKept (h : firstKept name ≠ some 0xE5) (taken : List UInt8 → Bool) :
    (pick83 taken name).getD 0 0 ≠ 0xE5 := by
  apply pick83_ne_of_make83
  rw [getD_make83, List.headD_eq_head?_getD, head_stem83]
  cases hk : firstKept name with
  | none => decide
  | some c =>
      rw [hk, Ne, Option.some_inj] at h
      rw [Option.map_some, Option.getD_some, Ne, fToupper_eq_iff (by decide)]
      exact h

theorem findsCreated (hne : name ≠ []) (hkept : firstKept name ≠ some 0xE5) :
    FindsCreated name := by
  rintro t path dir fd t' ht ⟨w, hw, ch, D, h⟩ hz hfit hpar hnone hrun hfd
  have hres := (h.answers_parent ht hw path).det hpar
  have hstat := (h.answers_stat ht hw path).det hnone
  have hname : (resolveParent w.vol D path).2 = name := by rw [hres]
  have hopen : Holds (fat32Open path true) (fun r w' => ∀ u : Drv, u.Ready → u.toStore.Shows w' →
      0 ≤ r → u.Consistent ∧ ∃ p, (pathStat path).Answers u (some p) ∧ p.entry.Seen ∧
        p.entry.cluster = (u.fds r.toNat).cluster) w := by
    rw [← bind_pure (fat32Open path true)]
    apply Holds.fat32Open_opened h hz
    · intro _ _ l m hd _ _
      exact ⟨(h.slotsFit_iff ht hw hd).mp hfit, hname ▸ pick83_ne_of_firstKept hkept _⟩
    · intro err w' ch' _ _ _ _ _
      exact Holds.pure fun u _ _ h0 => absurd err.code_neg (by omega)
    · intro k w' ch' D' s i run e _ _ _ hlay _ hevo hfds hon hop _ _ _
      refine Holds.pure fun u hu hwu _ => ⟨⟨w', hwu, ch', D', hlay⟩, ?_⟩
      have hpath : PathAt w'.vol D' path s i run e := by
        rw [hevo.vol]
        exact hop.names h hz hon.file (hname ▸ hne)
      have hok : (Item.entry run e).Ok := by
        obtain ⟨d, -, -, hat⟩ := hon.entry
        exact hat.ok
      refine ⟨_, statPath_of_pathAt hlay hpath ▸ hlay.answers_stat hu hwu path, ?_, ?_⟩
      · exact (DirEntry.seen_iff hok.2.2.2.1 hok.2.2.2.2).mpr ⟨hok.2.1, hok.2.2.1⟩
      · rw [hwu.fds, hfds, Int.toNat_natCast, Function.update_self]
        rfl
  exact ((hopen.wp ht hw).of_runs hrun).elim fun hready ⟨w', hw', hgoal⟩ =>
    hgoal t' hready hw' hfd

/-- A short name is chosen in the root directory of a fresh volume. -/
theorem exists_runs_make83Unique (name : CStr) :
    ∃ n83 s', (make83Unique 2 name).Runs (fresh 4) n83 s' := by
  have hpick : Holds (make83Unique 2 name >>= pure) (fun _ _ => True) (fresh 4).toStore.view :=
    Holds.make83Unique (fresh_layout.lists (List.mem_singleton_self _)) (Holds.pure trivial)
  rw [bind_pure] at hpick
  obtain ⟨n83, s', hrun, -⟩ := hpick.wp (fresh_ready (by omega)) fresh_shows
  exact ⟨n83, s', hrun⟩

/-- A new entry is seen by all scans, and leads to its file, if and only if the first byte of the
name that `make_83` keeps is not the mark of deleted entries. -/
theorem newEntry_seen_iff (hne : name ≠ []) (hz : ∀ c ∈ name, c ≠ 0) :
    AddsSeen name ∧ FindsCreated name ↔ firstKept name ≠ some 0xE5 := by
  constructor
  · rintro ⟨hadds, -⟩
    obtain ⟨n83, s', hrun⟩ := exists_runs_make83Unique name
    have hattr : (0x20 : UInt8) ≠ 0x0F := by decide
    exact (seen_shortEntry_iff hz hattr hrun).mp (hadds 2 0x20 0 0 (fresh 4) n83 s' hattr hrun)
  · intro hkept
    exact ⟨fun dir attr cluster size s n83 s' hattr h => (seen_shortEntry_iff hz hattr h).mpr hkept,
      findsCreated hne hkept⟩

theorem newEntry_seen_iff_letter : AddsSeen [0x41] ∧ FindsCreated [0x41] ↔
    firstKept [0x41] ≠ some 0xE5 :=
  newEntry_seen_iff (by decide) (by simp)

/-- On a fresh volume `fat32_open` creates a file with the name E5h, which is then not found. -/
theorem not_newEntry_seen : (fresh 4).Ready ∧ (fresh 4).Consistent ∧ ¬ AddsSeen [0xE5] ∧
    (∃ t, (fat32Open [0x2F, 0xE5] true).Runs (fresh 4) 0 t ∧ t.fat 3 = 0x0FFFFFFF ∧
      (pathStat [0x2F, 0xE5]).Answers t none) ∧ ¬ FindsCreated [0xE5] := by
  have ht : (fresh 4).Ready := fresh_ready (by omega)
  have hc : (fresh 4).Consistent := ⟨_, fresh_shows, _, _, fresh_layout⟩
  have hparent : ((pathResolveParent [0x2F, 0xE5]).run 3 (fresh 4)).map (fun p => p.1) =
      some (2, [0xE5]) := by decide +kernel
  have hbefore : ((pathStat [0x2F, 0xE5]).run 3 (fresh 4)).map (fun p => p.1.isNone) =
      some true := by decide +kernel
  have hcreate : ((fat32Open [0x2F, 0xE5] true >>= fun fd =>
      asks (fun s => s.toStore.fat 3) >>= fun x => pathStat [0x2F, 0xE5] >>= fun r =>
        pure (fd, x, r.isNone)).run 6 (fresh 4)).map (fun p => p.1) =
      some (0, 0x0FFFFFFF, true) := by decide +kernel
  obtain ⟨⟨r, t₀⟩, hr, rfl⟩ := Option.map_eq_some_iff.mp hparent
  obtain ⟨⟨o, t₁⟩, ho, hnone⟩ := Option.map_eq_some_iff.mp hbefore
  obtain rfl : o = none := Option.isNone_iff_eq_none.mp hnone
  obtain ⟨⟨r, t₂⟩, hrun, hall⟩ := Option.map_eq_some_iff.mp hcreate
  obtain ⟨fd, t, hopen, hrest⟩ := runs_bind.mp ⟨6, hrun⟩
  obtain ⟨x, t₃, hread, hrest⟩ := runs_bind.mp hrest
  obtain ⟨rfl, rfl⟩ := runs_asks.mp hread
  obtain ⟨o, t₄, hstat, hend⟩ := runs_bind.mp hrest
  rw [(runs_pure.mp hend).1, Prod.mk.injEq, Prod.mk.injEq] at hall
  obtain ⟨rfl, hfat, hmissing⟩ := hall
  obtain rfl : o = none := Option.isNone_iff_eq_none.mp hmissing
  refine ⟨ht, hc, fun hadds => ?_, ⟨t₃, hopen, hfat, t₄, hstat⟩, fun hfinds => ?_⟩
  · obtain ⟨n83, s', hpick⟩ := exists_runs_make83Unique [0xE5]
    have hattr : (0x20 : UInt8) ≠ 0x0F := by decide
    have hseen := hadds 2 0x20 0 0 (fresh 4) n83 s' hattr hpick
    exact (seen_shortEntry_iff (by simp) hattr hpick).mp hseen (by decide)
  · have hfit : (fresh 4).SlotsFit [0x2F, 0xE5] := by
      intro r xs hr' _
      obtain rfl := Answers.det ⟨t₀, 3, hr⟩ hr'
      exact roomFor_of_le (by decide)
    obtain ⟨-, p, hp, -⟩ := hfinds (fresh 4) [0x2F, 0xE5] 2 0 t₃ ht hc (by simp) hfit
      ⟨t₀, 3, hr⟩ ⟨t₁, 3, ho⟩ hopen (Int.le_refl 0)
    cases hp.det ⟨t₄, hstat⟩

end Chimaera.Fat32
