/-
`fat32_rename` copies the file and removes the source, which is the only copy when both
paths name one entry.
-/
import Chimaera.Fat32.Consistency
import Chimaera.Fat32.Lookups

namespace Chimaera.Fat32

open Prog

variable {R : Int → View → Prop} {w w' : View} {ch ch' : Nat → List Nat} {D D' D₂ : List Dir}
  {T : List Nat} {l l' m m' : Listing} {run r : List DirEntry} {e x y z : DirEntry}
  {a s t i j k n : Nat} {v : Vol} {src dst path q nm : CStr} {bs : List UInt8} {u : Drv}

/-- Whatever the loop copies, the destination is refilled once both descriptors are closed. -/
theorem Feeding.refilled {sf df : Nat} (h : Feeding w ch D sf df s j run e D' T w' ch')
    (hop : Opened w ch D dst D' s j run e) (hsf : sf < 16) (hdf : df < 16) (hne : sf ≠ df)
    (hok : ∀ w₃ ch₃ D₃ y, w₃.Layout ch₃ D₃ T → Refilled w ch D dst s j run y w₃ ch₃ D₃ →
      w.Evolves w₃ → R 0 w₃) :
    Holds (do
      Prog.loop (copyStep sf df) ()
      Fat32.fat32Close sf
      Fat32.fat32Close df
      Pure.pure 0) R w' :=
  h.closes hsf hdf hne fun w₃ ch₃ _ _ _ hd hup hlay₃ hkept₃ hevo₃ =>
    hok w₃ ch₃ _ _ hlay₃ ⟨hop, h.layout.tree.nodup, h.openOn.file, hd, hup,
      fun _ hb => byte_stored hb, hkept₃, hevo₃.vol⟩ hevo₃

/-- The copy loop reads clusters that the open has freed: the file is still there at its
place, but what it holds is not told. -/
theorem Holds.fat32Copy_same (h : w.Layout ch D T) (hz : ∀ c ∈ dst, c ≠ 0)
    (hsrc : PathAt w.vol D src a i r x) (hfile : x.isDir = false)
    (hsame : PathAt w.vol D dst a i r x)
    (herr : ∀ (err : Err) w' ch', (Admits w ch D dst true → w.TwoFree →
      (resolveParent w.vol D dst).1 ≠ 0 → ∀ n, w.Room ch D dst n → n = 0) →
      w'.Layout ch' D T → Kept (fun _ _ => False) w ch D w' ch' D → w'.vol = w.vol →
      R err.code w')
    (hok : ∀ n w' ch' D' y, Admits w ch D dst true → w.TwoFree →
      (resolveParent w.vol D dst).1 ≠ 0 → w.Room ch D dst n → n ≠ 0 → w'.Layout ch' D' T →
      Refilled w ch D dst a i r y w' ch' D' → w.Evolves w' → R 0 w') :
    Holds (Fat32.fat32Copy src dst) R w := by
  have hstat := statPath_of_pathAt h hsame
  apply Holds.fat32Copy_opens h hz (fun _ _ hno => by rw [hstat] at hno; cases hno) hsrc hfile herr
  intro sf df w' ch' D' s j run e hadmits htwo hsf hdf hne hlay hkept hevo _ hread hfdf ho hop _ _
    hroom
  obtain ⟨rfl, rfl, rfl⟩ : s = a ∧ j = i ∧ run = r := by
    cases hop with
    | existing l l' x₀ hp hd hup hb hD =>
        obtain ⟨hs, hj, hr, -⟩ := hp.unique hsame h.tree.nodup
        exact ⟨hs, hj, hr⟩
    | created l l' o k hp hs hd hrun he hins hi hD =>
        rw [hstat] at hp
        cases hp
  have hfeed : Feeding w ch D sf df s j run e D' T w' ch' :=
    ⟨hlay, hread, by rw [hfdf]; exact ho, hkept, hevo⟩
  exact hfeed.refilled hop hsf hdf hne fun w₃ ch₃ D₃ y =>
    hok (1 + w'.freeCount) w₃ ch₃ D₃ y hadmits htwo (hop.parent_ne h) hroom (by omega)

namespace Refilled

theorem entryAt_iff (hr : Refilled w ch D path s i run x w' ch' D') (h : w.Layout ch D T) :
    EntryAt D' t j r z ↔
      (EntryAt D t j r z ∧ ¬ (t = s ∧ j = i)) ∨ (t = s ∧ j = i ∧ r = run ∧ z = x) := by
  obtain ⟨ho, hnd, -, hd, hup, -, -, -⟩ := hr
  rw [entryAt_updated hnd hd hup]
  refine or_congr_left (and_congr_left fun hne => ?_)
  cases ho with
  | existing m m' x₀ hp hd₀ hup₀ hb₀ hD =>
      subst hD
      rw [entryAt_updated h.tree.nodup hd₀ hup₀]
      tauto
  | created m m' o k hp hs hd₀ hrun he hins hi hD =>
      subst hD hi
      rw [entryAt_inserted h.tree.nodup hd₀ hins]
      tauto

/-- Names that an entry answered to are answered by the same places. -/
theorem calls_iff (hr : Refilled w ch D path s i run x w' ch' D') (h : w.Layout ch D T)
    (hz : ∀ c ∈ path, c ≠ 0) (hnm : (resolveParent w.vol D path).2 ≠ [])
    (hcalls : Calls D t nm k) : Calls D' t nm j ↔ Calls D t nm j := by
  have hiff := fun r z => hr.entryAt_iff h (t := t) (j := j) (r := r) (z := z)
  obtain ⟨ho, -, -, -, -, hb, -, -⟩ := hr
  have hplace : t = s → j = i → (called nm run x = true ↔ Calls D s nm i) := by
    rintro rfl rfl
    rw [called_congr hb]
    cases ho with
    | existing m m' x₀ hp hd₀ hup₀ hb₀ hD =>
        rw [called_congr hb₀]
        refine ⟨fun hc => ⟨run, x₀, hp.entryAt, hc⟩, ?_⟩
        rintro ⟨r, z, hat, hc⟩
        obtain ⟨rfl, rfl⟩ := ((Fat32.entryAt_iff h.tree.nodup hd₀).mp hat).unique
          ((Fat32.entryAt_iff h.tree.nodup hd₀).mp hp.entryAt)
        exact hc
    | created m m' o p hp hs hd₀ hrun he hins hi hD =>
        subst hs hrun hi
        constructor
        · intro hc
          exact absurd hcalls
            (not_calls h.tree.nodup hd₀ ((called_created h hz hp hd₀ hnm nm).2 hc))
        · rintro ⟨r, z, hat, -⟩
          exact absurd ((Fat32.entryAt_iff h.tree.nodup hd₀).mp hat) hins.not_at
  unfold Calls
  simp only [hiff]
  by_cases hsi : t = s ∧ j = i
  · obtain ⟨rfl, rfl⟩ := hsi
    rw [← Calls, ← hplace rfl rfl]
    simp
  · constructor
    · rintro ⟨r, z, ⟨hat, -⟩ | ⟨rfl, rfl, -⟩, hc⟩
      · exact ⟨r, z, hat, hc⟩
      · exact absurd ⟨rfl, rfl⟩ hsi
    · rintro ⟨r, z, hat, hc⟩
      exact ⟨r, z, Or.inl ⟨hat, hsi⟩, hc⟩

theorem resolveParent (hr : Refilled w ch D path s i run x w' ch' D') (h : w.Layout ch D T)
    (hz : ∀ c ∈ path, c ≠ 0) (hnm : (Fat32.resolveParent w.vol D path).2 ≠ []) (q : CStr) :
    Fat32.resolveParent w.vol D' q = Fat32.resolveParent w.vol D q := by
  obtain ⟨ho, hnd, hfile, hd, hup, hb, -, -⟩ := hr
  rw [resolveParent_setListing w.vol q hnd hd fun nm => hup.subdir hb hfile]
  cases ho with
  | existing m m' x₀ hp hd₀ hup₀ hb₀ hD =>
      subst hD
      exact resolveParent_setListing w.vol q h.tree.nodup hd₀ fun nm =>
        hup₀.subdir hb₀ ((DirEntry.isDir_congr hb₀).symm.trans hfile)
  | created m m' o k hp hs hd₀ hrun he hins hi hD =>
      subst hD hs hrun
      exact resolveParent_setListing w.vol q h.tree.nodup hd₀ fun nm =>
        hins.subdir hfile (called_created h hz hp hd₀ hnm nm).2

theorem names (hr : Refilled w ch D path s i run x w' ch' D') (h : w.Layout ch D T)
    (hz : ∀ c ∈ path, c ≠ 0) (hnm : (Fat32.resolveParent w.vol D path).2 ≠ []) :
    PathAt w.vol D' path s i run x ∧ x.isDir = false := by
  obtain ⟨ho, hnd, hfile, hd, hup, hb, -, -⟩ := hr
  exact ⟨(ho.names h hz hfile hnm).updated hnd hd hup hb hfile,
    (DirEntry.isDir_congr hb).trans hfile⟩

/-- A path whose name was answered denotes what it denoted. -/
theorem denotes_iff {o : Nat} (hr : Refilled w ch D path s i run x w' ch' D')
    (h : w.Layout ch D T) (h' : w'.Layout ch' D' T) (hz : ∀ c ∈ path, c ≠ 0)
    (hnm : (Fat32.resolveParent w.vol D path).2 ≠ [])
    (hcalls : Calls D (Fat32.resolveParent w.vol D q).1 (Fat32.resolveParent w.vol D q).2 o) :
    Denotes w.vol D' q t j ↔ Denotes w.vol D q t j := by
  rw [Fat32.denotes_iff h'.tree.nodup, Fat32.denotes_iff h.tree.nodup, hr.resolveParent h hz hnm q]
  refine and_congr_right ?_
  rintro rfl
  simp only [hr.calls_iff h hz hnm hcalls]

/-- The source is still there after the copy. -/
theorem pathAt_src (hr : Refilled w ch D path s i run x w' ch' D') (h : w.Layout ch D T)
    (h' : w'.Layout ch' D' T) (hz : ∀ c ∈ path, c ≠ 0)
    (hnm : (Fat32.resolveParent w.vol D path).2 ≠ []) (hp : PathAt w.vol D src a k r y)
    (hfile : y.isDir = false) : ∃ z, PathAt w.vol D' src a k r z ∧ z.isDir = false := by
  obtain ⟨r', z, hz'⟩ := (hr.denotes_iff h h' hz hnm (hp.calls h.tree.nodup)).mpr ⟨r, y, hp⟩
  rcases (hr.entryAt_iff h).mp hz'.entryAt with ⟨hold, -⟩ | ⟨rfl, rfl, rfl, rfl⟩
  · obtain ⟨rfl, rfl⟩ := hold.unique h.tree.nodup hp.entryAt
    exact ⟨z, hz', hfile⟩
  · have hfile' := (hr.names h hz hnm).2
    obtain ⟨ho, -⟩ := hr
    cases ho with
    | existing b b' x₀ hq hd₀ hup₀ hb₀ hD =>
        obtain ⟨rfl, -⟩ := hp.entryAt.unique h.tree.nodup hq.entryAt
        exact ⟨z, hz', hfile'⟩
    | created b b' o c hq hs hd₀ hrun he hins hi hD =>
        subst hi
        exact absurd ((Fat32.entryAt_iff h.tree.nodup hd₀).mp hp.entryAt) hins.not_at

section Removal

variable (hr : Refilled w ch D path s i run x w' ch' D') (h : w.Layout ch D T)
  (h' : w'.Layout ch' D' T) (hz : ∀ c ∈ path, c ≠ 0)
  (hnm : (Fat32.resolveParent w.vol D path).2 ≠ [])
  (hd : ⟨a, l⟩ ∈ D) (hdel : l.Deleted l' k r y) (hat : l.At k r y) (hfile : y.isDir = false)
  (hd₂ : ⟨a, m⟩ ∈ D') (hdel₂ : m.Deleted m' k r z) (hat₂ : m.At k r z) (hfile₂ : z.isDir = false)

include hr h h' hz hnm hd hdel hat hfile hd₂ hdel₂ hat₂ hfile₂

/-- A path whose name was answered denotes the same place without the entry in slot `k`,
whether the other file was stored before or not. -/
theorem denotes_deleted {o : Nat} (hpar : (Fat32.resolveParent w.vol D q).1 ≠ 0)
    (hcalls : Calls D (Fat32.resolveParent w.vol D q).1 (Fat32.resolveParent w.vol D q).2 o) :
    Denotes w.vol (setListing D' a m') q t j ↔ Denotes w.vol (setListing D a l') q t j := by
  have hsame := hr.resolveParent h hz hnm q
  rw [Fat32.denotes_deleted h'.tree.nodup hd₂ hdel₂ hat₂ hfile₂ (by rwa [hsame]),
    Fat32.denotes_deleted h.tree.nodup hd hdel hat hfile hpar, hsame]
  refine and_congr_right ?_
  rintro rfl
  simp only [hr.calls_iff h hz hnm hcalls]

theorem denotes_src (hsrc : PathAt w.vol D src a k r y) :
    Denotes w.vol (setListing D' a m') src t j ↔ Denotes w.vol (setListing D a l') src t j :=
  hr.denotes_deleted h h' hz hnm hd hdel hat hfile hd₂ hdel₂ hat₂ hfile₂ (hsrc.parent_ne h)
    (hsrc.calls h.tree.nodup)

/-- The source's path covers no more than the destination's after the copy exactly if it did
so before. -/
theorem covers_deleted (hsrc : PathAt w.vol D src a k r y) (hne : ¬ (s = a ∧ i = k)) :
    (∀ t j, Denotes w.vol (setListing D' a m') src t j →
      Denotes w.vol (setListing D' a m') path t j) ↔
    ∀ t j, Denotes w.vol (setListing D a l') src t j →
      Denotes w.vol (setListing D a l') path t j := by
  have hto : PathAt w.vol (setListing D' a m') path s i run x := by
    have hp := (hr.names h hz hnm).1
    refine hp.deleted h'.tree.nodup hd₂ hdel₂ hat₂ hfile₂ ?_ hne
    obtain ⟨b, o, hb, hs, -⟩ := hp
    rw [hs]
    exact h'.start_ne_zero hb
  have hnd₂ : ((setListing D' a m').map Dir.start).Nodup := by
    rw [map_start_setListing]
    exact h'.tree.nodup
  have hnd₀ : ((setListing D a l').map Dir.start).Nodup := by
    rw [map_start_setListing]
    exact h.tree.nodup
  refine forall_congr' fun t => forall_congr' fun j => ?_
  rw [hr.denotes_src h h' hz hnm hd hdel hat hfile hd₂ hdel₂ hat₂ hfile₂ hsrc]
  refine imp_congr_right fun hden => ?_
  obtain ⟨ho, -⟩ := hr
  have hpar := ho.parent_ne h
  constructor
  · rintro ⟨r', z', hq⟩
    obtain ⟨rfl, rfl, -, -⟩ := hq.unique hto hnd₂
    obtain ⟨r'', z'', hq'⟩ := hden
    have hold := ((entryAt_deleted h.tree.nodup hd hdel).mp hq'.entryAt).1
    exact ⟨r'', z'', (ho.pathAt h hold).deleted h.tree.nodup hd hdel hat hfile hpar hne⟩
  · rintro ⟨r', z', hq⟩
    cases ho with
    | existing b b' x₀ hp hd₀ hup₀ hb₀ hD =>
        have hold := hp.deleted h.tree.nodup hd hdel hat hfile hpar hne
        obtain ⟨rfl, rfl, -, -⟩ := hq.unique hold hnd₀
        exact ⟨run, x, hto⟩
    | created b b' o c hp hs hd₀ hrun he hins hi hD =>
        obtain ⟨hs', -, hentry, hcall, -⟩ := (pathAt_iff hnd₀).mp hq
        rw [resolveParent_deleted h.tree.nodup hd hdel hat hfile hpar] at hs' hcall
        have hold := ((entryAt_deleted h.tree.nodup hd hdel).mp hentry).1
        exact absurd ⟨r', z', hs' ▸ hold, hcall⟩ (not_calls_of_statPath h hp hpar hnm)

end Removal

/-- With both paths on one entry, nothing is left of it. -/
theorem fileIs_deleted {w₀ w₂ : View} {o : Nat} (hr : Refilled w ch D path a k r x w' ch' D')
    (h : w.Layout ch D T) (h' : w'.Layout ch' D' T) (hz : ∀ c ∈ path, c ≠ 0)
    (hnm : (Fat32.resolveParent w.vol D path).2 ≠ [])
    (hd : ⟨a, l⟩ ∈ D) (hdel : l.Deleted l' k r y) (hat : l.At k r y) (hfile : y.isDir = false)
    (hd₂ : ⟨a, m⟩ ∈ D') (hdel₂ : m.Deleted m' k r z) (hat₂ : m.At k r z)
    (hfile₂ : z.isDir = false) (hpar : (Fat32.resolveParent w.vol D q).1 ≠ 0)
    (hcalls : Calls D (Fat32.resolveParent w.vol D q).1 (Fat32.resolveParent w.vol D q).2 o)
    (hk₀ : Kept (fun t j => t = a ∧ j = k) w ch D w₀ ch (setListing D a l'))
    (hk₂ : Kept (fun t j => t = a ∧ j = k) w ch D w₂ ch' (setListing D' a m'))
    (hv₀ : w₀.vol = w.vol) (hv₂ : w₂.vol = w.vol) :
    w₂.FileIs ch' (setListing D' a m') q bs ↔ w₀.FileIs ch (setListing D a l') q bs := by
  have hden := fun t j => hr.denotes_deleted h h' hz hnm hd hdel hat hfile hd₂ hdel₂ hat₂ hfile₂
    (t := t) (j := j) hpar hcalls
  have hentry : ∀ t j r z, EntryAt (setListing D' a m') t j r z ↔
      EntryAt (setListing D a l') t j r z := by
    intro t j r z
    rw [entryAt_deleted h'.tree.nodup hd₂ hdel₂, entryAt_deleted h.tree.nodup hd hdel,
      hr.entryAt_iff h]
    tauto
  have hsame : ∀ t j r z, EntryAt (setListing D a l') t j r z → z.isDir = false →
      w₂.content ch' z = w₀.content ch z := by
    intro t j r z he hz'
    obtain ⟨hold, hne⟩ := (entryAt_deleted h.tree.nodup hd hdel).mp he
    rw [h.content_kept hk₂ hv₂ hold hne hz', h.content_kept hk₀ hv₀ hold hne hz']
  have hnd₂ : ((setListing D' a m').map Dir.start).Nodup := by
    rw [map_start_setListing]
    exact h'.tree.nodup
  have hnd₀ : ((setListing D a l').map Dir.start).Nodup := by
    rw [map_start_setListing]
    exact h.tree.nodup
  unfold View.FileIs
  rw [hv₀, hv₂]
  constructor
  · rintro ⟨t, j, r', e', hp, hfe, hcontent⟩
    obtain ⟨r'', e'', hp₀⟩ := (hden t j).mp ⟨r', e', hp⟩
    have he := (hentry t j r' e').mp hp.entryAt
    obtain ⟨rfl, rfl⟩ := he.unique hnd₀ hp₀.entryAt
    exact ⟨t, j, r', e', hp₀, hfe, hsame t j r' e' he hfe ▸ hcontent⟩
  · rintro ⟨t, j, r', e', hp, hfe, hcontent⟩
    obtain ⟨r'', e'', hp₂⟩ := (hden t j).mpr ⟨r', e', hp⟩
    have he := (hentry t j r' e').mpr hp.entryAt
    obtain ⟨rfl, rfl⟩ := he.unique hnd₂ hp₂.entryAt
    exact ⟨t, j, r', e', hp₂, hfe, (hsame t j r' e' hp.entryAt hfe).trans hcontent⟩

end Refilled

/-- `fat32_unlink` of a file that is there. -/
theorem Holds.fat32Unlink_file {β : Type} {Q : β → View → Prop} {g : Int → Prog Drv β}
    (h : w.Layout ch D T) (hm : w.mounted = true) (hp : PathAt w.vol D src a i r x)
    (hfile : x.isDir = false)
    (hok : ∀ w' l l', ⟨a, l⟩ ∈ D → l.At i r x → l.Deleted l' i r x →
      w'.Layout ch (setListing D a l') T →
      Kept (fun t k => t = a ∧ k = i) w ch D w' ch (setListing D a l') → w'.vol = w.vol →
      Holds (g 0) Q w') : Holds (Fat32.fat32Unlink src >>= g) Q w := by
  apply Holds.fat32Unlink h
  · intro err hno
    obtain ⟨l, j, hd, hs, hne, hfind, rfl⟩ := hp
    have := hno hm a l j r x hd hs hne hfind
    rw [hfile] at this
    cases this
  · intro s l l' j run e w' hd hs hfind hne _ hdel hlay hkept hevo _
    obtain ⟨rfl, rfl, rfl, rfl⟩ := hp.unique ⟨l, j, hd, hs.symm, hne, hfind, rfl⟩ h.tree.nodup
    exact hok w' l l' hd (Listing.find_at hfind) hdel hlay hkept hevo.vol

/-- What `src` names, `dst` names too. -/
def Drv.Covers (s : Drv) (src dst : CStr) : Prop :=
  ∀ p, (pathStat src).Answers s (some p) → ∃ q, (pathStat dst).Answers s (some q) ∧
    (p.pos.lba, p.pos.off) = (q.pos.lba, q.pos.off)

/-- Success means that `dst` names a file with the content, and `src` no other entry; an
error leaves the content under `src`. -/
def Renames (src dst : CStr) (bs : List UInt8) (r : Int) (s : Drv) : Prop :=
  (r = 0 → s.FileIs dst bs ∧ s.Covers src dst) ∧ (r ≠ 0 → s.FileIs src bs)

/-- Where the destination opens, it has a name that can be stored, everything fits, and
without the entry of `src` that path names nothing but what `dst` names.  If both paths name
one entry, another one with the same content has to be behind it. -/
def Drv.RenameFits (s : Drv) (src dst : CStr) (bs : List UInt8) : Prop :=
  s.Opens dst → s.TwoFree → ∀ n, s.Room dst n → n ≠ 0 → s.Storable dst ∧ s.Named dst ∧
    ∃ s', (fat32Unlink src).Runs s 0 s' ∧ s'.Covers src dst ∧
      (s.Differ src dst → bs.length ≤ n * (s.vol.secPerClus * 512)) ∧
      (¬ s.Differ src dst → s'.FileIs dst bs)

section Answers

variable (h : w.Layout ch D T) (ht : u.Ready) (hw : u.toStore.Shows w)

include h ht hw

theorem View.Layout.answers_pathAt (hp : PathAt w.vol D path s i run e) :
    (pathStat path).Answers u (some ⟨e, posAt w.vol 0 (ch s) i, s⟩) := by
  rw [← statPath_of_pathAt h hp]
  exact h.answers_stat ht hw path

theorem View.Layout.pathAt_of_answers {p : PathInfo} (hroot : path ≠ [0x2F])
    (hp : (pathStat path).Answers u (some p)) :
    ∃ s i run e, PathAt w.vol D path s i run e ∧ p = ⟨e, posAt w.vol 0 (ch s) i, s⟩ :=
  (statPath_some_iff h hroot).mp ((h.answers_stat ht hw path).det hp)

theorem View.Layout.covers_iff (hsrc : src ≠ [0x2F]) (hdst : dst ≠ [0x2F]) :
    u.Covers src dst ↔ ∀ s i, Denotes w.vol D src s i → Denotes w.vol D dst s i := by
  constructor
  · rintro hc s i ⟨r, e, hp⟩
    obtain ⟨p, hq, hplace⟩ := hc _ (h.answers_pathAt ht hw hp)
    obtain ⟨t, j, r', e', hp', rfl⟩ := h.pathAt_of_answers ht hw hdst hq
    obtain ⟨rfl, rfl⟩ := hp.entryAt.place_unique hp'.entryAt h (hw.vol ▸ hw.sound) hplace
    exact ⟨r', e', hp'⟩
  · intro hc p hp
    obtain ⟨s, i, r, e, hp', rfl⟩ := h.pathAt_of_answers ht hw hsrc hp
    obtain ⟨r', e', hq⟩ := hc s i ⟨r, e, hp'⟩
    exact ⟨_, h.answers_pathAt ht hw hq, rfl⟩

theorem View.Layout.differ_iff (hp : PathAt w.vol D src a i r x) (hsrc : src ≠ [0x2F])
    (hdst : dst ≠ [0x2F]) : u.Differ src dst ↔ ¬ Denotes w.vol D dst a i := by
  constructor
  · rintro hdiff ⟨r', e', hq⟩
    exact hdiff _ _ (h.answers_pathAt ht hw hp) (h.answers_pathAt ht hw hq) rfl
  · intro hno p q hp' hq' hplace
    obtain ⟨s, k, r', e', hsp, rfl⟩ := h.pathAt_of_answers ht hw hsrc hp'
    obtain ⟨rfl, rfl, -, -⟩ := hsp.unique hp h.tree.nodup
    obtain ⟨t, j, r'', e'', hq, rfl⟩ := h.pathAt_of_answers ht hw hdst hq'
    obtain ⟨rfl, rfl⟩ := hsp.entryAt.place_unique hq.entryAt h (hw.vol ▸ hw.sound) hplace
    exact hno ⟨r'', e'', hq⟩

end Answers

/-- Removing the source after the copy. -/
theorem Holds.fat32Unlink_refilled (hr : Refilled w ch D dst s j run y w' ch' D')
    (h : w.Layout ch D T) (h' : w'.Layout ch' D' T) (hm : w'.mounted = true)
    (hz : ∀ c ∈ dst, c ≠ 0) (hnm : (resolveParent w.vol D dst).2 ≠ [])
    (hp : PathAt w.vol D src a i r x) (hfile : x.isDir = false)
    (hok : ∀ w₂ m m' z, ⟨a, m⟩ ∈ D' → m.At i r z → m.Deleted m' i r z → z.isDir = false →
      w₂.Layout ch' (setListing D' a m') T →
      Kept (fun t k => t = a ∧ k = i) w' ch' D' w₂ ch' (setListing D' a m') →
      w₂.vol = w.vol → R 0 w₂) : Holds (Fat32.fat32Unlink src) R w' := by
  have hv : w'.vol = w.vol := by
    obtain ⟨-, -, -, -, -, -, -, hv⟩ := hr
    exact hv
  obtain ⟨z, hp', hfile'⟩ := hr.pathAt_src h h' hz hnm hp hfile
  rw [← bind_pure (Fat32.fat32Unlink src)]
  apply Holds.fat32Unlink_file h' hm (hv.symm ▸ hp') hfile'
  intro w₂ m m' hd hat hdel hlay hkept hv₂
  exact Holds.pure (hok w₂ m m' z hd hat hdel hfile' hlay hkept (hv₂.trans hv))

/-- The path of `src` before the call, and the state without its entry. -/
structure Unlinked (w : View) (ch : Nat → List Nat) (D : List Dir) (T : List Nat) (a i : Nat)
    (r : List DirEntry) (x : DirEntry) (l l' : Listing) (w₀ : View) : Prop where
  dir : ⟨a, l⟩ ∈ D
  entry : l.At i r x
  deleted : l.Deleted l' i r x
  layout : w₀.Layout ch (setListing D a l') T
  kept : Kept (fun t k => t = a ∧ k = i) w ch D w₀ ch (setListing D a l')
  vol : w₀.vol = w.vol

theorem exists_unlinked (h : w.Layout ch D T) (ht : u.Ready) (hw : u.toStore.Shows w)
    (hm : w.mounted = true) (hp : PathAt w.vol D src a i r x) (hfile : x.isDir = false) :
    ∃ u₀ w₀ l l', (fat32Unlink src).Runs u 0 u₀ ∧ u₀.Ready ∧ u₀.toStore.Shows w₀ ∧
      Unlinked w ch D T a i r x l l' w₀ := by
  have hrun : Holds (fat32Unlink src >>= Pure.pure) (fun c w₀ => c = 0 ∧ ∃ l l',
      Unlinked w ch D T a i r x l l' w₀) w :=
    Holds.fat32Unlink_file h hm hp hfile fun w' l l' hd hat hdel hlay hkept hv =>
      Holds.pure ⟨rfl, l, l', hd, hat, hdel, hlay, hkept, hv⟩
  rw [bind_pure] at hrun
  obtain ⟨c, u₀, hr, hu₀, w₀, hw₀, rfl, l, l', hun⟩ := hrun.wp ht hw
  exact ⟨u₀, w₀, l, l', hr, hu₀, hw₀, hun⟩

theorem renames_zero : Renames src dst bs 0 u ↔ u.FileIs dst bs ∧ u.Covers src dst :=
  ⟨fun h => h.1 rfl, fun h => ⟨fun _ => h, fun hno => absurd rfl hno⟩⟩

theorem ne_root_of_name (h : (resolveParent v D path).2 ≠ []) : path ≠ [0x2F] := by
  rintro rfl
  rw [resolveParent, resolve, if_pos rfl] at h
  exact h rfl

/-- A file without a name is not found, and what `src` names is removed all the same. -/
theorem Holds.rename_nameless {p : Prop} (h : w'.Layout ch' D' T) (hm : w'.mounted = true)
    (hpar : (resolveParent w'.vol D dst).1 ≠ 0) (hnil : (resolveParent w'.vol D dst).2 = [])
    (hdst : dst ≠ [0x2F]) (hno : ¬ p) :
    Holds (Fat32.fat32Unlink src) (fun c w₂ => ∀ u : Drv, u.Ready → u.toStore.Shows w₂ →
      (Renames src dst bs c u ↔ p)) w' := by
  rw [← bind_pure (Fat32.fat32Unlink src)]
  apply Holds.fat32Unlink h
  · intro err hnofile
    refine Holds.pure fun u hu hw => iff_of_false (fun hren => ?_) hno
    have hneg := err.code_neg
    obtain ⟨s, i, run, e, hp, hfile, -⟩ := (h.fileIs_iff hu hw).mp (hren.2 (by omega))
    obtain ⟨l, j, hd, hs, hne, hfind, -⟩ := hp
    have hdir := hnofile hm s l j run e hd hs hne hfind
    rw [hfile] at hdir
    cases hdir
  · intro s l l' j run e w₂ _ _ _ _ _ _ hlay _ hevo _
    refine Holds.pure fun u hu hw => iff_of_false (fun hren => ?_) hno
    obtain ⟨t, k, r, z, hp, -, -⟩ := (hlay.fileIs_iff hu hw).mp (hren.1 rfl).1
    have hstat := statPath_of_pathAt hlay hp
    rw [hevo.vol, statPath_of_name_nil hpar hnil hdst] at hstat
    cases hstat

section Outcome

variable {p : Prop} {w₀ : View} (h : w.Layout ch D T) (h' : w'.Layout ch' D' T)
  (hm : w'.mounted = true) (hz : ∀ c ∈ dst, c ≠ 0) (hnm : (resolveParent w.vol D dst).2 ≠ [])
  (hp : PathAt w.vol D src a i r x) (hfile : x.isDir = false)
  (hun : Unlinked w ch D T a i r x l l' w₀)

include h h' hm hz hnm hp hfile hun

/-- Two entries: everything has to fit. -/
theorem Holds.rename_other (hr : Refilled w ch D dst s j run y w' ch' D')
    (hne : ¬ (a = s ∧ i = j)) (hcontent : w'.content ch' y = bs.take n)
    (hiff : p ↔ bs.length ≤ n ∧ ∀ t k, Denotes w.vol (setListing D a l') src t k →
      Denotes w.vol (setListing D a l') dst t k) :
    Holds (Fat32.fat32Unlink src) (fun c w₂ => ∀ u : Drv, u.Ready → u.toStore.Shows w₂ →
      (Renames src dst bs c u ↔ p)) w' := by
  have hsrc := ne_root_of_name hp.name_ne
  have hdst := ne_root_of_name hnm
  have hne' : ¬ (s = a ∧ j = i) := fun heq => hne ⟨heq.1.symm, heq.2.symm⟩
  apply Holds.fat32Unlink_refilled hr h h' hm hz hnm hp hfile
  intro w₂ m m' z hd₂ hat₂ hdel₂ hfile₂ hlay₂ hkept₂ hv₂ u hu hw₂
  have hv' : w'.vol = w.vol := by
    obtain ⟨-, -, -, -, -, -, -, hv⟩ := hr
    exact hv
  obtain ⟨hto, htofile⟩ := hr.names h hz hnm
  have hto₂ : PathAt w₂.vol (setListing D' a m') dst s j run y := by
    rw [← hv'] at hto
    rw [hv₂, ← hv']
    exact hto.deleted h'.tree.nodup hd₂ hdel₂ hat₂ hfile₂ (hto.parent_ne h') hne'
  have hcontent₂ : w₂.content ch' y = bs.take n :=
    (h'.content_kept hkept₂ (hv₂.trans hv'.symm) hto.entryAt hne' htofile).trans hcontent
  have hfileIs : w₂.FileIs ch' (setListing D' a m') dst (bs.take n) :=
    ⟨s, j, run, y, hto₂, htofile, hcontent₂⟩
  rw [renames_zero, hlay₂.fileIs_iff hu hw₂, hfileIs.iff hlay₂.tree.nodup, eq_comm,
    List.take_eq_self_iff, hlay₂.covers_iff hu hw₂ hsrc hdst, hv₂, hiff,
    hr.covers_deleted h h' hz hnm hun.dir hun.deleted hun.entry hfile hd₂ hdel₂ hat₂ hfile₂ hp hne']

/-- One entry: what both paths named is removed. -/
theorem Holds.rename_same {u₀ : Drv} (hr : Refilled w ch D dst a i r y w' ch' D')
    (hq : PathAt w.vol D dst a i r x) (hu₀ : u₀.Ready) (hw₀ : u₀.toStore.Shows w₀)
    (hiff : p ↔ u₀.FileIs dst bs ∧ u₀.Covers src dst) :
    Holds (Fat32.fat32Unlink src) (fun c w₂ => ∀ u : Drv, u.Ready → u.toStore.Shows w₂ →
      (Renames src dst bs c u ↔ p)) w' := by
  have hsrc := ne_root_of_name hp.name_ne
  have hdst := ne_root_of_name hnm
  apply Holds.fat32Unlink_refilled hr h h' hm hz hnm hp hfile
  intro w₂ m m' z hd₂ hat₂ hdel₂ hfile₂ hlay₂ hkept₂ hv₂ u hu hw₂
  have hkept : Kept (fun t k => t = a ∧ k = i) w ch D w' ch' D' := by
    obtain ⟨-, -, -, -, -, -, hk, -⟩ := hr
    exact hk
  rw [renames_zero, hiff, hlay₂.fileIs_iff hu hw₂, hun.layout.fileIs_iff hu₀ hw₀,
    hlay₂.covers_iff hu hw₂ hsrc hdst, hun.layout.covers_iff hu₀ hw₀ hsrc hdst, hv₂, hun.vol,
    hr.fileIs_deleted h h' hz hnm hun.dir hun.deleted hun.entry hfile hd₂ hdel₂ hat₂ hfile₂
      (hq.parent_ne h) (hq.calls h.tree.nodup) hun.kept (hkept.trans hkept₂) hun.vol hv₂]
  refine and_congr_right fun _ => forall_congr' fun t => forall_congr' fun k => ?_
  rw [hr.denotes_src h h' hz hnm hun.dir hun.deleted hun.entry hfile hd₂ hdel₂ hat₂ hfile₂ hp,
    hr.denotes_deleted h h' hz hnm hun.dir hun.deleted hun.entry hfile hd₂ hdel₂ hat₂ hfile₂
      (hq.parent_ne h) (hq.calls h.tree.nodup)]

end Outcome

/-- What is told of the driver after a rename. -/
def Drv.RenamesIff (u : Drv) (src dst : CStr) (bs : List UInt8) : Int → View → Prop :=
  fun c w' => ∀ u' : Drv, u'.Ready → u'.toStore.Shows w' →
    (Renames src dst bs c u' ↔ u.RenameFits src dst bs)

/-- An answer of the copy that is an error, for a reason. -/
def View.CopyFails (w : View) (ch : Nat → List Nat) (D : List Dir) (dst : CStr) (w' : View)
    (ch' : Nat → List Nat) : Prop :=
  (Admits w ch D dst true → w.TwoFree → (resolveParent w.vol D dst).1 ≠ 0 →
    ∀ n, w.Room ch D dst n → n = 0) ∧
  w'.Layout ch' D [] ∧ Kept (fun _ _ => False) w ch D w' ch' D ∧ w'.vol = w.vol

section Rename

variable {u₀ : Drv} {w₀ : View} (h : w.Layout ch D []) (ht : u.Ready) (hw : u.toStore.Shows w)

include h ht hw

/-- An error leaves the source, and comes only where the condition asks for nothing. -/
theorem renames_error (hp : PathAt w.vol D src a i r x) (hfile : x.isDir = false) (err : Err)
    (hbs : w.content ch x = bs) (hf : w.CopyFails ch D dst w' ch') :
    u.RenamesIff src dst bs err.code w' := by
  intro u' hu' hw'
  obtain ⟨hno, hlay, hkept, hv⟩ := hf
  have hneg := err.code_neg
  refine iff_of_true ⟨fun h0 => by omega, fun _ => (hlay.fileIs_iff hu' hw').mpr ?_⟩
    fun hop h2 n hn h0 => ?_
  · exact View.FileIs.kept ⟨a, i, r, x, hp, hfile, hbs⟩ h hkept hv
  · obtain ⟨ha, hne⟩ := (h.opens_iff ht hw dst).mp hop
    exact absurd (hno ha ((View.Layout.twoFree_iff hw).mp h2) hne n
      ((h.room_iff ht hw ha hne).mp hn)) h0

/-- The condition, once the destination opens and the removal of the source is known. -/
theorem renameFits_iff (hc : u.Consistent)
    (hst : u.Opens dst → u.TwoFree → ∀ n, u.Room dst n → n ≠ 0 → u.Storable dst)
    (hrun₀ : (fat32Unlink src).Runs u 0 u₀) (ha : Admits w ch D dst true) (h2 : w.TwoFree)
    (hne : (resolveParent w.vol D dst).1 ≠ 0) (hroom : w.Room ch D dst n) (h0 : n ≠ 0) :
    u.RenameFits src dst bs ↔ (resolveParent w.vol D dst).2 ≠ [] ∧ u₀.Covers src dst ∧
      (u.Differ src dst → bs.length ≤ n * (w.vol.secPerClus * 512)) ∧
      (¬ u.Differ src dst → u₀.FileIs dst bs) := by
  have hop := (h.opens_iff ht hw dst).mpr ⟨ha, hne⟩
  have htwo := (View.Layout.twoFree_iff hw).mpr h2
  have hn := (h.room_iff ht hw ha hne).mpr hroom
  rw [← h.named_iff ht hw dst, ← hw.vol]
  constructor
  · intro hf
    obtain ⟨-, hname, s', hrun, hcov, hlen, hsame⟩ := hf hop htwo n hn h0
    obtain ⟨-, rfl⟩ := hrun.det hrun₀
    exact ⟨hname, hcov, hlen, hsame⟩
  · rintro ⟨hname, hcov, hlen, hsame⟩ _ _ n' hn' h0'
    obtain rfl := Drv.Room.unique ht hc hop hn hn'
    exact ⟨hst hop htwo n hn h0, hname, u₀, hrun₀, hcov, hlen, hsame⟩

variable (hp : PathAt w.vol D src a i r x) (hfile : x.isDir = false) (hc : u.Consistent)
  (hz : ∀ c ∈ dst, c ≠ 0)
  (hst : u.Opens dst → u.TwoFree → ∀ n, u.Room dst n → n ≠ 0 → u.Storable dst)
  (hm : w.mounted = true) (hun : Unlinked w ch D [] a i r x l l' w₀)
  (hrun₀ : (Fat32.fat32Unlink src).Runs u 0 u₀) (hu₀ : u₀.Ready) (hw₀ : u₀.toStore.Shows w₀)
  (hafter : ∀ (err : Err) w' ch', w.CopyFails ch D dst w' ch' →
    Holds (if err.code ≠ 0 then Pure.pure err.code else Fat32.fat32Unlink src)
      (u.RenamesIff src dst bs) w')

include hp hfile hc hz hst hm hun hrun₀ hu₀ hw₀ hafter

/-- Both paths name one entry. -/
theorem Holds.rename_onto (hq : PathAt w.vol D dst a i r x) :
    Holds (Fat32.fat32Copy src dst) (fun c w' =>
      Holds (if c ≠ 0 then Pure.pure c else Fat32.fat32Unlink src) (u.RenamesIff src dst bs) w')
      w := by
  have hdst := ne_root_of_name hq.name_ne
  have hdiff : ¬ u.Differ src dst := by
    rw [h.differ_iff ht hw hp (ne_root_of_name hp.name_ne) hdst, not_not]
    exact ⟨r, x, hq⟩
  refine Holds.fat32Copy_same h hz hp hfile hq
    (fun err w' ch' hno hlay hkept hv => hafter err w' ch' ⟨hno, hlay, hkept, hv⟩) ?_
  intro n w' ch' D' y ha h2 hne hroom h0 hlay hrefilled hevo
  rw [if_neg (by decide)]
  refine Holds.rename_same h hlay (hevo.mounted.trans hm) hz hq.name_ne hp hfile hun hrefilled hq
    hu₀ hw₀ ?_
  rw [renameFits_iff h ht hw hc hst hrun₀ ha h2 hne hroom h0]
  constructor
  · rintro ⟨-, hcov, -, hbehind⟩
    exact ⟨hbehind hdiff, hcov⟩
  · rintro ⟨hbehind, hcov⟩
    exact ⟨hq.name_ne, hcov, fun hd => absurd hd hdiff, fun _ => hbehind⟩

/-- The destination is another entry, or a new one. -/
theorem Holds.rename_beside (hbs : w.content ch x = bs) (hother : ¬ Denotes w.vol D dst a i) :
    Holds (Fat32.fat32Copy src dst) (fun c w' =>
      Holds (if c ≠ 0 then Pure.pure c else Fat32.fat32Unlink src) (u.RenamesIff src dst bs) w')
      w := by
  have hsrcroot := ne_root_of_name hp.name_ne
  refine Holds.fat32Copy h hz ?_ hp hfile hother
    (fun err w' ch' hno hlay hkept hv => hafter err w' ch' ⟨hno, hlay, hkept, hv⟩) ?_
  · intro ha h2 hno l m hd hg hm'
    have hne := h.start_ne_zero hd
    exact h.storable ht hw hno (hst ((h.opens_iff ht hw dst).mpr ⟨ha, hne⟩)
      ((View.Layout.twoFree_iff hw).mpr h2) _
      ((h.room_iff ht hw ha hne).mpr (View.Room.created hno hd hg)) (by omega)) l m hd hg hm'
  · intro n w' ch' D' s j run y ha h2 hne hroom h0 hlay hrefilled hevo hplace hcontent
    rw [if_neg (by decide)]
    have hfits : u.RenameFits src dst bs ↔ _ :=
      renameFits_iff h ht hw hc hst hrun₀ ha h2 hne hroom h0
    by_cases hname : (resolveParent w.vol D dst).2 = []
    · have hnone := (hrefilled.stored h hz hcontent).nameless hname
      have hroot : dst ≠ [0x2F] := by
        rintro rfl
        rw [statPath, if_pos rfl] at hnone
        cases hnone
      refine Holds.rename_nameless hlay (hevo.mounted.trans hm) (hevo.vol.symm ▸ hne)
        (hevo.vol.symm ▸ hname) hroot ?_
      rw [hfits]
      exact fun hf => hf.1 hname
    · have hdiff := (h.differ_iff ht hw hp hsrcroot (ne_root_of_name hname)).mpr hother
      rw [hbs] at hcontent
      refine Holds.rename_other h hlay (hevo.mounted.trans hm) hz hname hp hfile hun hrefilled
        hplace hcontent ?_
      rw [hfits, hun.layout.covers_iff hu₀ hw₀ hsrcroot (ne_root_of_name hname), hun.vol]
      constructor
      · rintro ⟨-, hcov, hlen, -⟩
        exact ⟨hlen hdiff, hcov⟩
      · rintro ⟨hlen, hcov⟩
        exact ⟨hname, hcov, fun _ => hlen, fun hno => absurd hdiff hno⟩

end Rename

/-- `fat32_rename` to a path that can be created. -/
theorem rename_of_storable (ht : u.Ready) (hc : u.Consistent) (hz : ∀ c ∈ dst, c ≠ 0)
    (hsrc : u.FileIs src bs)
    (hst : u.Opens dst → u.TwoFree → ∀ n, u.Room dst n → n ≠ 0 → u.Storable dst) :
    (fat32Rename src dst).wp (Renames src dst bs) u ↔ u.RenameFits src dst bs := by
  have hcons := hc
  obtain ⟨w, hw, ch, D, h⟩ := hc
  obtain ⟨a, i, r, x, hp, hfile, hbs⟩ := (h.fileIs_iff ht hw).mp hsrc
  refine Holds.wp_iff (w := w) ?_ ht hw
  rw [fat32Rename]
  apply Holds.getStore
  intro c hcs
  rw [hcs.mounted]
  cases hm : w.mounted with
  | false =>
      refine Holds.pure (renames_error h ht hw hp hfile Err.noDev hbs
        ⟨fun ha => ?_, h, Kept.refl, rfl⟩)
      rw [ha.mounted] at hm
      cases hm
  | true =>
      simp only [Bool.not_true, Bool.false_eq_true, if_false]
      obtain ⟨u₀, w₀, l, l', hrun₀, hu₀, hw₀, hun⟩ := exists_unlinked h ht hw hm hp hfile
      have hafter : ∀ (err : Err) w' ch', w.CopyFails ch D dst w' ch' →
          Holds (if err.code ≠ 0 then Pure.pure err.code else fat32Unlink src)
            (u.RenamesIff src dst bs) w' := by
        intro err w' ch' hf
        have hneg := err.code_neg
        rw [if_pos (by omega)]
        exact Holds.pure (renames_error h ht hw hp hfile err hbs hf)
      refine Holds.bind ?_
      by_cases hsame : Denotes w.vol D dst a i
      · obtain ⟨r', y, hq⟩ := hsame
        obtain ⟨rfl, rfl⟩ := hp.entryAt.unique h.tree.nodup hq.entryAt
        exact Holds.rename_onto h ht hw hp hfile hcons hz hst hm hun hrun₀ hu₀ hw₀ hafter hq
      · exact Holds.rename_beside h ht hw hp hfile hcons hz hst hm hun hrun₀ hu₀ hw₀ hafter hbs
          hsame

/-- A rename keeps the file exactly where the copy of it fits beside it, on a destination
that can be created. -/
theorem rename_keeps_iff (ht : u.Ready) (hc : u.Consistent) (hz : ∀ c ∈ dst, c ≠ 0)
    (hsrc : u.FileIs src bs) :
    (u.RenameFits src dst bs → (fat32Rename src dst).wp (Renames src dst bs) u) ∧
      (u.Storable dst → (fat32Rename src dst).wp (Renames src dst bs) u →
        u.RenameFits src dst bs) := by
  refine ⟨fun hf => ?_, fun hst => ?_⟩
  · exact (rename_of_storable ht hc hz hsrc fun ho h2 n hn h0 => (hf ho h2 n hn h0).1).mpr hf
  · exact (rename_of_storable ht hc hz hsrc fun _ _ _ _ _ => hst).mp

section Holding

theorem holding_entryAt : EntryAt [⟨2, Listing.bare⟩] t j r z ↔
    t = 2 ∧ j = 0 ∧ r = [] ∧ z = bareFile := by
  constructor
  · rintro ⟨d, hd, rfl, hat⟩
    rw [List.mem_singleton] at hd
    subst hd
    have hat' : At j r z 0 [Item.entry [] bareFile] := hat
    obtain ⟨hj, rfl, rfl⟩ := at_entry.mp hat'
    exact ⟨rfl, hj, rfl, rfl⟩
  · rintro ⟨rfl, rfl, rfl, rfl⟩
    exact ⟨_, List.mem_singleton_self _, rfl, at_entry.mpr ⟨rfl, rfl, rfl⟩⟩

/-- Without its only file the volume has none. -/
theorem holding_unlinked : ∃ u₀ w₀ D₀, (fat32Unlink [0x2F, 0x41]).Runs holding 0 u₀ ∧
    u₀.Ready ∧ u₀.toStore.Shows w₀ ∧ w₀.Layout (fun _ => [2]) D₀ [] ∧
    ∀ t j r z, ¬ EntryAt D₀ t j r z := by
  obtain ⟨u₀, w₀, l, l', hrun, hu₀, hw₀, hun⟩ := exists_unlinked holding_layout holding_ready
    holding_shows rfl holding_pathAt (by decide)
  refine ⟨u₀, w₀, _, hrun, hu₀, hw₀, hun.layout, fun t j r z hat => ?_⟩
  obtain ⟨hold, hne⟩ :=
    (entryAt_deleted holding_layout.tree.nodup hun.dir hun.deleted).mp hat
  obtain ⟨ht, hj, -⟩ := holding_entryAt.mp hold
  exact hne ⟨ht, hj⟩

/-- The file `A` of the sample can be renamed to `B`. -/
theorem rename_keeps_holding :
    (fat32Rename [0x2F, 0x41] [0x2F, 0x42]).wp (Renames [0x2F, 0x41] [0x2F, 0x42] []) holding := by
  refine (rename_keeps_iff holding_ready holding_consistent (by simp) holding_fileIs).1
    fun _ _ n _ _ => ?_
  have hres : resolveParent holding.vol [⟨2, Listing.bare⟩] [0x2F, 0x42] = (2, [0x42]) :=
    resolveParent_single (by decide) (by decide) (by simp)
  have hpar : (pathResolveParent [0x2F, 0x42]).Answers holding (2, [0x42]) :=
    hres ▸ holding_layout.answers_parent holding_ready holding_shows _
  have hdiff : holding.Differ [0x2F, 0x41] [0x2F, 0x42] := by
    refine (holding_layout.differ_iff holding_ready holding_shows holding_pathAt (by decide)
      (by decide)).mpr ?_
    rintro ⟨r, z, hq⟩
    obtain ⟨-, -, hat, hc, -⟩ := (pathAt_iff holding_layout.tree.nodup).mp hq
    obtain ⟨-, -, rfl, rfl⟩ := holding_entryAt.mp hat
    have hres' : (resolveParent ((fresh 4).toStore.view.setSlot [2] 0 bareFile).vol
        [⟨2, Listing.bare⟩] [0x2F, 0x42]).2 = [0x42] := congrArg Prod.snd hres
    rw [hres'] at hc
    exact absurd hc (by decide)
  obtain ⟨u₀, w₀, D₀, hrun, hu₀, hw₀, hlay, hnone⟩ := holding_unlinked
  refine ⟨fun _ => ⟨fun r xs hr _ => ?_, fun r hr => ?_⟩, fun r hr => ?_, u₀, hrun, ?_,
    fun _ => Nat.zero_le _, fun hno => absurd hdiff hno⟩
  · obtain rfl := hpar.det hr
    exact roomFor_of_le (by decide)
  · obtain rfl := hpar.det hr
    decide
  · rw [← hpar.det hr]
    decide
  · refine (hlay.covers_iff hu₀ hw₀ (by decide) (by decide)).mpr ?_
    rintro s i ⟨r, z, hq⟩
    exact absurd hq.entryAt (hnone _ _ _ _)

/-- Renamed to itself the file is gone, and the call reports success. -/
theorem rename_loses : holding.Ready ∧ holding.Consistent ∧ holding.FileIs [0x2F, 0x41] [] ∧
    ¬ (fat32Rename [0x2F, 0x41] [0x2F, 0x41]).wp
      (Renames [0x2F, 0x41] [0x2F, 0x41] []) holding := by
  refine ⟨holding_ready, holding_consistent, holding_fileIs, fun hwp => ?_⟩
  have hstat := statPath_of_pathAt holding_layout holding_pathAt
  have hst : holding.Storable [0x2F, 0x41] := by
    intro hno
    have hans := holding_layout.answers_stat holding_ready holding_shows [0x2F, 0x41]
    rw [hstat] at hans
    cases hans.det hno
  have hfits := (rename_of_storable holding_ready holding_consistent (by simp)
    holding_fileIs fun _ _ _ _ _ => hst).mp hwp
  have hne := holding_pathAt.parent_ne holding_layout
  have hopens := (holding_layout.opens_iff holding_ready holding_shows _).mpr ⟨holding_admits, hne⟩
  have hroom := (holding_layout.room_iff holding_ready holding_shows holding_admits hne).mpr
    (View.Room.existing hstat)
  obtain ⟨-, -, s', hrun, -, -, hbehind⟩ := hfits hopens
    ⟨0, by omega, 1, by omega, by omega, rfl, rfl⟩ _ hroom (by rw [holding_freeCount]; omega)
  have hsame : ¬ holding.Differ [0x2F, 0x41] [0x2F, 0x41] := by
    rw [holding_layout.differ_iff holding_ready holding_shows holding_pathAt (by decide)
      (by decide), not_not]
    exact ⟨[], bareFile, holding_pathAt⟩
  obtain ⟨u₀, w₀, D₀, hrun₀, hu₀, hw₀, hlay, hnone⟩ := holding_unlinked
  obtain ⟨-, rfl⟩ := hrun.det hrun₀
  obtain ⟨t, j, r, z, hq, -⟩ := (hlay.fileIs_iff hu₀ hw₀).mp (hbehind hsame)
  exact hnone _ _ _ _ hq.entryAt

end Holding

end Chimaera.Fat32
