/-
When the calls that scan directories return.  They scan whatever directories
the entries of a disk lead to, and return where all of these come to an end.
-/
import Chimaera.Fat32.Resolve
import Chimaera.Fat32.Scans
import Chimaera.Fat32.Trust
import Chimaera.Fat32.Update

namespace Chimaera.Fat32

open Prog

variable {c : Store} {s : Drv} {a n : Nat} {es : List DirEntry} {name : CStr} {n83 : List UInt8}

/-- A used slot that is no piece of a long name. -/
def DirEntry.IsShort (e : DirEntry) : Prop := e.first ≠ 0 ∧ e.first ≠ 0xE5 ∧ e.isLfn = false

instance (e : DirEntry) : Decidable e.IsShort := inferInstanceAs (Decidable (_ ∧ _ ∧ _))

def shortNames (es : List DirEntry) : List (List UInt8) :=
  (es.filter fun e => decide e.IsShort).map DirEntry.name

theorem mem_shortNames_cons {e : DirEntry} : n83 ∈ shortNames (e :: es) ↔
    (e.IsShort ∧ e.name = n83) ∨ n83 ∈ shortNames es := by
  simp only [shortNames, List.mem_map, List.mem_filter, List.mem_cons, decide_eq_true_eq]
  constructor
  · rintro ⟨x, ⟨rfl | hx, hs⟩, hn⟩
    · exact Or.inl ⟨hs, hn⟩
    · exact Or.inr ⟨x, ⟨hx, hs⟩, hn⟩
  · rintro (⟨hs, hn⟩ | ⟨x, ⟨hx, hs⟩, hn⟩)
    · exact ⟨e, ⟨Or.inl rfl, hs⟩, hn⟩
    · exact ⟨x, ⟨Or.inr hx, hs⟩, hn⟩

/-- What `dir_83_exists` makes of the end of its scan. -/
def found83 : ScanEnd Unit Bool → Bool
  | .stop b => b
  | _ => false

/-- The directories that the entries of the disk lead to from the root. -/
inductive Store.IsDir (c : Store) : Nat → Prop
  | root : IsDir c c.vol.rootCluster
  | sub {a : Nat} {es : List DirEntry} {e : DirEntry} (ha : IsDir c a) (hs : c.Sees a 0 es)
      (he : e ∈ es) (hshort : e.IsShort) (hdir : e.isDir = true) : IsDir c (c.vol.dirTarget e)

section Steps

variable {st : FindState} {pos : DirPos} {e : DirEntry}

theorem dirFindStep_zero (h : e.first = 0) : dirFindStep name st pos e = .inr none := if_pos h

/-- What `dir_find` stops at is the entry that it answers. -/
theorem dirFindStep_inr {r : DirEntry × DirPos × DirPos}
    (h : dirFindStep name st pos e = .inr (some r)) : r.1 = e ∧ e.IsShort := by
  unfold dirFindStep at h
  by_cases h0 : e.first = 0
  · rw [if_pos h0] at h
    cases h
  rw [if_neg h0] at h
  by_cases h5 : e.first = 0xE5
  · rw [if_pos h5] at h
    cases h
  rw [if_neg h5] at h
  cases hl : e.isLfn with
  | true =>
      simp only [hl, if_true] at h
      split at h
      · split at h <;> cases h
      · split at h <;> cases h
  | false =>
      simp only [hl, Bool.false_eq_true, if_false] at h
      split at h
      · cases h
        exact ⟨rfl, h0, h5, hl⟩
      · cases h

theorem readdirStep_zero {st : ReaddirState} (h : e.first = 0) :
    readdirStep st pos e = .inr st.out := if_pos h

theorem readdirStep_ne {st : ReaddirState} (h : e.first ≠ 0) :
    ∃ st', readdirStep st pos e = .inl st' := by
  unfold readdirStep
  rw [if_neg h]
  split
  · exact ⟨_, rfl⟩
  split
  · split
    · exact ⟨_, rfl⟩
    · exact ⟨_, rfl⟩
  split
  · exact ⟨_, rfl⟩
  · exact ⟨_, rfl⟩

theorem hasStep_zero (h : e.first = 0) : hasStep n83 () pos e = .inr false := if_pos h

theorem hasStep_short (h : e.IsShort) (hname : e.name = n83) :
    hasStep n83 () pos e = .inr true := by
  rw [hasStep, if_neg h.1, if_neg (by simp [h.2.1, h.2.2]), if_pos hname]

theorem hasStep_other (h : e.first ≠ 0) (hno : ¬ (e.IsShort ∧ e.name = n83)) :
    hasStep n83 () pos e = .inl () := by
  rw [hasStep, if_neg h]
  split
  · rfl
  · next hlive =>
      rw [not_or, Bool.not_eq_true] at hlive
      rw [if_neg fun hname => hno ⟨⟨h, hlive⟩, hname⟩]

/-- No entry has the short name of a deleted one. -/
theorem DirEntry.IsShort.name_ne (h : e.IsShort) (h5 : n83.getD 0 0 = 0xE5) : e.name ≠ n83 := by
  rintro rfl
  refine h.2.1 ?_
  rw [← h5, DirEntry.name, DirEntry.first, Block.getD_toList, Block.byte_slice _ _ (by decide)]

end Steps

section Calls

variable (hspc : c.vol.secPerClus ≤ 128) (hpos : 0 < c.vol.perCluster)
include hspc hpos

/-- `dir_find` answers nothing, or an entry that its scan sees. -/
theorem Store.Sees.dirFind (h : c.Sees a 0 es) (name : CStr) :
    ∃ r, Stays c.Behind (dirFind a name) r ∧ ∀ x, r = some x → x.1 ∈ es ∧ x.1.IsShort := by
  obtain ⟨r, hr, hstop⟩ := h.scanDir (dirFindStep name) hpos hspc
    (fun st pos e h0 => ⟨none, dirFindStep_zero h0⟩) ⟨fun _ => 0, 0, false, dirPosInit c.vol a⟩
    (isSlot_zero c.vol a 0)
  cases r with
  | stop found =>
      refine ⟨found, Store.stays_getStore (Moves.bind hr Moves.pure), fun x hx => ?_⟩
      obtain ⟨e, st, pos, hstep, hmem⟩ := hstop found rfl
      rw [hx] at hstep
      obtain ⟨heq, hshort⟩ := dirFindStep_inr hstep
      rw [heq]
      exact ⟨hmem.resolve_left hshort.1, hshort⟩
  | ioError st =>
      exact ⟨none, Store.stays_getStore (Moves.bind hr Moves.pure), fun x hx => by cases hx⟩
  | endOfDir st pos =>
      exact ⟨none, Store.stays_getStore (Moves.bind hr Moves.pure), fun x hx => by cases hx⟩

/-- The scan of `dir_83_exists` stops at the first entry that has the name. -/
theorem Store.Sees.scan83 {k i : Nat} (h : c.Sees k i es) (n83 : List UInt8)
    (hi : i < c.vol.perCluster) {pos : DirPos} (hp : pos.IsSlot c.vol k i) :
    ∃ r, Stays c.Behind (Fat32.scanDir (hasStep n83) () pos) r ∧
      found83 r = decide (n83 ∈ shortNames es) := by
  have hhit : ∀ {k i : Nat} {pos : DirPos} {e : DirEntry} (es : List DirEntry),
      pos.IsSlot c.vol k i → c.slotOf k i = some e → e.IsShort ∧ e.name = n83 →
      ∃ r, Stays c.Behind (Fat32.scanDir (hasStep n83) () pos) r ∧
        found83 r = decide (n83 ∈ shortNames (e :: es)) := fun es hp hslot hhit =>
    ⟨_, Store.stays_scan_stop hp hslot (hasStep_short hhit.1 hhit.2),
      (decide_eq_true (mem_shortNames_cons.mpr (Or.inl hhit))).symm⟩
  induction h generalizing pos with
  | unreadable hslot => exact ⟨_, Store.stays_scan_error hp hslot, rfl⟩
  | zero hslot h0 => exact ⟨_, Store.stays_scan_stop hp hslot (hasStep_zero h0), rfl⟩
  | @last k i e hslot h0 hlast hl =>
      by_cases hn : e.IsShort ∧ e.name = n83
      · exact hhit [] hp hslot hn
      · refine ⟨_, Store.stays_scan_end hp hslot (hasStep_other h0 hn)
          (((hp.nextPos hi hspc).2 hlast).2 hl), ?_⟩
        refine (decide_eq_false ?_).symm
        rw [mem_shortNames_cons, or_iff_right hn]
        exact List.not_mem_nil
  | @next k i e es hslot h0 hlt _ ih =>
      by_cases hn : e.IsShort ∧ e.name = n83
      · exact hhit es hp hslot hn
      · obtain ⟨hnext, hp'⟩ := (hp.nextPos hi hspc).1 hlt
        obtain ⟨r, hr, hans⟩ := ih hlt hp'
        refine ⟨r, Store.stays_scan_go hp hslot (hasStep_other h0 hn) hnext hr, ?_⟩
        rw [hans, decide_eq_decide, mem_shortNames_cons, or_iff_right hn]
  | @hop k i e es hslot h0 hlast hl _ ih =>
      by_cases hn : e.IsShort ∧ e.name = n83
      · exact hhit es hp hslot hn
      · obtain ⟨hnext, hp'⟩ := ((hp.nextPos hi hspc).2 hlast).1 hl
        obtain ⟨r, hr, hans⟩ := ih hpos hp'
        refine ⟨r, Store.stays_scan_go hp hslot (hasStep_other h0 hn) hnext hr, ?_⟩
        rw [hans, decide_eq_decide, mem_shortNames_cons, or_iff_right hn]

/-- `dir_83_exists` looks for a name among those of the entries. -/
theorem Store.Sees.dir83Exists (h : c.Sees a 0 es) (n83 : List UInt8) :
    Stays c.Behind (dir83Exists a n83) (decide (n83 ∈ shortNames es)) := by
  obtain ⟨r, hr, hans⟩ := h.scan83 hspc hpos n83 hpos (isSlot_zero c.vol a 0)
  rw [← hans]
  refine Store.stays_getStore (Moves.bind hr ?_)
  cases r with
  | stop b => exact Moves.pure
  | ioError st => exact Moves.pure
  | endOfDir st pos => exact Moves.pure

theorem Store.Sees.readdirCluster (h : c.Sees a 0 es) :
    ∃ r, Stays c.Behind (readdirCluster a) r := by
  obtain ⟨r, hr, -⟩ := h.scanDir readdirStep hpos hspc
    (fun st pos e h0 => ⟨_, readdirStep_zero h0⟩) ⟨fun _ => 0, false, []⟩ (isSlot_zero c.vol a 0)
  cases r with
  | stop out => exact ⟨out, Store.stays_getStore (Moves.bind hr Moves.pure)⟩
  | ioError st => exact ⟨st.out, Store.stays_getStore (Moves.bind hr Moves.pure)⟩
  | endOfDir st pos => exact ⟨st.out, Store.stays_getStore (Moves.bind hr Moves.pure)⟩

theorem dir83Exists_diverges (hno : ¬ ∃ es, c.Sees a 0 es) (h5 : n83.getD 0 0 = 0xE5)
    (hs : c.Behind s) : (dir83Exists a n83).Diverges s := by
  refine Moves.diverges_bind Store.stays_store (fun s hs => diverges_bind_left ?_) hs
  exact Store.scanDir_diverges (hasStep n83) hno hpos hspc
    (fun st pos e h0 => ⟨(), hasStep_other h0 fun h => h.1.name_ne h5 h.2⟩) ()
    (isSlot_zero c.vol a 0) hs

theorem readdirCluster_diverges (hno : ¬ ∃ es, c.Sees a 0 es) (hs : c.Behind s) :
    (readdirCluster a).Diverges s := by
  refine Moves.diverges_bind Store.stays_store (fun s hs => diverges_bind_left ?_) hs
  exact Store.scanDir_diverges readdirStep hno hpos hspc (fun st pos e h0 => readdirStep_ne h0) _
    (isSlot_zero c.vol a 0) hs

end Calls

section Paths

variable (hdirs : ∀ a, c.IsDir a → ∃ es, c.Sees a 0 es) (hspc : c.vol.secPerClus ≤ 128)
  (hpos : 0 < c.vol.perCluster)
include hdirs hspc hpos

/-- A walk along a path comes to a directory, or to nothing. -/
theorem Store.stays_resolve {p : CStr} (ha : c.IsDir a) :
    ∃ r, Stays c.Behind (loop (resolveStep c.vol) (a, p)) r ∧ (r.1 = 0 ∨ c.IsDir r.1) := by
  induction hm : p.length using Nat.strong_induction_on generalizing a p with
  | h m ih =>
      by_cases hp : p = []
      · refine ⟨(a, []), Moves.loop_last ?_, Or.inr ha⟩
        rw [resolveStep, if_pos hp]
        exact Moves.pure
      by_cases hrest : pathRest p = []
      · refine ⟨(a, pathComp p), Moves.loop_last ?_, Or.inr ha⟩
        rw [resolveStep, if_neg hp, if_pos hrest]
        exact Moves.pure
      obtain ⟨es, hes⟩ := hdirs a ha
      obtain ⟨o, ho, hfound⟩ := hes.dirFind hspc hpos (pathComp p)
      cases o with
      | none =>
          refine ⟨(0, []), Moves.loop_last ?_, Or.inl rfl⟩
          rw [resolveStep, if_neg hp, if_neg hrest]
          exact Moves.bind ho Moves.pure
      | some x =>
          obtain ⟨hmem, hshort⟩ := hfound x rfl
          by_cases hdir : x.1.isDir = true
          · obtain ⟨r, hr, hr0⟩ :=
              ih _ (hm ▸ length_pathRest_lt hp) (.sub ha hes hmem hshort hdir) rfl
            refine ⟨r, Moves.loop_next ?_ hr, hr0⟩
            rw [resolveStep, if_neg hp, if_neg hrest]
            refine Moves.bind ho ?_
            dsimp only
            rw [if_pos hdir]
            exact Moves.pure
          · refine ⟨(0, []), Moves.loop_last ?_, Or.inl rfl⟩
            rw [resolveStep, if_neg hp, if_neg hrest]
            refine Moves.bind ho ?_
            dsimp only
            rw [if_neg hdir]
            exact Moves.pure

theorem Store.stays_pathResolveParent (path : CStr) :
    ∃ r, Stays c.Behind (pathResolveParent path) r ∧ (r.1 = 0 ∨ c.IsDir r.1) := by
  cases path with
  | nil => exact ⟨(0, []), Store.stays_getStore Moves.pure, Or.inl rfl⟩
  | cons ch rest =>
      by_cases hch : ch = 0x2F
      · subst hch
        obtain ⟨r, hr, h⟩ := Store.stays_resolve hdirs hspc hpos (p := rest) .root
        exact ⟨r, Store.stays_getStore hr, h⟩
      · refine ⟨(0, []), Store.stays_getStore ?_, Or.inl rfl⟩
        split
        · next heq => exact absurd (List.cons.inj heq).1 hch
        · exact Moves.pure

/-- A path that names a directory names one of the disk's. -/
theorem Store.stays_pathStat (hs : c.vol.Sound n) (path : CStr) :
    ∃ r, Stays c.Behind (pathStat path) r ∧ ∀ p, r = some p → p.entry.isDir = true →
      c.IsDir (c.vol.dirTarget p.entry) := by
  by_cases hroot : path = [0x2F]
  · refine ⟨some ⟨rootEntry c.vol, ⟨0, 0, 0, 0⟩, 0⟩, Store.stays_getStore ?_, ?_⟩
    · rw [if_pos hroot]
      exact Moves.pure
    · intro p hp _
      cases hp
      rw [dirTarget_rootEntry hs]
      exact .root
  obtain ⟨r, hr, h⟩ := Store.stays_pathResolveParent hdirs hspc hpos path
  by_cases hno : r.1 = 0 ∨ r.2 = []
  · refine ⟨none, Store.stays_getStore ?_, fun p hp => by cases hp⟩
    rw [if_neg hroot]
    refine Moves.bind hr ?_
    dsimp only
    rw [if_pos hno]
    exact Moves.pure
  · have hdir := h.resolve_left fun h0 => hno (Or.inl h0)
    obtain ⟨es, hes⟩ := hdirs _ hdir
    obtain ⟨o, ho, hfound⟩ := hes.dirFind hspc hpos r.2
    refine ⟨o.map fun x => ⟨x.1, x.2.1, r.1⟩, Store.stays_getStore ?_, ?_⟩
    · rw [if_neg hroot]
      refine Moves.bind hr ?_
      dsimp only
      rw [if_neg hno]
      refine Moves.bind ho ?_
      cases o with
      | none => exact Moves.pure
      | some x => exact Moves.pure
    · intro p hp hisdir
      cases o with
      | none => cases hp
      | some x =>
          cases hp
          obtain ⟨hmem, hshort⟩ := hfound x rfl
          exact .sub hdir hes hmem hshort hisdir

theorem Store.stays_fat32Readdir (hs : c.vol.Sound n) (path : CStr) :
    ∃ r, Stays c.Behind (fat32Readdir path) r := by
  by_cases hm : (!c.volMounted) = true
  · refine ⟨(Err.noDev.code, []), Store.stays_getStore ?_⟩
    rw [if_pos hm]
    exact Moves.pure
  obtain ⟨o, ho, hdir⟩ := Store.stays_pathStat hdirs hspc hpos hs path
  cases o with
  | none =>
      refine ⟨(Err.notFound.code, []), Store.stays_getStore ?_⟩
      rw [if_neg hm]
      exact Moves.bind ho Moves.pure
  | some p =>
      cases hd : p.entry.isDir with
      | false =>
          refine ⟨(Err.notDir.code, []), Store.stays_getStore ?_⟩
          rw [if_neg hm]
          refine Moves.bind ho ?_
          simp only [hd, Bool.not_false, if_true]
          exact Moves.pure
      | true =>
          obtain ⟨es, hes⟩ := hdirs _ (hdir p rfl hd)
          obtain ⟨out, hout⟩ := hes.readdirCluster hspc hpos
          refine ⟨(out.length, out), Store.stays_getStore ?_⟩
          rw [if_neg hm]
          refine Moves.bind ho ?_
          simp only [hd, Bool.not_true, Bool.false_eq_true, if_false]
          exact Moves.bind hout Moves.pure

end Paths

/-- The calls that scan directories return, for every name and path, exactly where
the links of every directory of the disk come to an end. -/
theorem scans_return_iff (hs : s.Steady) (hv : s.vol.Sound s.sectors) :
    ((∀ a, s.IsDir a → (∀ name, ∃ r, (dirFind a name).Answers s r) ∧
        ∀ n83 : List UInt8, n83.length = 11 → ∃ b, (dir83Exists a n83).Answers s b) ∧
      ∀ path, ∃ r, (fat32Readdir path).Answers s r) ↔ ∀ a, s.IsDir a → s.Ends a := by
  have hb : s.Behind s := ⟨hs, rfl⟩
  have hpos := perCluster_pos hv
  constructor
  · rintro ⟨hscan, -⟩ a ha
    rw [Store.ends_iff hpos]
    by_contra hno
    obtain ⟨b, hans⟩ := (hscan a ha).2 (0xE5 :: List.replicate 10 0x20) rfl
    exact hans.not_diverges (dir83Exists_diverges hv.spc_le hpos hno rfl hb)
  · intro hends
    have hdirs : ∀ a, s.IsDir a → ∃ es, s.Sees a 0 es := fun a ha =>
      (Store.ends_iff hpos).mp (hends a ha)
    refine ⟨fun a ha => ?_, fun path => ?_⟩
    · obtain ⟨es, hes⟩ := hdirs a ha
      refine ⟨fun name => ?_, fun n83 _ => ?_⟩
      · obtain ⟨r, hr, -⟩ := hes.dirFind hv.spc_le hpos name
        exact ⟨r, hr.answers hb⟩
      · exact ⟨_, (hes.dir83Exists hv.spc_le hpos n83).answers hb⟩
    · obtain ⟨r, hr⟩ := Store.stays_fat32Readdir hdirs hv.spc_le hpos hv path
      exact ⟨r, hr.answers hb⟩

def oneVol : Vol := ⟨0, 1, 1, 1, 2, 1, 2, 1⟩

/-- A volume of one cluster, which has the link `x` and holds `b`. -/
def one (x : Nat) (b : Sector) : Drv :=
  { unmounted 3 fun lba => if lba = 1 then (Block.zero 512).patch 8 (leBytes 4 x) else b with
    vol := oneVol
    volMounted := true
    secCache := b
    secCacheLba := 0 }

theorem one_steady (x : Nat) (b : Sector) : (one x b).Steady := by
  have hlba : (one x b).secCacheLba % 268435456 = 0 := Nat.zero_mod _
  refine ⟨rfl, fun _ => rfl, rfl, ?_, ?_⟩
  · rw [hlba]
    exact Nat.zero_lt_succ 2
  · rw [hlba]
    rfl

theorem oneVol_sound : oneVol.Sound 3 := by
  constructor <;> decide

theorem one_sound (x : Nat) (b : Sector) : (one x b).vol.Sound (one x b).sectors := oneVol_sound

abbrev unusedSector : Sector := Block.zero 512

/-- A directory with an unused entry comes to an end, whatever its links are. -/
theorem scans_return_unused : (∀ a, (one 2 unusedSector).IsDir a →
    (∀ name, ∃ r, (dirFind a name).Answers (one 2 unusedSector) r) ∧
      ∀ n83 : List UInt8, n83.length = 11 →
        ∃ b, (dir83Exists a n83).Answers (one 2 unusedSector) b) ∧
    ∀ path, ∃ r, (fat32Readdir path).Answers (one 2 unusedSector) r := by
  have hzero : ∀ e, (one 2 unusedSector).slotOf 2 0 = some e → e.first = 0 := by
    intro e he
    have hslot : (one 2 unusedSector).slotOf 2 0 = some ((Block.zero 512).slice 0 32) := by rfl
    rw [hslot, Option.some.injEq] at he
    rw [← he]
    rfl
  have honly : ∀ a, (one 2 unusedSector).IsDir a → a = 2 := by
    intro a ha
    induction ha with
    | root => rfl
    | sub _ hs he _ _ ih =>
        subst ih
        cases hs with
        | unreadable h => cases he
        | zero h h0 => cases he
        | last h h0 => exact absurd (hzero _ h) h0
        | next h h0 => exact absurd (hzero _ h) h0
        | hop h h0 => exact absurd (hzero _ h) h0
  refine (scans_return_iff (one_steady _ _) (one_sound _ _)).mpr fun a ha => ?_
  rw [honly a ha]
  exact ⟨0, Or.inl ⟨0, by decide, hzero⟩⟩

def deletedSector : Sector := fun _ => 0xE5

theorem ring_link : (one 2 deletedSector).link 2 = 2 := by decide +kernel

theorem ring_used :
    ∀ i < 16, ((one 2 deletedSector).slotOf 2 i).any (fun e => e.first != 0) = true := by
  decide +kernel

theorem ring_not_ends : ¬ (one 2 deletedSector).Ends 2 := by
  rintro ⟨n, hn⟩
  rw [Function.iterate_fixed ring_link] at hn
  rcases hn with ⟨i, hi, h⟩ | hl
  · have hused := ring_used i hi
    cases hslot : (one 2 deletedSector).slotOf 2 i with
    | none =>
        rw [hslot] at hused
        cases hused
    | some e =>
        rw [hslot] at hused
        exact bne_iff_ne.mp hused (h e hslot)
  · rw [ring_link] at hl
    exact hl (by decide)

/-- Listing a ring of deleted entries does not return. -/
theorem ring_readdir_diverges : (fat32Readdir [0x2F]).Diverges (one 2 deletedSector) := by
  have hno : ¬ ∃ es, (one 2 deletedSector).Sees 2 0 es := fun h =>
    ring_not_ends ((Store.ends_iff (by decide)).mpr h)
  refine Moves.diverges_bind Store.stays_store (fun s hs => ?_) ⟨one_steady _ _, rfl⟩
  refine Moves.diverges_bind (a := some ⟨rootEntry (one 2 deletedSector).vol, ⟨0, 0, 0, 0⟩, 0⟩)
    (Store.stays_getStore Moves.pure) (fun s hs => ?_) hs
  have hdir : (rootEntry (one 2 deletedSector).vol).isDir = true := DirEntry.isDir_rootEntry
  dsimp only
  simp only [hdir, Bool.not_true, Bool.false_eq_true, if_false,
    dirTarget_rootEntry (one_sound 2 deletedSector)]
  exact diverges_bind_left (readdirCluster_diverges (by decide) (by decide) hno hs)

theorem not_scans_return : ¬ ∀ s : Drv, s.Steady → s.vol.Sound s.sectors →
    (∀ a, s.IsDir a → (∀ name, ∃ r, (dirFind a name).Answers s r) ∧
      ∀ n83 : List UInt8, n83.length = 11 → ∃ b, (dir83Exists a n83).Answers s b) ∧
    ∀ path, ∃ r, (fat32Readdir path).Answers s r := by
  intro hclaim
  obtain ⟨r, hr⟩ := (hclaim _ (one_steady 2 deletedSector) (one_sound _ _)).2 [0x2F]
  exact hr.not_diverges ring_readdir_diverges

end Chimaera.Fat32
