/-
Files by path on a layout: the path names an entry, and the entry has a content.
-/
import Chimaera.Fat32.Storing

namespace Chimaera.Fat32

open Prog

variable {β : Type} {R : β → View → Prop} {w w' : View} {ch ch' : Nat → List Nat}
  {D D' : List Dir} {T : List Nat} {run : List DirEntry} {e : DirEntry} {s i n : Nat}
  {path : CStr} {bs cs : List UInt8} {t : Drv}

/-- The path names a file with the content `bs`. -/
def View.FileIs (w : View) (ch : Nat → List Nat) (D : List Dir) (path : CStr)
    (bs : List UInt8) : Prop :=
  ∃ s i run e, PathAt w.vol D path s i run e ∧ e.isDir = false ∧ w.content ch e = bs

theorem View.Layout.fileIs_iff (h : w.Layout ch D T) (ht : t.Ready) (hw : t.toStore.Shows w) :
    t.FileIs path bs ↔ w.FileIs ch D path bs := by
  have hstat := h.answers_stat ht hw path
  constructor
  · rintro ⟨p, hp, hfile, hbs⟩
    obtain ⟨s, i, run, hpath, -⟩ := exists_pathAt h (hstat.det hp) hfile
    exact ⟨s, i, run, p.entry, hpath, hfile,
      ((h.content_iff hw hpath.entryAt hfile).mp hbs).symm⟩
  · rintro ⟨s, i, run, e, hpath, hfile, rfl⟩
    exact ⟨⟨e, posAt w.vol 0 (ch s) i, s⟩, statPath_of_pathAt h hpath ▸ hstat, hfile,
      (h.content_iff hw hpath.entryAt hfile).mpr rfl⟩

theorem View.FileIs.iff (h : w.FileIs ch D path bs) (hnd : (D.map Dir.start).Nodup) :
    w.FileIs ch D path cs ↔ cs = bs := by
  constructor
  · rintro ⟨s, i, run, e, hpath, -, rfl⟩
    obtain ⟨s', i', run', e', hpath', -, rfl⟩ := h
    obtain ⟨-, -, -, rfl⟩ := hpath.unique hpath' hnd
    rfl
  · rintro rfl
    exact h

theorem View.FileIs.kept (hf : w.FileIs ch D path bs) (h : w.Layout ch D T)
    (hk : Kept (fun _ _ => False) w ch D w' ch' D) (hv : w'.vol = w.vol) :
    w'.FileIs ch' D path bs := by
  obtain ⟨s, i, run, e, hpath, hfile, rfl⟩ := hf
  exact ⟨s, i, run, e, hv ▸ hpath, hfile, h.content_kept hk hv hpath.entryAt id hfile⟩

/-- The same volume, with the same descriptors in use. -/
structure View.Alike (w w' : View) : Prop where
  vol : w'.vol = w.vol
  fat : w'.fat = w.fat
  sec : w'.sec = w.sec
  mounted : w'.mounted = w.mounted
  readonly : w'.readonly = w.readonly
  isOpen : ∀ j, (w'.fds j).isOpen = (w.fds j).isOpen

namespace View.Alike

theorem layout (h : w.Alike w') (hl : w.Layout ch D T) : w'.Layout ch D T :=
  hl.of_eq h.vol h.fat h.sec

theorem pathAt (h : w.Alike w') (hp : PathAt w.vol D path s i run e) :
    PathAt w'.vol D path s i run e := by
  rw [h.vol]
  exact hp

theorem content (h : w.Alike w') (hl : w.Layout ch D T) (he : EntryAt D s i run e)
    (hfile : e.isDir = false) : w'.content ch e = w.content ch e :=
  hl.content_kept (X := fun _ _ => False) (Kept.refl.of_sec h.sec) h.vol he id hfile

theorem freeCount (h : w.Alike w') : w'.freeCount = w.freeCount :=
  View.freeCount_congr h.vol h.fat

theorem admits_iff (h : w.Alike w') {write : Bool} :
    Admits w' ch D path write ↔ Admits w ch D path write := by
  have hfree : w'.freeFd = w.freeFd := by
    unfold View.freeFd
    congr 1
    funext j
    rw [h.isOpen]
  constructor
  · rintro ⟨hm, hro, hroom, hfile, hfound⟩
    rw [h.vol] at hfile hfound
    exact ⟨h.mounted ▸ hm, h.readonly ▸ hro, hfree ▸ hroom, hfile, hfound⟩
  · rintro ⟨hm, hro, hroom, hfile, hfound⟩
    rw [← h.vol] at hfile hfound
    exact ⟨h.mounted.symm ▸ hm, h.readonly.symm ▸ hro, hfree.symm ▸ hroom, hfile, hfound⟩

end View.Alike

/-- A path that names a file may be opened for writing only if it may be opened for
reading. -/
theorem Admits.read (h : Admits w ch D path true) (hl : w.Layout ch D T)
    (hp : PathAt w.vol D path s i run e) : Admits w ch D path false := by
  refine ⟨h.mounted, fun hw => absurd hw (by decide), h.room, h.file, fun hno => ?_⟩
  rw [statPath_of_pathAt hl hp] at hno
  cases hno

/-- The size of a file, which can come out negative. -/
theorem Holds.fat32Filesize_file {g : Int → Prog Drv β} (h : w.Layout ch D T)
    (hp : PathAt w.vol D path s i run e) (hfile : e.isDir = false)
    (hg : Holds (g (i32 e.size)) R w) : Holds (Fat32.fat32Filesize path >>= g) R w := by
  rw [Fat32.fat32Filesize, bind_assoc]
  apply Holds.pathStat h
  rw [statPath_of_pathAt h hp]
  simp only [hfile, Bool.false_eq_true, if_false, pure_bind]
  exact hg

/-- `fat32_write_file` on a file that is there. -/
theorem Holds.fat32WriteFile_file {R : Int → View → Prop} (h : w.Layout ch D T)
    (hz : ∀ c ∈ path, c ≠ 0) (hp : PathAt w.vol D path s i run e) (hfile : e.isDir = false)
    (h32 : bs.length < 4294967296)
    (hn : n = (fileChain ch e).length + w.freeCount)
    (herr : ∀ (err : Err) w' ch', (Admits w ch D path true → n = 0) → w'.Layout ch' D T →
      w'.FileIs ch' D path (w.content ch e) → R err.code w')
    (hok : ∀ w' ch' D', Admits w ch D path true → n ≠ 0 → w'.Layout ch' D' T →
      w'.FileIs ch' D' path (bs.take (n * (w.vol.secPerClus * 512))) →
      R (if i32 (min bs.length (n * (w.vol.secPerClus * 512))) < 0 then Err.io.code else 0) w') :
    Holds (Fat32.fat32WriteFile path bs) R w := by
  have hstat := statPath_of_pathAt h hp
  have hroom := View.Room.existing (w := w) hstat
  simp only [← hn] at hroom
  have hne := hp.parent_ne h
  apply Holds.fat32WriteFile h hz (fun _ hno => ?_) h32
  · intro err w' ch' hno hlay hkept hevo
    refine herr err w' ch' (fun ha => hno ha hne n hroom) hlay ?_
    exact View.FileIs.kept ⟨s, i, run, e, hp, hfile, rfl⟩ h hkept hevo.vol
  · intro m q w' ch' D' ha _ hm h0 hq hlay hstored
    obtain rfl := hm.unique hroom h.tree.nodup
    subst hq
    have htake : bs.take (min bs.length (m * (w.vol.secPerClus * 512))) =
        bs.take (m * (w.vol.secPerClus * 512)) := by
      rw [Nat.min_comm, ← List.take_take, List.take_of_length_le (Nat.le_refl _)]
    refine hok w' ch' D' ha h0 hlay ?_
    rw [← htake]
    exact hstored.named hp.name_ne
  · rw [hstat] at hno
    cases hno

/-- All other files keep their paths and their contents. -/
def View.OthersKept (w : View) (ch : Nat → List Nat) (D : List Dir) (path : CStr) (w' : View)
    (ch' : Nat → List Nat) (D' : List Dir) : Prop :=
  ∀ q s i run e, PathAt w.vol D q s i run e → e.isDir = false →
    ¬ PathAt w.vol D path s i run e →
    PathAt w'.vol D' q s i run e ∧ w'.content ch' e = w.content ch e

theorem Refilled.of_sec {w'' : View} (hr : Refilled w ch D path s i run e w' ch' D')
    (hv : w''.vol = w'.vol) (hsec : w''.sec = w'.sec) :
    Refilled w ch D path s i run e w'' ch' D' := by
  obtain ⟨ho, hnd, hfile, hd, hup, hb, hk, hv'⟩ := hr
  exact ⟨ho, hnd, hfile, hd, hup, hb, hk.of_sec hsec, hv.trans hv'⟩

/-- Between an open and a close nothing but the opened file changes. -/
theorem Refilled.othersKept (hr : Refilled w ch D path s i run e w' ch' D')
    (h : w.Layout ch D T) (hz : ∀ c ∈ path, c ≠ 0) (hnm : (resolveParent w.vol D path).2 ≠ []) :
    w.OthersKept ch D path w' ch' D' := by
  obtain ⟨ho, hnd, hfile, hd, hup, hb, hk, hv⟩ := hr
  intro q a j r z hq hz' hother
  have hplace : ¬ (a = s ∧ j = i) := by
    rintro ⟨rfl, rfl⟩
    exact hother (ho.pathAt h hq.entryAt)
  have hopen := ho.pathAt_other h hz hfile hnm hq hplace
  refine ⟨?_, h.content_kept hk hv hq.entryAt hplace hz'⟩
  rw [hv]
  exact hopen.updated_other hnd hd hup hb hfile hplace

/-- Every file with another name keeps its content. -/
def OthersKeep (path : CStr) (s s' : Drv) : Prop :=
  ∀ q bs, s.FileIs q bs → s.Differ path q → s'.FileIs q bs

theorem View.OthersKept.keeps {t' : Drv} (hk : w.OthersKept ch D path w' ch' D')
    (h : w.Layout ch D T) (ht : t.Ready) (hw : t.toStore.Shows w) (h' : w'.Layout ch' D' T)
    (ht' : t'.Ready) (hw' : t'.toStore.Shows w') : OthersKeep path t t' := by
  intro q bs hfile hdiff
  obtain ⟨a, j, r, z, hq, hz, hcontent⟩ := (h.fileIs_iff ht hw).mp hfile
  have hother : ¬ PathAt w.vol D path a j r z := fun hp =>
    hdiff _ _ (statPath_of_pathAt h hp ▸ h.answers_stat ht hw path)
      (statPath_of_pathAt h hq ▸ h.answers_stat ht hw q) rfl
  obtain ⟨hpath, hsame⟩ := hk q a j r z hq hz hother
  exact (h'.fileIs_iff ht' hw').mpr ⟨a, j, r, z, hpath, hz, hsame.trans hcontent⟩

/-- The root directory is one cluster, its files have none, and nothing else is
allocated. -/
structure View.Flat (w : View) (l : Listing) : Prop where
  root : w.vol.InRange w.vol.rootCluster
  eoc : 0x0FFFFFF8 ≤ w.fat w.vol.rootCluster
  free : ∀ k, w.vol.InRange k → k ≠ w.vol.rootCluster → w.fat k = 0
  slots : w.slots [w.vol.rootCluster] = l.slots
  files : ∀ run e, Item.entry run e ∈ l.items → e.isDir = false ∧ e.cluster = 0 ∧ e.size = 0

theorem View.Flat.layout {l : Listing} (h : w.Flat l) :
    w.Layout (fun _ => [w.vol.rootCluster]) [⟨w.vol.rootCluster, l⟩] [] := by
  have hchain : w.Chain w.vol.rootCluster [w.vol.rootCluster] :=
    Links.Chain.cons_iff.mpr ⟨rfl, h.root, Links.Chain.nil_iff.mpr h.eoc⟩
  have hnone : l.targets = [] := by
    refine List.filterMap_eq_nil_iff.mpr fun it hit => ?_
    cases it with
    | hole e => rfl
    | dot e => rfl
    | entry run e => exact Item.target_none (h.files run e hit).2.1
  have hstarts : starts w.vol [⟨w.vol.rootCluster, l⟩] ++ [] = [w.vol.rootCluster] := by
    simp [starts, hnone]
  refine ⟨⟨?_, ?_, ?_⟩, ⟨⟨_, List.mem_singleton_self _, rfl⟩, by simp, ?_, ?_, ?_, ?_⟩⟩
  · intro a ha
    rw [hstarts, List.mem_singleton] at ha
    subst ha
    exact ⟨hchain, by simp⟩
  · rw [hstarts]
    simp
  · intro k hk h0 _
    rw [hstarts]
    by_contra hne
    exact h0 (h.free k hk (by simpa using hne))
  · intro d hd
    rw [List.mem_singleton] at hd
    subst hd
    exact h.slots
  · intro d hd run e he hdir
    rw [List.mem_singleton] at hd
    subst hd
    rw [(h.files run e he).1] at hdir
    cases hdir
  · intro d hd
    rw [List.mem_singleton] at hd
    subst hd
    exact Reach.root
  · intro d hd run e he _
    rw [List.mem_singleton] at hd
    subst hd
    rw [(h.files run e he).2.2]
    exact Nat.zero_le _

/-- A directory with the file `A` in its first slot. -/
def Listing.bare : Listing where
  items := [.entry [] bareFile]
  tail := List.replicate 127 (Block.zero 32)
  ok := by
    intro it hit
    rw [List.mem_singleton] at hit
    subst hit
    exact ⟨⟨trivial, by decide⟩, by decide, by decide, by decide, by decide⟩
  zero := ZeroTail.zeros 127

/-- The fresh volume of four clusters, with the empty file `A` in its root directory. -/
def holding : Drv :=
  { fresh 4 with
    toStore := (fresh 4).toStore.setSec 2 0 ((Block.zero 512).patch 0 bareFile.toList) }

theorem holding_ready : holding.Ready := by
  obtain ⟨h₁, h₂, h₃, h₄, h₅⟩ := fresh_ready (n := 4) (by omega)
  exact ⟨h₁, h₂, h₃, Or.inl rfl, h₅⟩

theorem holding_shows : holding.toStore.Shows ((fresh 4).toStore.view.setSlot [2] 0 bareFile) :=
  fresh_shows.setSec (k := 2) (j := 0) ⟨by decide, by decide⟩ (by decide) _

theorem holding_layout : ((fresh 4).toStore.view.setSlot [2] 0 bareFile).Layout (fun _ => [2])
    [⟨2, Listing.bare⟩] [] := by
  have he := (fresh_blank (n := 4) (by omega) (by omega)).empty
  have hflat : ((fresh 4).toStore.view.setSlot [2] 0 bareFile).Flat Listing.bare := by
    refine ⟨he.root, he.eoc, he.free, ?_, ?_⟩
    · have hslots : ((fresh 4).toStore.view.setSlot [2] 0 bareFile).slots [2] =
          ((fresh 4).toStore.view.slots [2]).set 0 bareFile :=
        View.slots_setSlot (by decide) (by decide)
      have hblank : (fresh 4).toStore.view.slots [2] = List.replicate 128 (Block.zero 32) :=
        View.slots_zero he.zero
      refine hslots.trans ?_
      rw [hblank]
      rfl
    · intro run e hmem
      rw [Listing.bare, List.mem_singleton] at hmem
      cases hmem
      exact ⟨by decide, by decide, by decide⟩
  exact hflat.layout

theorem holding_consistent : holding.Consistent := ⟨_, holding_shows, _, _, holding_layout⟩

theorem holding_pathAt : PathAt holding.vol [⟨2, Listing.bare⟩] [0x2F, 0x41] 2 0 [] bareFile := by
  have hres : resolveParent holding.vol [⟨2, Listing.bare⟩] [0x2F, 0x41] = (2, [0x41]) :=
    resolveParent_single (by decide) (by decide) (by simp)
  refine ⟨Listing.bare, 0, List.mem_singleton_self _, ?_⟩
  rw [hres]
  exact ⟨rfl, by decide, by decide, rfl⟩

theorem holding_fileIs : holding.FileIs [0x2F, 0x41] [] :=
  (holding_layout.fileIs_iff holding_ready holding_shows).mpr
    ⟨2, 0, [], bareFile, holding_pathAt, by decide, rfl⟩

theorem holding_admits : Admits ((fresh 4).toStore.view.setSlot [2] 0 bareFile) (fun _ => [2])
    [⟨2, Listing.bare⟩] [0x2F, 0x41] true := by
  refine ⟨rfl, fun _ => rfl, View.freeFd_ne_none fun _ => rfl, fun p hp => ?_, fun _ => rfl⟩
  rw [statPath_of_pathAt holding_layout holding_pathAt, Option.some.injEq] at hp
  rw [← hp]
  decide

theorem holding_freeCount : ((fresh 4).toStore.view.setSlot [2] 0 bareFile).freeCount = 3 :=
  freeCount_fresh

theorem stocked_content :
    stocked.toStore.view.content stockedChain letterEntry = letterBytes := by
  have hsec : ∀ k j, k = 4 ∨ k = 5 → j < 8 → stocked.toStore.view.sec k j = fun _ => 0x61 := by
    intro k j hk hj
    have hr : stocked.vol.InRange k := by
      rcases hk with rfl | rfl <;> decide
    change (if stocked.vol.InRange k ∧ j < 8 then stocked.disk (48 + (k - 2) * 8 + j) else _) = _
    rw [if_pos ⟨hr, hj⟩]
    simp only [stocked]
    rw [if_neg (by omega), if_neg (by omega), if_neg (by omega), if_pos (by omega)]
  rw [letterBytes]
  refine List.eq_replicate_iff.mpr ⟨by rw [View.content, List.length_map, List.length_range]; decide,
    fun b hb => ?_⟩
  obtain ⟨p, hp, rfl⟩ := List.mem_map.mp hb
  have hp : p < 5000 := List.mem_range.mp hp
  have hchain : fileChain stockedChain letterEntry = [4, 5] := by decide +kernel
  have hk : ([4, 5] : List Nat).getD (p / 512 / 8) 0 = 4 ∨
      ([4, 5] : List Nat).getD (p / 512 / 8) 0 = 5 := by
    obtain h | h : p / 512 / 8 = 0 ∨ p / 512 / 8 = 1 := by omega
    · exact Or.inl (by rw [h]; rfl)
    · exact Or.inr (by rw [h]; rfl)
  rw [hchain, View.fileByte]
  change (stocked.toStore.view.sec (([4, 5] : List Nat).getD (p / 512 / 8) 0) (p / 512 % 8)).byte _ = _
  rw [hsec _ _ hk (by omega), Block.byte, dif_pos (by omega)]

theorem stocked_fileIs : stocked.FileIs (0x2F :: letterName) letterBytes :=
  (stocked_layout.fileIs_iff stocked_ready stocked_shows).mpr
    ⟨2, 3, _, letterEntry, stocked_pathAt, by decide, stocked_content⟩

end Chimaera.Fat32
