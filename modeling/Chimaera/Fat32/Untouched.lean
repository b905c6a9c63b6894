/-
Calls on other paths leave a file alone, over any run of calls.
-/
import Chimaera.Fat32.Renaming

namespace Chimaera.Fat32

open Prog

variable {R : Int → View → Prop} {w w' : View} {ch ch' : Nat → List Nat} {D D' : List Dir}
  {T : List Nat} {l l' : Listing} {run r : List DirEntry} {e x z : DirEntry}
  {a s t i j k n : Nat} {v : Vol} {src dst path q nm : CStr} {bs : List UInt8}

/-- What is found under a name in a directory of `D` is found there in `D'`. -/
def StillFound (D D' : List Dir) : Prop :=
  ∀ a nm f, ((listingOf D a).bind fun l => l.find nm) = some f →
    ((listingOf D' a).bind fun l => l.find nm) = some f

theorem listingOf_mem (h : listingOf D a = some l) : ⟨a, l⟩ ∈ D := by
  unfold listingOf at h
  obtain ⟨⟨b, m⟩, hf, rfl⟩ := Option.map_eq_some_iff.mp h
  have hb : b = a := by simpa using List.find?_some hf
  subst hb
  exact List.mem_of_find?_eq_some hf

/-- A walk that gets to its directory takes the same way. -/
theorem resolve_stillFound (hD : StillFound D D') {p : CStr} (h : (resolve v D a p).1 ≠ 0) :
    resolve v D' a p = resolve v D a p := by
  induction hn : p.length using Nat.strong_induction_on generalizing a p with
  | h n ih =>
      rw [resolve] at h
      conv_lhs => rw [resolve]
      conv_rhs => rw [resolve]
      by_cases hp : p = []
      · rw [if_pos hp, if_pos hp]
      rw [if_neg hp] at h ⊢
      rw [if_neg hp]
      by_cases hr : pathRest p = []
      · rw [if_pos hr, if_pos hr]
      rw [if_neg hr] at h ⊢
      rw [if_neg hr]
      cases hf : (listingOf D a).bind fun l => l.find (pathComp p) with
      | none => simp [hf] at h
      | some f =>
          rw [hf] at h
          rw [hD a _ f hf]
          simp only at h ⊢
          cases hdir : f.2.2.isDir with
          | false => rfl
          | true =>
              simp only [hdir, if_true] at h ⊢
              exact ih _ (hn ▸ length_pathRest_lt hp) h rfl

theorem resolveParent_stillFound (hD : StillFound D D') (h0 : (resolveParent v D path).1 ≠ 0) :
    resolveParent v D' path = resolveParent v D path := by
  unfold resolveParent at h0 ⊢
  split
  · exact resolve_stillFound hD h0
  · rfl

theorem PathAt.stillFound (hp : PathAt v D path s i run e) (hD : StillFound D D')
    (hnd : (D.map Dir.start).Nodup) (h0 : s ≠ 0) : PathAt v D' path s i run e := by
  obtain ⟨l, j, hd, rfl, hne, hfind, rfl⟩ := hp
  have hsame := resolveParent_stillFound hD h0
  have hfound := hD _ (resolveParent v D path).2 (j, run, e)
    (by rw [listingOf_start hnd hd]; exact hfind)
  obtain ⟨m, hm, hfind'⟩ := Option.bind_eq_some_iff.mp hfound
  refine ⟨m, j, listingOf_mem hm, ?_⟩
  rw [hsame]
  exact ⟨rfl, hne, hfind', rfl⟩

/-- A new entry in a directory of `D`, which answers to names that were free, and a new
directory. -/
theorem stillFound_inserted {N : List Dir} (hnd : (D.map Dir.start).Nodup) (hd : ⟨s, l⟩ ∈ D)
    (hins : l.Inserted l' j run e) (hnew : ∀ nm, called nm run e = true → l.find nm = none) :
    StillFound D (setListing D s l' ++ N) := by
  intro a nm f hf
  obtain ⟨m, hm, hfind⟩ := Option.bind_eq_some_iff.mp hf
  have happ : ∀ {x}, listingOf (setListing D s l') a = some x →
      listingOf (setListing D s l' ++ N) a = some x := by
    intro x hx
    unfold listingOf at hx ⊢
    obtain ⟨d, hd', rfl⟩ := Option.map_eq_some_iff.mp hx
    rw [List.find?_append, hd']
    rfl
  by_cases ha : a = s
  · subst ha
    obtain rfl : m = l := by
      rw [listingOf_start hnd hd] at hm
      exact (Option.some.inj hm).symm
    rw [happ ((listingOf_setListing hnd hd).trans (if_pos rfl)), Option.bind_some,
      hins.find (hnew nm), if_neg]
    · exact hfind
    · intro hc
      rw [hnew nm hc] at hfind
      cases hfind
  · rw [happ (((listingOf_setListing hnd hd).trans (if_neg ha)).trans hm), Option.bind_some]
    exact hfind

/-- Whatever `fat32_copy` copies, an error leaves all files, and otherwise the destination was
opened for writing and closed again. -/
theorem Holds.fat32Copy_refilled (h : w.Layout ch D T) (hspc : 2 ≤ w.vol.secPerClus)
    (hp : Printable dst)
    (herr : ∀ (err : Err) w' ch', w'.Layout ch' D T → Kept (fun _ _ => False) w ch D w' ch' D →
      w'.vol = w.vol → R err.code w')
    (hok : ∀ a i r x w' ch' D' s j run y, PathAt w.vol D src a i r x → x.isDir = false →
      w'.Layout ch' D' T → Refilled w ch D dst s j run y w' ch' D' → w.Evolves w' → R 0 w') :
    Holds (Fat32.fat32Copy src dst) R w := by
  by_cases hsrc : ∃ a i r x, PathAt w.vol D src a i r x ∧ x.isDir = false
  · obtain ⟨a, i, r, x, hsrc, hfile⟩ := hsrc
    apply Holds.fat32Copy_opens h hp.ne_zero (fun _ _ _ => hp.storable hspc) hsrc hfile
      fun err w' ch' _ => herr err w' ch'
    intro sf df w' ch' D' s j run e _ _ hsf hdf hne hlay hkept hevo _ hread hfdf ho hop _ _ _
    have hfeed : Feeding w ch D sf df s j run e D' T w' ch' :=
      ⟨hlay, hread, by rw [hfdf]; exact ho, hkept, hevo⟩
    exact hfeed.refilled hop hsf hdf hne fun w₃ ch₃ D₃ y =>
      hok a i r x w₃ ch₃ D₃ s j run y hsrc hfile
  · have hself := fun err => herr err w ch h Kept.refl rfl
    rw [Fat32.fat32Copy]
    apply Holds.getStore
    intro c hc
    rw [hc.mounted]
    cases w.mounted with
    | false => exact Holds.pure (hself Err.noDev)
    | true =>
        simp only [Bool.not_true, Bool.false_eq_true, if_false]
        apply Holds.fat32Open_read h
        · intro err _
          rw [if_pos err.code_neg]
          exact Holds.pure (hself Err.notFound)
        · intro fd s i run e _ _ hpath hfile _
          exact absurd ⟨s, i, run, e, hpath, hfile⟩ hsrc

/-- The path still names the same entry, which has the content `bs`. -/
def Lasts (v : Vol) (q : CStr) (t j : Nat) (r : List DirEntry) (z : DirEntry) (bs : List UInt8)
    (w : View) : Prop :=
  ∃ ch D, w.Layout ch D [] ∧ w.vol = v ∧ PathAt v D q t j r z ∧ w.content ch z = bs

section Other

variable (h : w.Layout ch D []) (hq : PathAt w.vol D q t j r z) (hfile : z.isDir = false)

include h hq hfile

theorem lasts_of_kept (h' : w'.Layout ch' D [])
    (hk : Kept (fun _ _ => False) w ch D w' ch' D) (hv : w'.vol = w.vol) :
    Lasts w.vol q t j r z (w.content ch z) w' :=
  ⟨ch', D, h', hv, hq, h.content_kept hk hv hq.entryAt id hfile⟩

theorem lasts_of_refilled (hr : Refilled w ch D path s i run x w' ch' D')
    (h' : w'.Layout ch' D' []) (hz : ∀ c ∈ path, c ≠ 0)
    (hnm : (resolveParent w.vol D path).2 ≠ []) (hno : ¬ Denotes w.vol D path t j) :
    Lasts w.vol q t j r z (w.content ch z) w' := by
  have hv : w'.vol = w.vol := by
    obtain ⟨-, -, -, -, -, -, -, hv⟩ := hr
    exact hv
  obtain ⟨hp, hc⟩ := hr.othersKept h hz hnm q t j r z hq hfile fun hp => hno ⟨r, z, hp⟩
  exact ⟨ch', D', h', hv, hv ▸ hp, hc⟩

theorem lasts_of_deleted {y : DirEntry} {run : List DirEntry} (hd : ⟨s, l⟩ ∈ D)
    (hat : l.At i run y) (hdel : l.Deleted l' i run y) (hy : y.isDir = false)
    (h' : w'.Layout ch (setListing D s l') [])
    (hk : Kept (fun t k => t = s ∧ k = i) w ch D w' ch (setListing D s l')) (hv : w'.vol = w.vol)
    (hne : ¬ (t = s ∧ j = i)) : Lasts w.vol q t j r z (w.content ch z) w' :=
  ⟨ch, _, h', hv, hq.deleted h.tree.nodup hd hdel hat hy (hq.parent_ne h) hne,
    h.content_kept hk hv hq.entryAt hne hfile⟩

/-- `fat32_write_file` on another path. -/
theorem Holds.fat32WriteFile_other {data : List UInt8} (hspc : 2 ≤ w.vol.secPerClus)
    (hp : Printable path) (hnm : (resolveParent w.vol D path).2 ≠ [])
    (hno : ¬ Denotes w.vol D path t j) :
    Holds (Fat32.fat32WriteFile path data)
      (fun _ => Lasts w.vol q t j r z (w.content ch z)) w := by
  rw [Fat32.fat32WriteFile]
  apply Holds.fat32Open_opened h hp.ne_zero fun _ _ => hp.storable hspc
  · intro err w' ch' _ hl' hkept hevo _
    rw [if_pos err.code_neg]
    exact Holds.pure (lasts_of_kept h hq hfile hl' hkept hevo.vol)
  · intro fd w' ch' D' s i run e _ hlt _ hl' hkept hevo hfds ho hop _ _ _
    rw [if_neg (by omega)]
    apply Holds.fat32Write_layout hl' hlt (by rw [hfds, Function.update_self]) ho
    intro m w'' ch'' f' _ hl'' hkept' hevo' _ ho' hfds'
    apply Holds.fat32Close_layout hl'' hlt (by rw [hfds', Function.update_self]) ho'
    intro w₃ l l' hd hup hl₃ hkept₃ hevo₃ _ _ _
    have hr : Refilled w ch D path s i run (stored e f') w₃ ch'' (setListing D' s l') :=
      ⟨hop, hl''.tree.nodup, ho'.file, hd, hup, fun b hb => byte_stored hb,
        (hkept.trans hkept').trans hkept₃, ((hevo.trans hevo').trans hevo₃).vol⟩
    exact Holds.pure (lasts_of_refilled h hq hfile hr hl₃ hp.ne_zero hnm hno)

/-- `fat32_append_file` on another path. -/
theorem Holds.fat32AppendFile_other {data : List UInt8} (hspc : 2 ≤ w.vol.secPerClus)
    (hp : Printable path) (hnm : (resolveParent w.vol D path).2 ≠ [])
    (hno : ¬ Denotes w.vol D path t j) :
    Holds (Fat32.fat32AppendFile path data)
      (fun _ => Lasts w.vol q t j r z (w.content ch z)) w := by
  have hwrite : ∀ (w' : View) (buf : List UInt8), w'.vol = w.vol → w'.fat = w.fat →
      w'.sec = w.sec → Holds (Fat32.fat32WriteFile path buf)
        (fun _ => Lasts w.vol q t j r z (w.content ch z)) w' := by
    intro w' buf hv hf hsec
    have hcontent : w'.content ch z = w.content ch z :=
      h.content_kept (X := fun _ _ => False) (Kept.refl.of_sec hsec) hv hq.entryAt id hfile
    rw [← hcontent, ← hv]
    rw [← hv] at hq hspc hnm hno
    exact Holds.fat32WriteFile_other (h.of_eq hv hf hsec) hq hfile hspc hp hnm hno
  have hself : ∀ w' : View, w'.vol = w.vol → w'.fat = w.fat → w'.sec = w.sec →
      Lasts w.vol q t j r z (w.content ch z) w' := fun w' hv hf hsec =>
    lasts_of_kept h hq hfile (h.of_eq hv hf hsec) (Kept.refl.of_sec hsec) hv
  rw [Fat32.fat32AppendFile]
  apply Holds.fat32Filesize h
  intro sz
  by_cases hneg : sz < 0
  · rw [if_pos hneg]
    exact hwrite w _ rfl rfl rfl
  · rw [if_neg hneg]
    apply Holds.kmalloc
    intro b w₁ hv₁ hf₁ hsec₁
    have hl₁ := h.of_eq hv₁ hf₁ hsec₁
    cases b with
    | false =>
        simp only [Bool.false_eq_true, if_false]
        exact Holds.pure (hself w₁ hv₁ hf₁ hsec₁)
    | true =>
        simp only [if_true]
        apply Holds.fat32Open_read hl₁
        · intro err _
          rw [if_neg (by have := err.code_neg; omega), pure_bind]
          exact hwrite w₁ _ hv₁ hf₁ hsec₁
        · intro fd s i run e hlt _ _ _ hread
          rw [if_pos (by omega)]
          have hevolves : w₁.Evolves (w₁.setFd fd (openFd w₁.vol (ch s) false s i e)) :=
            View.Evolves.setFd
          have hread₂ := hread.evolves hevolves
          obtain ⟨f, hf⟩ : ∃ f, f = openFd w₁.vol (ch s) false s i e := ⟨_, rfl⟩
          rw [← hf] at hread₂ ⊢
          have hl₂ : (w₁.setFd fd f).Layout ch D [] := h.of_eq hv₁ hf₁ hsec₁
          have hfd : (w₁.setFd fd f).fds fd = f := by rw [View.fds_setFd, Function.update_self]
          apply Holds.fat32Read_tame hl₂.chains hlt hfd hread₂.isOpen hread₂.tame hread₂.size_lt
          intro bytes cur _ _ _
          have hfd' : ((w₁.setFd fd f).setFd fd (f.reads bytes.length cur)).fds fd =
              f.reads bytes.length cur := by rw [View.fds_setFd, Function.update_self]
          apply Holds.fat32Close_read hlt hfd' hread₂.isOpen hread₂.write
          rw [pure_bind]
          exact hwrite _ _ hv₁ hf₁ hsec₁

/-- `fat32_copy` to another path. -/
theorem Holds.fat32Copy_other (hspc : 2 ≤ w.vol.secPerClus) (hp : Printable dst)
    (hnm : (resolveParent w.vol D dst).2 ≠ []) (hno : ¬ Denotes w.vol D dst t j) :
    Holds (Fat32.fat32Copy src dst) (fun _ => Lasts w.vol q t j r z (w.content ch z)) w := by
  apply Holds.fat32Copy_refilled h hspc hp
  · exact fun err w' ch' hl' hkept hv => lasts_of_kept h hq hfile hl' hkept hv
  · exact fun a i r x w' ch' D' s j run y _ _ hl' hr _ =>
      lasts_of_refilled h hq hfile hr hl' hp.ne_zero hnm hno

/-- `fat32_mkdir` of another path. -/
theorem Holds.fat32Mkdir_other (hspc : 2 ≤ w.vol.secPerClus) (hp : Printable path) :
    Holds (Fat32.fat32Mkdir path) (fun _ => Lasts w.vol q t j r z (w.content ch z)) w := by
  rw [← bind_pure (Fat32.fat32Mkdir path)]
  apply Holds.fat32Mkdir_new h hspc hp.ne_zero fun l _ => hp.resolveParent.pick83_ne _
  · intro err w' ch' hl' hkept hevo _
    exact Holds.pure (lasts_of_kept h hq hfile hl' hkept hevo.vol)
  · intro k up l l' o w' ch' _ hno _ hnm hd hins hl' hkept hevo _
    have hfound := stillFound_inserted (N := [⟨k, newDir w.vol k up⟩]) h.tree.nodup hd hins
      fun nm => (called_created h hp.ne_zero hno hd hnm nm).2
    have h0 : t ≠ 0 := by
      obtain ⟨⟨b, m⟩, hb, rfl, -⟩ := hq.entryAt
      exact h.start_ne_zero hb
    exact Holds.pure ⟨ch', _, hl', hevo.vol, hq.stillFound hfound h.tree.nodup h0,
      h.content_kept hkept hevo.vol hq.entryAt id hfile⟩

/-- `fat32_unlink` of another path. -/
theorem Holds.fat32Unlink_other (hno : ¬ Denotes w.vol D path t j) :
    Holds (Fat32.fat32Unlink path) (fun _ => Lasts w.vol q t j r z (w.content ch z)) w := by
  rw [← bind_pure (Fat32.fat32Unlink path)]
  apply Holds.fat32Unlink h
  · exact fun err _ => Holds.pure (lasts_of_kept h hq hfile h Kept.refl rfl)
  · intro s l l' o run e w' hd hs hfind hnm hy hdel hl' hkept hevo _
    refine Holds.pure (lasts_of_deleted h hq hfile hd (Listing.find_at hfind) hdel hy hl' hkept
      hevo.vol ?_)
    rintro ⟨rfl, rfl⟩
    exact hno ⟨run, e, l, o, hd, hs.symm, hnm, hfind, rfl⟩

/-- `fat32_rename` of another file to another path. -/
theorem Holds.fat32Rename_other (hspc : 2 ≤ w.vol.secPerClus) (hp : Printable dst)
    (hnm : (resolveParent w.vol D dst).2 ≠ []) (hno : ¬ Denotes w.vol D dst t j)
    (hnosrc : ¬ Denotes w.vol D src t j) :
    Holds (Fat32.fat32Rename src dst) (fun _ => Lasts w.vol q t j r z (w.content ch z)) w := by
  have hself : Lasts w.vol q t j r z (w.content ch z) w :=
    lasts_of_kept h hq hfile h Kept.refl rfl
  rw [Fat32.fat32Rename]
  apply Holds.getStore
  intro c hc
  rw [hc.mounted]
  cases hm : w.mounted with
  | false => exact Holds.pure hself
  | true =>
      simp only [Bool.not_true, Bool.false_eq_true, if_false]
      refine Holds.bind ?_
      apply Holds.fat32Copy_refilled h hspc hp
      · intro err w' ch' hl' hkept hv
        rw [if_pos (by have := err.code_neg; omega)]
        exact Holds.pure (lasts_of_kept h hq hfile hl' hkept hv)
      · intro a i r' x w' ch' D' s k run y hsrc hx hl' hr hevo
        rw [if_neg (by decide)]
        have hne : ¬ (t = a ∧ j = i) := by
          rintro ⟨rfl, rfl⟩
          exact hnosrc ⟨r', x, hsrc⟩
        obtain ⟨hq', hcontent⟩ := hr.othersKept h hp.ne_zero hnm q t j r z hq hfile
          fun hp => hno ⟨r, z, hp⟩
        apply Holds.fat32Unlink_refilled hr h hl' (hevo.mounted.trans hm) hp.ne_zero hnm hsrc hx
        intro w₂ m m' z' hd hat hdel hz' hl₂ hkept₂ hv₂
        rw [← hcontent]
        have hlasts := lasts_of_deleted hl' hq' hfile hd hat hdel hz' hl₂ hkept₂
          (hv₂.trans hevo.vol.symm) hne
        rwa [hevo.vol] at hlasts

end Other

namespace Call

def written : Call → List CStr
  | writeFile path _ => [path]
  | appendFile path _ => [path]
  | mkdir _ => []
  | unlink _ => []
  | copy _ dst => [dst]
  | rename _ dst => [dst]

def targets : Call → List CStr
  | writeFile path _ => [path]
  | appendFile path _ => [path]
  | mkdir _ => []
  | unlink path => [path]
  | copy _ dst => [dst]
  | rename src dst => [src, dst]

/-- The call is not about the file that `q` names. -/
structure Spares (call : Call) (q : CStr) (s : Drv) : Prop where
  named : ∀ p ∈ call.written, s.Named p
  differ : ∀ p ∈ call.targets, s.Differ p q

theorem lasts (call : Call) (h : w.Layout ch D []) (hspc : 2 ≤ w.vol.secPerClus)
    (hp : ∀ p ∈ call.paths, Printable p) (hq : PathAt w.vol D q t j r z)
    (hfile : z.isDir = false) (hnm : ∀ p ∈ call.written, (resolveParent w.vol D p).2 ≠ [])
    (hno : ∀ p ∈ call.targets, ¬ Denotes w.vol D p t j) :
    Holds call.run (fun _ => Lasts w.vol q t j r z (w.content ch z)) w := by
  cases call with
  | writeFile path data =>
      exact Holds.fat32WriteFile_other h hq hfile hspc (hp path (by simp [paths]))
        (hnm path (by simp [written])) (hno path (by simp [targets]))
  | appendFile path data =>
      exact Holds.fat32AppendFile_other h hq hfile hspc (hp path (by simp [paths]))
        (hnm path (by simp [written])) (hno path (by simp [targets]))
  | mkdir path => exact Holds.fat32Mkdir_other h hq hfile hspc (hp path (by simp [paths]))
  | unlink path => exact Holds.fat32Unlink_other h hq hfile (hno path (by simp [targets]))
  | copy src dst =>
      exact Holds.fat32Copy_other h hq hfile hspc (hp dst (by simp [paths]))
        (hnm dst (by simp [written])) (hno dst (by simp [targets]))
  | rename src dst =>
      exact Holds.fat32Rename_other h hq hfile hspc (hp dst (by simp [paths]))
        (hnm dst (by simp [written])) (hno dst (by simp [targets])) (hno src (by simp [targets]))

/-- One call leaves the file and the volume as they are wanted. -/
theorem spares_fileIs (call : Call) {s : Drv} (hs : s.Ready) (hc : s.Consistent)
    (hspc : 2 ≤ s.vol.secPerClus) (hp : ∀ p ∈ call.paths, Printable p) (hf : s.FileIs q bs)
    (hq : call.Spares q s) :
    call.run.wp (fun _ s' => s'.Ready ∧ s'.Consistent ∧ s'.vol = s.vol ∧ s'.FileIs q bs) s := by
  obtain ⟨w, hw, ch, D, h⟩ := hc
  obtain ⟨t, j, r, z, hpath, hfile, rfl⟩ := (h.fileIs_iff hs hw).mp hf
  refine ((call.lasts h (hw.vol ▸ hspc) hp hpath hfile ?_ ?_).wp hs hw).mono ?_
  · exact fun p hp => (h.named_iff hs hw p).mp (hq.named p hp)
  · rintro p hp ⟨r', z', hden⟩
    exact hq.differ p hp _ _ (h.answers_pathAt hs hw hden) (h.answers_pathAt hs hw hpath) rfl
  · rintro a s' ⟨hs', w', hw', ch', D', h', hv, hpath', hcontent⟩
    refine ⟨hs', ⟨w', hw', ch', D', h'⟩, by rw [hw'.vol, hv, hw.vol], ?_⟩
    exact (h'.fileIs_iff hs' hw').mpr ⟨t, j, r, z, hv ▸ hpath', hfile, hcontent⟩

end Call

def runAll : List Call → Prog Drv (List Int)
  | [] => pure []
  | call :: calls => do
      let err ← call.run
      let errs ← runAll calls
      pure (err :: errs)

/-- None of the calls is about the file that `q` names when it starts. -/
def Drv.Spared (q : CStr) : List Call → Drv → Prop
  | [], _ => True
  | call :: calls, s => call.Spares q s ∧ ∀ err s', call.run.Runs s err s' → s'.Spared q calls

/-- A file that no call of a run is about has its content after the run, whatever the calls
answer. -/
theorem runAll_keeps {calls : List Call} {s : Drv} (hs : s.Ready) (hc : s.Consistent)
    (hspc : 2 ≤ s.vol.secPerClus) (hp : ∀ call ∈ calls, ∀ p ∈ call.paths, Printable p)
    (hf : s.FileIs q bs) (hq : s.Spared q calls) :
    (runAll calls).wp (fun _ s' => s'.Ready ∧ s'.Consistent ∧ s'.vol = s.vol ∧
      s'.FileIs q bs) s := by
  induction calls generalizing s with
  | nil => exact wp_pure.mpr ⟨hs, hc, rfl, hf⟩
  | cons call calls ih =>
      obtain ⟨hspares, hrest⟩ := hq
      obtain ⟨err, s₁, hrun, hs₁, hc₁, hv₁, hf₁⟩ := call.spares_fileIs hs hc hspc
        (hp call List.mem_cons_self) hf hspares
      have hafter := ih hs₁ hc₁ (hv₁.symm ▸ hspc)
        (fun c hc => hp c (List.mem_cons_of_mem call hc)) hf₁ (hrest err s₁ hrun)
      rw [runAll, wp_bind, hrun.wp_iff, wp_bind]
      refine hafter.mono fun errs s' hs' => wp_pure.mpr ?_
      rwa [← hv₁]

/-- A second file beside the directory `SUB`, and one more directory. -/
theorem runAll_keeps_stocked :
    (runAll [Call.writeFile [0x2F, 0x42] [1], Call.mkdir [0x2F, 0x43]]).wp
      (fun _ s' => s'.Ready ∧ s'.Consistent ∧ s'.vol = stocked.vol ∧
        s'.FileIs (0x2F :: letterName) letterBytes) stocked := by
  refine runAll_keeps stocked_ready stocked_consistent (by decide) ?_ stocked_fileIs ⟨⟨?_, ?_⟩, ?_⟩
  · intro call hcall p hp
    rcases List.mem_pair.mp hcall with rfl | rfl
    · rw [List.mem_singleton.mp hp]
      simp [Printable]
    · rw [List.mem_singleton.mp hp]
      simp [Printable]
  · intro p hp r hr
    rw [List.mem_singleton.mp hp] at hr
    have hparent : (pathResolveParent [0x2F, 0x42]).Answers stocked (2, [0x42]) :=
      answers_of_run (n := 5) (by decide +kernel)
    rw [hr.det hparent]
    decide
  · intro p hp q q' hq _
    rw [List.mem_singleton.mp hp] at hq
    have hstat : ((pathStat [0x2F, 0x42]).run 10 stocked).map (fun r => r.1.isNone) = some true := by
      decide +kernel
    obtain ⟨⟨o, t⟩, hrun, hnone⟩ := Option.map_eq_some_iff.mp hstat
    rw [← hq.det ⟨t, 10, hrun⟩] at hnone
    cases hnone
  · exact fun _ _ _ => ⟨⟨by simp [Call.written], by simp [Call.targets]⟩, fun _ _ _ => trivial⟩

/-- What `fat32_read_file` asks for: a size that an `int32_t` counts, room in the arena, and
a descriptor. -/
structure Drv.ReadsWhole (s : Drv) (len : Nat) : Prop where
  counted : len < 2147483648
  room : u32 (s.heapPtr + u32 (u32 (len + 1) + 3) / 4 * 4) ≤ 2097152
  mounted : s.volMounted = true
  fd : ∃ i < 16, (s.fds i).isOpen = false

/-- Opening a file that is there for reading fails only for want of a mount or a descriptor. -/
theorem Holds.fat32Open_file {α : Type} {R : α → View → Prop} {g : Int → Prog Drv α}
    (h : w.Layout ch D T) (hp : PathAt w.vol D path s i run e) (hfile : e.isDir = false)
    (herr : ∀ err : Err, ¬ (w.mounted = true ∧ ∃ k < 16, (w.fds k).isOpen = false) →
      Holds (g err.code) R w)
    (hopen : ∀ fd < 16, (w.fds fd).isOpen = false → w.mounted = true →
      Holds (g fd) R (w.setFd fd (openFd w.vol (ch s) false s i e))) :
    Holds (Fat32.fat32Open path false >>= g) R w := by
  apply Holds.fat32Open h
  · intro err hno
    refine herr err fun ⟨hm, k, hk, hclosed⟩ => hno ⟨hm, fun hw => absurd hw (by decide),
      View.exists_freeFd hk hclosed, fun p hp' => ?_, fun hnone => ?_⟩
    · rw [statPath_of_pathAt h hp, Option.some.injEq] at hp'
      rw [← hp']
      exact hfile
    · rw [statPath_of_pathAt h hp] at hnone
      cases hnone
  · intro fd p hfd hstat hpfile hm _
    obtain ⟨s', i', run', hpath, hpe⟩ := exists_pathAt h hstat hpfile
    obtain ⟨rfl, rfl, rfl, rfl⟩ := hpath.unique hp h.tree.nodup
    exact Holds.openExisting_read hpe
      (hopen fd (View.freeFd_lt hfd) (View.freeFd_closed hfd) hm)
  · exact fun fd _ _ hw => absurd hw (by decide)

/-- `fat32_read_file` hands out the content of the file, all of it or nothing. -/
theorem Holds.fat32ReadFile_file (h : w.Layout ch D T) (hp : PathAt w.vol D path s i run e)
    (hfile : e.isDir = false) :
    Holds (Fat32.fat32ReadFile path) (fun out w' => w'.vol = w.vol ∧ w'.fat = w.fat ∧
      w'.sec = w.sec ∧ (out = none ∨ out = some (w.content ch e)) ∧
      (out ≠ none ↔ e.size < 2147483648 ∧
        u32 (w.heapPtr + u32 (u32 (e.size + 1) + 3) / 4 * 4) ≤ 2097152 ∧ w.mounted = true ∧
        ∃ i < 16, (w.fds i).isOpen = false)) w := by
  have h32 := DirEntry.size_lt e
  rw [Fat32.fat32ReadFile]
  apply Holds.fat32Filesize_file h hp hfile
  by_cases hneg : i32 e.size < 0
  · rw [if_pos hneg]
    refine Holds.pure ⟨rfl, rfl, rfl, Or.inl rfl, iff_of_false (fun hno => hno rfl) ?_⟩
    rintro ⟨hlt, -⟩
    rw [i32_of_lt hlt] at hneg
    omega
  have hlt : e.size < 2147483648 := by
    unfold i32 at hneg
    omega
  rw [if_neg hneg, i32_of_lt hlt, Int.toNat_natCast]
  apply Holds.kmalloc_heap
  · intro hno
    simp only [Bool.false_eq_true, if_false]
    refine Holds.pure ⟨rfl, rfl, rfl, Or.inl rfl, iff_of_false (fun hn => hn rfl) ?_⟩
    rintro ⟨-, hle, -⟩
    omega
  intro hroom
  simp only [if_true]
  obtain ⟨w₁, hw₁⟩ : ∃ w₁ : View,
      w₁ = { w with heapPtr := u32 (w.heapPtr + u32 (u32 (e.size + 1) + 3) / 4 * 4) } := ⟨_, rfl⟩
  rw [← hw₁]
  have hl₁ : w₁.Layout ch D T := by
    rw [hw₁]
    exact h.of_eq rfl rfl rfl
  have hself : w₁.vol = w.vol ∧ w₁.fat = w.fat ∧ w₁.sec = w.sec ∧ w₁.fds = w.fds ∧
      w₁.mounted = w.mounted := by
    rw [hw₁]
    exact ⟨rfl, rfl, rfl, rfl, rfl⟩
  obtain ⟨hv, hf, hsec, hfds, hmounted⟩ := hself
  apply Holds.fat32Open_file hl₁ (hv ▸ hp) hfile
  · intro err hno
    rw [if_pos err.code_neg]
    refine Holds.pure ⟨hv, hf, hsec, Or.inl rfl, iff_of_false (fun hn => hn rfl) ?_⟩
    rw [hmounted, hfds] at hno
    exact fun hall => hno hall.2.2
  · intro fd hlt' hclosed hm
    rw [if_neg (by omega)]
    obtain ⟨w₂, hw₂⟩ : ∃ w₂, w₂ = w₁.setFd fd (openFd w₁.vol (ch s) false s i e) := ⟨_, rfl⟩
    rw [← hw₂]
    have hl₂ : w₂.Layout ch D T := by
      rw [hw₂]
      exact hl₁.of_eq rfl rfl rfl
    have hread : Reading w₂ ch D fd s i run e 0 :=
      reading_openFd hl₂ hp.entryAt hfile (by rw [hw₂, View.fds_setFd, Function.update_self])
    apply Holds.fat32Read_reading hl₂ hread hlt'
    intro f hread'
    apply Holds.fat32Close_read hlt' rfl hread'.isOpen hread'.write
    have hcontent : w₂.content ch e = w.content ch e :=
      h.content_kept (X := fun _ _ => False) (Kept.refl.of_sec (by rw [hw₂]; exact hsec))
        (by rw [hw₂]; exact hv) hp.entryAt id hfile
    have hall : ((w₂.content ch e).drop 0).take e.size = w.content ch e := by
      rw [List.drop_zero, hcontent, List.take_of_length_le (by rw [length_content])]
    rw [hall, Nat.sub_zero, Nat.min_self, i32_of_lt hlt, if_neg (by omega)]
    refine Holds.pure ⟨?_, ?_, ?_, Or.inr rfl,
      iff_of_true (by simp) ⟨hlt, hroom, hmounted ▸ hm, fd, hlt', hfds ▸ hclosed⟩⟩
    · rw [View.vol_setFd, View.vol_setFd, hw₂, View.vol_setFd, hv]
    · rw [hw₂]
      exact hf
    · rw [hw₂]
      exact hsec

/-- `fat32_read_file` hands out the content of the file or nothing, the latter exactly if the
size is too large, the arena is full, or no descriptor is left; nothing on the volume
changes. -/
theorem fat32ReadFile_exact {s : Drv} (hs : s.Ready) (hc : s.Consistent) (hf : s.FileIs q bs) :
    (fat32ReadFile q).wp (fun out s' => (out = none ∨ out = some bs) ∧
      (out ≠ none ↔ s.ReadsWhole bs.length) ∧ s'.vol = s.vol ∧
      ∀ p cs, s'.FileIs p cs ↔ s.FileIs p cs) s := by
  obtain ⟨w, hw, ch, D, h⟩ := hc
  obtain ⟨t, j, r, z, hpath, hfile, rfl⟩ := (h.fileIs_iff hs hw).mp hf
  refine ((Holds.fat32ReadFile_file h hpath hfile).wp hs hw).mono ?_
  rintro out s' ⟨hs', w', hw', hv, hfat, hsec, hout, hiff⟩
  refine ⟨hout, hiff.trans ?_, by rw [hw'.vol, hv, hw.vol], fun p cs => ?_⟩
  · rw [length_content, ← hw.heapPtr, ← hw.mounted, ← hw.fds]
    exact ⟨fun ⟨h₁, h₂, h₃, h₄⟩ => ⟨h₁, h₂, h₃, h₄⟩, fun ⟨h₁, h₂, h₃, h₄⟩ => ⟨h₁, h₂, h₃, h₄⟩⟩
  · have h' := h.of_eq hv hfat hsec
    rw [h'.fileIs_iff hs' hw', h.fileIs_iff hs hw]
    exact ⟨fun hp => hp.kept h' (Kept.refl.of_sec hsec.symm) hv.symm,
      fun hp => hp.kept h (Kept.refl.of_sec hsec) hv⟩

/-- A file of two clusters is read whole. -/
theorem fat32ReadFile_exact_stocked :
    (fat32ReadFile (0x2F :: letterName)).wp (fun out s' =>
      out = some letterBytes ∧ s'.vol = stocked.vol ∧
        ∀ p cs, s'.FileIs p cs ↔ stocked.FileIs p cs) stocked := by
  refine (fat32ReadFile_exact stocked_ready stocked_consistent stocked_fileIs).mono ?_
  rintro out s' ⟨hout, hiff, hkept⟩
  have hreads : stocked.ReadsWhole 5000 := ⟨by decide, by decide, rfl, 0, by decide, rfl⟩
  rw [length_letterBytes] at hiff
  exact ⟨hout.resolve_left (hiff.mpr hreads), hkept⟩

/-- The entry of a new directory under its path. -/
theorem pathAt_created {N : List Dir} (h : w.Layout ch D T) (hz : ∀ c ∈ path, c ≠ 0)
    (hno : statPath w.vol ch D path = none) (hnm : (resolveParent w.vol D path).2 ≠ [])
    (hd : ⟨(resolveParent w.vol D path).1, l⟩ ∈ D)
    (hins : l.Inserted l' j (newPieces l (resolveParent w.vol D path).2) e) :
    PathAt w.vol (setListing D (resolveParent w.vol D path).1 l' ++ N) path
      (resolveParent w.vol D path).1 (j + (newPieces l (resolveParent w.vol D path).2).length)
      (newPieces l (resolveParent w.vol D path).2) e := by
  have hnew := called_created h hz hno hd hnm (e := e)
  have hfound := stillFound_inserted (N := N) h.tree.nodup hd hins fun nm => (hnew nm).2
  refine ⟨l', j, List.mem_append_left N ((mem_setListing hd).mpr (Or.inr rfl)), ?_⟩
  rw [resolveParent_stillFound hfound (h.start_ne_zero hd), hins.find (hnew _).2, if_pos]
  · exact ⟨rfl, hnm, rfl, rfl⟩
  · rw [(hnew _).1, sameName, beq_self_eq_true]

/-- `fat32_mkdir`, and a listing of the path. -/
def mkdirThenList (path : CStr) : Prog Drv (Int × Int × List Dirent) := do
  let err ← fat32Mkdir path
  let (n, out) ← fat32Readdir path
  pure (err, n, out)

theorem Holds.mkdirThenList {R : Int × Int × List Dirent → View → Prop} (h : w.Layout ch D T)
    (hspc : 2 ≤ w.vol.secPerClus) (hp : Printable path)
    (herr : ∀ (err : Err) w' ch' out, w'.Layout ch' D T →
      Kept (fun _ _ => False) w ch D w' ch' D → w'.vol = w.vol → R (err.code, out) w')
    (hok : ∀ w' ch' D', w'.Layout ch' D' T → Kept (fun _ _ => False) w ch D w' ch' D' →
      StillFound D D' → w'.vol = w.vol → R (0, 0, []) w') :
    Holds (Fat32.mkdirThenList path) R w := by
  refine Holds.of_sound fun n hs => ?_
  rw [Fat32.mkdirThenList]
  apply Holds.fat32Mkdir_new h hspc hp.ne_zero fun l _ => hp.resolveParent.pick83_ne _
  · intro err w' ch' hl' hkept hevo _
    apply Holds.fat32Readdir hl'
    exact Holds.pure (herr err w' ch' _ hl' hkept hevo.vol)
  · intro k up l l' o w' ch' hm hno hk hnm hd hins hl' hkept hevo _
    apply Holds.fat32Readdir hl'
    have hpath := pathAt_created (N := [⟨k, newDir w.vol k up⟩]) h hp.ne_zero hno hnm hd hins
    have hdir : (newEntry l (resolveParent w.vol D path).2 0x10 k 0).isDir = true := by
      rw [newEntry, DirEntry.isDir, shortEntry_attr]
      decide
    have hcl : (newEntry l (resolveParent w.vol D path).2 0x10 k 0).cluster = k :=
      shortEntry_cluster (by have := hs.inRange_lt hk; omega)
    have hk0 : k ≠ 0 := by
      have := hk.1
      omega
    have hlist : readdirPath w' ch' (setListing D (resolveParent w.vol D path).1 l' ++
        [⟨k, newDir w.vol k up⟩]) path = (0, []) := by
      rw [readdirPath, hevo.mounted, hm,
        statPath_of_pathAt hl' (by rw [hevo.vol]; exact hpath)]
      simp only [hdir, Bool.not_true, Bool.false_eq_true, if_false]
      rw [Vol.dirTarget, hcl, if_neg hk0,
        hl'.listingOf (d := ⟨k, newDir w.vol k up⟩) (List.mem_append_right _ List.mem_cons_self)]
      rfl
    rw [hlist]
    refine Holds.pure (hok w' ch' _ hl' hkept ?_ hevo.vol)
    exact stillFound_inserted h.tree.nodup hd hins fun nm =>
      (called_created h hp.ne_zero hno hd hnm nm).2

/-- `fat32_mkdir` makes a directory that is there and empty, or nothing, and keeps every
file. -/
theorem fat32Mkdir_empty {s : Drv} (hs : s.Ready) (hc : s.Consistent)
    (hspc : 2 ≤ s.vol.secPerClus) (hp : Printable path) :
    (mkdirThenList path).wp (fun out s' => (out.1 = 0 → out.2 = (0, [])) ∧ s'.Ready ∧
      s'.Consistent ∧ ∀ q bs, s.FileIs q bs → s'.FileIs q bs) s := by
  obtain ⟨w, hw, ch, D, h⟩ := hc
  have hrun : Holds (mkdirThenList path) (fun out w' => (out.1 = 0 → out.2 = (0, [])) ∧
      ∃ ch' D', w'.Layout ch' D' [] ∧ ∀ q bs, w.FileIs ch D q bs → w'.FileIs ch' D' q bs) w := by
    apply Holds.mkdirThenList h (hw.vol ▸ hspc) hp
    · intro err w' ch' out hl' hkept hv
      refine ⟨fun h0 => absurd h0 (by have := err.code_neg; simp only; omega), ch', D, hl', ?_⟩
      exact fun q bs hf => hf.kept h hkept hv
    · intro w' ch' D' hl' hkept hfound hv
      refine ⟨fun _ => rfl, ch', D', hl', ?_⟩
      rintro q bs ⟨t, j, r, z, hq, hfile, rfl⟩
      refine ⟨t, j, r, z, ?_, hfile, h.content_kept hkept hv hq.entryAt id hfile⟩
      rw [hv]
      refine hq.stillFound hfound h.tree.nodup ?_
      obtain ⟨⟨b, m⟩, hb, rfl, -⟩ := hq.entryAt
      exact h.start_ne_zero hb
  refine (hrun.wp hs hw).mono ?_
  rintro out s' ⟨hs', w', hw', hout, ch', D', h', hfiles⟩
  refine ⟨hout, hs', ⟨w', hw', ch', D', h'⟩, fun q bs hf => ?_⟩
  exact (h'.fileIs_iff hs' hw').mpr (hfiles q bs ((h.fileIs_iff hs hw).mp hf))

theorem fat32Mkdir_empty_holding :
    (mkdirThenList [0x2F, 0x42]).wp (fun out s' => (out.1 = 0 → out.2 = (0, [])) ∧ s'.Ready ∧
      s'.Consistent ∧ ∀ q bs, holding.FileIs q bs → s'.FileIs q bs) holding :=
  fat32Mkdir_empty holding_ready holding_consistent (by decide) (by simp [Printable])

end Chimaera.Fat32
