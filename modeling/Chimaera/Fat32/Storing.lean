/-
What `fat32_write_file` and `fat32_copy` store, and when their answer says so.
-/
import Chimaera.Fat32.Cursor
import Chimaera.Fat32.Unlink

namespace Chimaera.Fat32

open Prog

variable {β : Type} {R : β → View → Prop} {w w' : View} {ch ch' : Nat → List Nat}
  {D D' : List Dir} {S T : List Nat} {l l' : Listing} {run r : List DirEntry} {e x y : DirEntry}
  {a s i j k n fd cap : Nat} {f : Fd} {v : Vol} {path src dst nm p : CStr} {bs buf : List UInt8}

/-- The directory that a component of a path leads to. -/
def Listing.subdir (l : Listing) (nm : CStr) : Option DirEntry :=
  (l.find nm).bind fun r => if r.2.2.isDir then some r.2.2 else none

/-- A step of the walk. -/
theorem resolve_step (hp : p ≠ []) (hr : pathRest p ≠ []) : resolve v D a p =
    (((listingOf D a).bind fun l => l.subdir (pathComp p)).elim (0, []) fun e =>
      resolve v D (v.dirTarget e) (pathRest p)) := by
  rw [resolve, if_neg hp, if_neg hr]
  cases listingOf D a with
  | none => rfl
  | some l =>
      rw [Option.bind_some, Option.bind_some, Listing.subdir]
      cases l.find (pathComp p) with
      | none => rfl
      | some r => cases hdir : r.2.2.isDir <;> simp [hdir]

/-- A walk depends on the directories only. -/
theorem resolve_setListing (hnd : (D.map Dir.start).Nodup) (hd : ⟨s, l⟩ ∈ D)
    (h : ∀ nm, l'.subdir nm = l.subdir nm) :
    resolve v (setListing D s l') a p = resolve v D a p := by
  induction hn : p.length using Nat.strong_induction_on generalizing a p with
  | h n ih =>
      by_cases hp : p = []
      · rw [resolve, resolve, if_pos hp, if_pos hp]
      by_cases hr : pathRest p = []
      · rw [resolve, resolve, if_neg hp, if_neg hp, if_pos hr, if_pos hr]
      have hlook : ((listingOf (setListing D s l') a).bind fun l => l.subdir (pathComp p)) =
          (listingOf D a).bind fun l => l.subdir (pathComp p) := by
        rw [listingOf_setListing hnd hd]
        split
        · next ha =>
          subst ha
          rw [listingOf_start hnd hd, Option.bind_some, Option.bind_some, h]
        · rfl
      rw [resolve_step hp hr, resolve_step hp hr, hlook]
      cases (listingOf D a).bind fun l => l.subdir (pathComp p) with
      | none => rfl
      | some e => exact ih _ (hn ▸ length_pathRest_lt hp) rfl

theorem resolveParent_setListing (v : Vol) (path : CStr) (hnd : (D.map Dir.start).Nodup) (hd : ⟨s, l⟩ ∈ D)
    (h : ∀ nm, l'.subdir nm = l.subdir nm) :
    resolveParent v (setListing D s l') path = resolveParent v D path := by
  unfold resolveParent
  split
  · exact resolve_setListing hnd hd h
  · rfl

theorem findFrom_at {items : List Item} {b : Nat} (h : findFrom nm b items = some (j, r, x)) :
    At (j + r.length) r x b items := by
  obtain ⟨pre, post, rfl, rfl, -⟩ := findFrom_eq_some h
  exact at_split b r x pre post

/-- Entries that differ behind their names answer to the same names. -/
theorem called_congr (h : ∀ b < 20, e.byte b = x.byte b) : called nm run e = called nm run x := by
  unfold called
  rw [DirEntry.name_congr h]

namespace Listing

/-- Lookups after the short entry in slot `i` was rewritten. -/
theorem Updated.find (h : l.Updated l' i run x e) (hc : called nm run e = called nm run x) :
    l'.find nm = (l.find nm).map fun r => if r.1 + r.2.1.length = i then (r.1, r.2.1, e) else r := by
  obtain ⟨pre, post, heq, rfl, heq'⟩ := h
  unfold Listing.find
  rw [heq, heq', findFrom_append, findFrom_append, Nat.zero_add, findFrom, findFrom, hc]
  cases hpre : findFrom nm 0 pre with
  | some q =>
      obtain ⟨j, r, y⟩ := q
      have hlt := (findFrom_at hpre).lt
      rw [Option.some_or, Option.some_or, Option.map_some, if_neg (by simp only; omega)]
  | none =>
      rw [Option.none_or, Option.none_or]
      cases called nm run x with
      | true => simp
      | false =>
          simp only [Bool.false_eq_true, if_false]
          cases hpost : findFrom nm ((pre.flatMap Item.slots).length + (run.length + 1)) post with
          | none => rfl
          | some q =>
              obtain ⟨j, r, y⟩ := q
              have hge := (findFrom_at hpost).ge
              rw [Option.map_some, if_neg (by simp only; omega)]

theorem Updated.subdir (h : l.Updated l' i run x e) (hb : ∀ b < 20, e.byte b = x.byte b)
    (hfile : x.isDir = false) : l'.subdir nm = l.subdir nm := by
  unfold Listing.subdir
  rw [h.find (called_congr hb)]
  cases hfind : l.find nm with
  | none => rfl
  | some r =>
      rw [Option.map_some, Option.bind_some, Option.bind_some]
      split
      · next hi =>
        have hat : l.At (r.1 + r.2.1.length) r.2.1 r.2.2 := find_at hfind
        rw [hi] at hat
        obtain ⟨pre, post, heq, hpre, -⟩ := h
        have hx : l.At i run x := by
          have := at_split 0 run x pre post
          unfold At
          rwa [heq, hpre, ← Nat.zero_add (pre.flatMap Item.slots).length]
        obtain ⟨-, hxe⟩ := hat.unique hx
        rw [hxe, hfile, (DirEntry.isDir_congr hb).trans hfile]
        rfl
      · rfl

/-- A new file adds no directory. -/
theorem Inserted.subdir (h : l.Inserted l' s run e) (hfile : e.isDir = false)
    (hnew : called nm run e = true → l.find nm = none) : l'.subdir nm = l.subdir nm := by
  unfold Listing.subdir
  rw [h.find hnew]
  split
  · next hc =>
    rw [hnew hc, Option.bind_some, hfile]
    rfl
  · rfl

end Listing

theorem PathAt.name_ne (h : PathAt v D path s i run e) : (resolveParent v D path).2 ≠ [] := by
  obtain ⟨l, j, -, -, hne, -⟩ := h
  exact hne

theorem PathAt.parent_ne (hp : PathAt w.vol D path s i run e) (h : w.Layout ch D T) :
    (resolveParent w.vol D path).1 ≠ 0 := by
  obtain ⟨l, j, hd, rfl, -⟩ := hp
  exact h.start_ne_zero hd

theorem statPath_of_pathAt (h : w.Layout ch D T) (hp : PathAt w.vol D path s i run e) :
    statPath w.vol ch D path = some ⟨e, posAt w.vol 0 (ch s) i, s⟩ := by
  obtain ⟨l, j, hd, rfl, hne, hfind, rfl⟩ := hp
  have hs0 := h.start_ne_zero hd
  have hroot : path ≠ [0x2F] := by
    rintro rfl
    rw [resolveParent, resolve, if_pos rfl] at hne
    exact hne rfl
  rw [statPath, if_neg hroot, if_neg (not_or.mpr ⟨hs0, hne⟩), h.listingOf hd, Option.bind_some,
    Listing.found, hfind]
  rfl

/-- A path still names its file when the short entry was rewritten behind the
name. -/
theorem PathAt.updated (h : PathAt v D path s i run x) (hnd : (D.map Dir.start).Nodup)
    (hd : ⟨s, l⟩ ∈ D) (hup : l.Updated l' i run x e) (hb : ∀ b < 20, e.byte b = x.byte b)
    (hfile : x.isDir = false) : PathAt v (setListing D s l') path s i run e := by
  obtain ⟨l₀, j, hd₀, hs, hne, hfind, rfl⟩ := h
  obtain rfl : l₀ = l := (Dir.mk.inj (eq_of_start_eq hnd hd₀ hd rfl)).2
  have hres := resolveParent_setListing v path hnd hd fun nm => hup.subdir hb hfile
  refine ⟨l', j, (mem_setListing hd).mpr (Or.inr rfl), ?_⟩
  rw [hres, hup.find (called_congr hb), hfind]
  exact ⟨hs, hne, by simp, rfl⟩

/-- The last component does not depend on the directories that the walk goes
through. -/
theorem resolve_snd {D D' : List Dir} {a a' : Nat} (h : (resolve v D a p).1 ≠ 0)
    (h' : (resolve v D' a' p).1 ≠ 0) : (resolve v D a p).2 = (resolve v D' a' p).2 := by
  induction hn : p.length using Nat.strong_induction_on generalizing a a' p with
  | h n ih =>
      by_cases hp : p = []
      · rw [resolve, resolve, if_pos hp, if_pos hp]
      by_cases hr : pathRest p = []
      · rw [resolve, resolve, if_neg hp, if_neg hp, if_pos hr, if_pos hr]
      rw [resolve_step hp hr] at h ⊢
      rw [resolve_step hp hr] at h'
      rw [resolve_step hp hr]
      cases hf : (listingOf D a).bind fun l => l.subdir (pathComp p) with
      | none => simp [hf] at h
      | some e =>
          cases hf' : (listingOf D' a').bind fun l => l.subdir (pathComp p) with
          | none => simp [hf'] at h'
          | some e' =>
              rw [hf, Option.elim_some] at h
              rw [hf', Option.elim_some] at h'
              rw [Option.elim_some, Option.elim_some]
              exact ih _ (hn ▸ length_pathRest_lt hp) h h' rfl

/-- A path that ends with two slashes names nothing, whatever the directories. -/
theorem statPath_of_name_nil (hne : (resolveParent v D path).1 ≠ 0)
    (hnil : (resolveParent v D path).2 = []) (hroot : path ≠ [0x2F]) :
    statPath v ch' D' path = none := by
  rw [statPath, if_neg hroot]
  refine if_pos ?_
  by_cases h0 : (resolveParent v D' path).1 = 0
  · exact Or.inl h0
  · right
    unfold resolveParent at hne hnil h0 ⊢
    split
    · next rest =>
      rw [resolve_snd h0 hne]
      exact hnil
    · rfl

theorem View.Layout.find_eq_none (h : w.Layout ch D T) (hp : statPath w.vol ch D path = none)
    (hd : ⟨(resolveParent w.vol D path).1, l⟩ ∈ D) (hne : (resolveParent w.vol D path).2 ≠ []) :
    l.find (resolveParent w.vol D path).2 = none := by
  have hroot : path ≠ [0x2F] := by
    rintro rfl
    rw [statPath, if_pos rfl] at hp
    cases hp
  rw [statPath, if_neg hroot, if_neg (not_or.mpr ⟨h.start_ne_zero hd, hne⟩), h.listingOf hd,
    Option.bind_some, Option.map_eq_none_iff, Listing.found, Option.map_eq_none_iff] at hp
  exact hp

/-- A new entry answers to no name that was there. -/
theorem called_created (h : w.Layout ch D T) (hz : ∀ c ∈ path, c ≠ 0)
    (hp : statPath w.vol ch D path = none) (hd : ⟨(resolveParent w.vol D path).1, l⟩ ∈ D)
    (hne : (resolveParent w.vol D path).2 ≠ []) {e : DirEntry} (nm : CStr) :
    (called nm (newPieces l (resolveParent w.vol D path).2) e =
      sameName nm (resolveParent w.vol D path).2) ∧
    (called nm (newPieces l (resolveParent w.vol D path).2) e = true → l.find nm = none) := by
  obtain ⟨hlen, hmem⟩ := resolveParent_name (v := w.vol) (D := D) path
  have hno := h.find_eq_none hp hd hne
  have hcalled : called nm (newPieces l (resolveParent w.vol D path).2) e =
      sameName nm (resolveParent w.vol D path).2 :=
    called_newPieces (List.length_pos_iff.mpr hne) hlen fun c hc => hz c (hmem c hc).1
  refine ⟨hcalled, fun hc => ?_⟩
  rw [hcalled] at hc
  exact Listing.find_of_sameName hc hno

/-- The entry behind a fresh descriptor is the one that the path names. -/
theorem Opened.names (ho : Opened w ch D path D' s i run e) (h : w.Layout ch D T)
    (hz : ∀ c ∈ path, c ≠ 0) (hfile : e.isDir = false)
    (hne : (resolveParent w.vol D path).2 ≠ []) : PathAt w.vol D' path s i run e := by
  cases ho with
  | existing l l' x hp hd hup hb hD =>
      subst hD
      exact hp.updated h.tree.nodup hd hup hb ((DirEntry.isDir_congr hb).symm.trans hfile)
  | created l l' j k hp hs hd hrun he hins hi hD =>
      subst hD hs hrun
      have hnew := fun nm => called_created h hz hp hd hne (e := e) nm
      have hres := resolveParent_setListing w.vol path h.tree.nodup hd
        fun nm => hins.subdir hfile (hnew nm).2
      refine ⟨l', j, (mem_setListing hd).mpr (Or.inr rfl), ?_⟩
      rw [hres, hins.find (hnew _).2, if_pos]
      · exact ⟨rfl, hne, rfl, hi⟩
      · rw [(hnew _).1, sameName, beq_self_eq_true]

/-- Other entries keep their paths when an entry is rewritten behind its name. -/
theorem PathAt.updated_other {q : CStr} {t : Nat} {z : DirEntry} (h : PathAt v D q t j r z)
    (hnd : (D.map Dir.start).Nodup) (hd : ⟨s, l⟩ ∈ D) (hup : l.Updated l' i run x e)
    (hb : ∀ b < 20, e.byte b = x.byte b) (hfile : x.isDir = false) (hne : ¬ (t = s ∧ j = i)) :
    PathAt v (setListing D s l') q t j r z := by
  obtain ⟨l₀, j, hd₀, hs, hnm, hfind, rfl⟩ := h
  have hres := resolveParent_setListing v q hnd hd fun nm => hup.subdir hb hfile
  by_cases hts : t = s
  · subst hts
    obtain rfl : l₀ = l := (Dir.mk.inj (eq_of_start_eq hnd hd₀ hd rfl)).2
    refine ⟨l', j, (mem_setListing hd).mpr (Or.inr rfl), ?_⟩
    rw [hres, hup.find (called_congr hb), hfind]
    exact ⟨hs, hnm, by rw [Option.map_some, if_neg fun hi => hne ⟨rfl, hi⟩], rfl⟩
  · refine ⟨l₀, j, (mem_setListing hd).mpr (Or.inl ⟨hd₀, hts⟩), ?_⟩
    rw [hres]
    exact ⟨hs, hnm, hfind, rfl⟩

/-- Opening a file for writing leaves all others under their paths. -/
theorem Opened.pathAt_other {q : CStr} {t : Nat} {z : DirEntry}
    (ho : Opened w ch D path D' s i run e) (h : w.Layout ch D T) (hz : ∀ c ∈ path, c ≠ 0)
    (hfile : e.isDir = false) (hnm : (resolveParent w.vol D path).2 ≠ [])
    (hq : PathAt w.vol D q t j r z) (hne : ¬ (t = s ∧ j = i)) : PathAt w.vol D' q t j r z := by
  cases ho with
  | existing l l' x hp hd hup hb hD =>
      subst hD
      exact hq.updated_other h.tree.nodup hd hup hb ((DirEntry.isDir_congr hb).symm.trans hfile) hne
  | created l l' o k hp hs hd hrun he hins hi hD =>
      subst hD hs hrun
      have hnew := fun nm => (called_created h hz hp hd hnm (e := e) nm).2
      have hres := resolveParent_setListing w.vol q h.tree.nodup hd
        fun nm => hins.subdir hfile (hnew nm)
      obtain ⟨l₀, j, hd₀, hs, hqn, hfind, rfl⟩ := hq
      by_cases hts : t = (resolveParent w.vol D path).1
      · subst hts
        obtain rfl : l₀ = l := (Dir.mk.inj (eq_of_start_eq h.tree.nodup hd₀ hd rfl)).2
        refine ⟨l', j, (mem_setListing hd).mpr (Or.inr rfl), ?_⟩
        rw [hres, hins.find (hnew _), if_neg]
        · exact ⟨hs, hqn, hfind, rfl⟩
        · intro hc
          rw [hnew _ hc] at hfind
          cases hfind
      · refine ⟨l₀, j, (mem_setListing hd).mpr (Or.inl ⟨hd₀, hts⟩), ?_⟩
        rw [hres]
        exact ⟨hs, hqn, hfind, rfl⟩

theorem Written.take {m : Nat} (h : Written w ch a S fd f buf m w' ch') :
    Written w ch a S fd f (buf.take m) m w' ch' := by
  refine ⟨h.toTouched, h.fds, h.size_le, fun q hq => ?_⟩
  rw [h.bytes q hq]
  split
  · next hin =>
    rw [List.getD_eq_getElem?_getD, List.getD_eq_getElem?_getD,
      List.getElem?_take_of_lt (by omega)]
  · rfl

theorem StreamAt.inside {b : ByteFile} (h : StreamAt w ch a S fd cap b true)
    (hs : w.vol.Sound n) : (w.fds fd).Inside w.vol (ch a) := by
  have hcs : 0 < w.vol.secPerClus * 512 := by
    have := hs.spc_pos
    omega
  have hlen := List.length_pos_iff.mpr (h.chains.chain a List.mem_cons_self).2
  have hpos := Nat.le_trans b.pos_le h.size_le
  have hcur : (w.fds fd).Lazy w.vol (ch a) := by simpa using h.cursor
  refine ⟨⟨((w.fds fd).pos - 1) / (w.vol.secPerClus * 512), ?_, hcur, ?_⟩, ?_, ?_⟩
  · refine Nat.div_lt_of_lt_mul ?_
    rw [Nat.mul_comm, h.pos]
    have := Nat.mul_pos hlen hcs
    omega
  · have hlt := Nat.lt_mul_div_succ ((w.fds fd).pos - 1) hcs
    rw [Nat.mul_comm]
    omega
  · rw [h.size]
    exact h.size_le
  · rw [h.size]
    exact h.size_lt

/-- The descriptor `fd` is open on the entry `e` in slot `i` of the directory at
`s`, whose file can have `cap` clusters.  The bytes `bs` were written so far. -/
structure Filling (w : View) (ch : Nat → List Nat) (D : List Dir) (T : List Nat) (fd s i : Nat)
    (run : List DirEntry) (e : DirEntry) (cap : Nat) (bs : List UInt8) : Prop where
  layout : w.Layout ch D T
  openOn : OpenOn w ch D (w.fds fd) s i run e
  stream : StreamAt w ch e.cluster ((starts w.vol D).erase e.cluster ++ T) fd cap
    (ByteFile.written bs) true

/-- `fat32_write` behind what was written so far: it stops early only where the
clusters end. -/
theorem Holds.fat32Write_filling {g : Int → Prog Drv β}
    (h : Filling w ch D T fd s i run e cap bs) (hlt : fd < 16)
    (h32 : bs.length + buf.length < 4294967296)
    (hg : ∀ m w' ch', m ≤ buf.length →
      (m < buf.length → bs.length + m = cap * (w.vol.secPerClus * 512)) →
      Filling w' ch' D T fd s i run e cap (bs ++ buf.take m) →
      Kept (fun t j => t = s ∧ j = i) w ch D w' ch' D → w.Evolves w' →
      (∀ j, j ≠ fd → w'.fds j = w.fds j) → Holds (g (i32 m)) R w') :
    Holds (Fat32.fat32Write fd buf >>= g) R w := by
  refine Holds.of_sound fun n hs => ?_
  obtain ⟨hlay, ho, hst⟩ := h
  have hpos : (w.fds fd).pos = bs.length := hst.pos
  apply Holds.fat32Write hst.chains hlt rfl hst.isOpen hst.write hst.within (by simpa using hst.cursor)
    (by omega)
  intro m w' ch' hm hfull hwr
  obtain ⟨hlay', hkept⟩ := hwr.toTouched.layout hlay ho.entry ho.file ho.ne
  have hlen : (buf.take m).length = m := by
    rw [List.length_take]
    omega
  have hst' : StreamAt w' ch' e.cluster ((starts w'.vol D).erase e.cluster ++ T) fd cap
      (ByteFile.written (bs ++ buf.take m)) true := by
    have hwr' : Written w ch e.cluster ((starts w.vol D).erase e.cluster ++ T) fd (w.fds fd)
        (buf.take m) (buf.take m).length w' ch' := by
      rw [hlen]
      exact hwr.take
    have hstep := hst.of_written hwr' (by
      change bs.length + _ < _
      omega)
    rw [ByteFile.write_written] at hstep
    rw [hwr.vol]
    exact hstep
  have hcap := hst'.cap
  refine hg m w' ch' hm (fun hlt' => ?_) ⟨hlay', ?_, hst'⟩ hkept hwr.vars fun j hj => ?_
  · obtain ⟨h0, hend⟩ := hfull hlt'
    rw [← hpos, hend, ← hcap, h0, Nat.add_zero]
  · refine ho.moved hlay hwr.toTouched ⟨?_, ?_⟩
    · rw [← hwr.vol]
      exact hst'.inside (hwr.vol ▸ hs)
    · rw [hwr.fds, Function.update_self]
      rfl
  · rw [hwr.fds, Function.update_of_ne hj]

/-- `fat32_close` stores the entry of a file that was filled. -/
theorem Holds.fat32Close_filling {g : Unit → Prog Drv β}
    (h : Filling w ch D T fd s i run e cap bs) (hlt : fd < 16)
    (hg : ∀ w' l l' e', ⟨s, l⟩ ∈ D → l.Updated l' i run e e' → (∀ b < 20, e'.byte b = e.byte b) →
      w'.Layout ch (setListing D s l') T → w'.content ch e' = bs →
      Kept (fun t j => t = s ∧ j = i) w ch D w' ch (setListing D s l') → w.Evolves w' →
      w'.fds = Function.update w.fds fd Fd.closed → Holds (g ()) R w') :
    Holds (Fat32.fat32Close fd >>= g) R w := by
  obtain ⟨hlay, ho, hst⟩ := h
  apply Holds.fat32Close_layout hlay hlt rfl ho
  intro w' l l' hd hup hlay' hkept hevo hfds _ hsec
  refine hg w' l l' _ hd hup (fun b hb => byte_stored hb) hlay' ?_ hkept hevo hfds
  have hsize : (stored e (w.fds fd)).size = bs.length := ho.size_stored.trans hst.size
  have hchain : fileChain ch (stored e (w.fds fd)) = ch e.cluster := by
    rw [fileChain, ho.cluster_stored, if_neg ho.ne]
  have hle := hst.size_le
  have hsame : ∀ p, p < bs.length → w'.fileByte (ch e.cluster) p = bs.getD p 0 := by
    intro p hp
    rw [View.fileByte_congr_of_sec hevo.vol
      (fun y hy => hsec y (hlay.file_disjoint hd ho.entry ho.file ho.ne hy))
      (Nat.lt_of_lt_of_le hp hle)]
    exact hst.bytes p hp
  rw [View.content, hsize, hchain]
  apply List.ext_getElem
  · rw [List.length_map, List.length_range]
  · intro p h₁ h₂
    rw [List.getElem_map, List.getElem_range, hsame p h₂, List.getD_eq_getElem]

/-- The file that the path names, or a nameless one, holds `bs` in the end. -/
structure Stored (w : View) (D : List Dir) (path : CStr) (w' : View) (ch' : Nat → List Nat)
    (D' : List Dir) (bs : List UInt8) : Prop where
  vol : w'.vol = w.vol
  named : (resolveParent w.vol D path).2 ≠ [] → ∃ s i run e, PathAt w'.vol D' path s i run e ∧
    e.isDir = false ∧ w'.content ch' e = bs
  nameless : (resolveParent w.vol D path).2 = [] → statPath w'.vol ch' D' path = none

theorem Stored.fileIs_iff {t : Drv} (h : Stored w D path w' ch' D' bs) (cs : List UInt8)
    (hlay : w'.Layout ch' D' T) (ht : t.Ready) (hw : t.toStore.Shows w') :
    t.FileIs path cs ↔ (resolveParent w.vol D path).2 ≠ [] ∧ cs = bs := by
  have hstat := hlay.answers_stat ht hw path
  by_cases hne : (resolveParent w.vol D path).2 = []
  · rw [h.nameless hne] at hstat
    refine iff_of_false ?_ fun hno => hno.1 hne
    rintro ⟨p, hp, -⟩
    exact absurd (hstat.det hp) (by simp)
  · obtain ⟨s, i, run, e, hp, hfile, rfl⟩ := h.named hne
    rw [statPath_of_pathAt hlay hp] at hstat
    have hcontent : t.toStore.Content e cs ↔ cs = w'.content ch' e :=
      hlay.content_iff hw hp.entryAt hfile
    constructor
    · rintro ⟨p, hp, -, hbs⟩
      have := Option.some.inj (hstat.det hp)
      rw [← this] at hbs
      exact ⟨hne, hcontent.mp hbs⟩
    · rintro ⟨-, hbs⟩
      exact ⟨_, hstat, hfile, hcontent.mpr hbs⟩

theorem Opened.filling (h : w'.Layout ch' D' T)
    (ho : OpenOn w' ch' D' (openFd w.vol (ch' s) true s i e) s i run e)
    (hfd : w'.fds fd = openFd w.vol (ch' s) true s i e) (hch : ch' e.cluster = [e.cluster])
    (hsize : e.size = 0) : Filling w' ch' D' T fd s i run e (1 + w'.freeCount) [] := by
  have hfresh : (openFd w.vol (ch' s) true s i e).Fresh e.cluster := ⟨rfl, rfl, rfl, rfl, rfl, hsize⟩
  exact ⟨h, by rw [hfd]; exact ho, hfresh.streamAt hfd (h.chains.perm (ho.entry.perm_starts ho.ne)) hch⟩

/-- What is stored when the descriptor is closed. -/
theorem Opened.stored {w₀ : View} {ch₀ : Nat → List Nat} {D₀ : List Dir}
    (ho : Opened w₀ ch₀ D₀ path D s i run e) (h₀ : w₀.Layout ch₀ D₀ T) (hz : ∀ c ∈ path, c ≠ 0)
    (hv' : w'.vol = w₀.vol) (hnd : (D.map Dir.start).Nodup) (hfile : e.isDir = false)
    (hd : ⟨s, l⟩ ∈ D) (hup : l.Updated l' i run e x) (hb : ∀ b < 20, x.byte b = e.byte b)
    (hcontent : w'.content ch' x = bs) :
    Stored w₀ D₀ path w' ch' (setListing D s l') bs := by
  refine ⟨hv', fun hne => ?_, fun hnil => ?_⟩
  · refine ⟨s, i, run, x, ?_, (DirEntry.isDir_congr hb).trans hfile, hcontent⟩
    rw [hv']
    exact (ho.names h₀ hz hfile hne).updated hnd hd hup hb hfile
  · rw [hv']
    cases ho with
    | existing l l' x hp hd hup hb hD => exact absurd hnil hp.name_ne
    | created l l' j k hp hs hd hrun he hins hi hD =>
        refine statPath_of_name_nil (hs ▸ h₀.start_ne_zero hd) hnil ?_
        rintro rfl
        rw [statPath, if_pos rfl] at hp
        cases hp

/-- `fat32_write_file` stores what the clusters hold, and answers with an error
where nothing was opened. -/
theorem Holds.fat32WriteFile {R : Int → View → Prop} (h : w.Layout ch D T)
    (hz : ∀ c ∈ path, c ≠ 0)
    (hst : Admits w ch D path true → statPath w.vol ch D path = none → w.Storable D path)
    (h32 : bs.length < 4294967296)
    (herr : ∀ (err : Err) w' ch', (Admits w ch D path true →
      (resolveParent w.vol D path).1 ≠ 0 → ∀ n, w.Room ch D path n → n = 0) →
      w'.Layout ch' D T → Kept (fun _ _ => False) w ch D w' ch' D → w.Evolves w' →
      R err.code w')
    (hok : ∀ n m w' ch' D', Admits w ch D path true → (resolveParent w.vol D path).1 ≠ 0 →
      w.Room ch D path n → n ≠ 0 →
      m = min bs.length (n * (w.vol.secPerClus * 512)) → w'.Layout ch' D' T →
      Stored w D path w' ch' D' (bs.take m) →
      R (if i32 m < 0 then Err.io.code else 0) w') :
    Holds (Fat32.fat32WriteFile path bs) R w := by
  rw [Fat32.fat32WriteFile]
  apply Holds.fat32Open_opened h hz hst
  · intro err w' ch' hno hlay hkept hevo _
    rw [if_pos err.code_neg]
    exact Holds.pure (herr err w' ch' hno hlay hkept hevo)
  · intro fd w' ch' D' s i run e hadmits hlt _ hlay hkept hevo hfds ho hop hch hsize hroom
    rw [if_neg (by omega)]
    have hfill := Opened.filling hlay ho (by rw [hfds, Function.update_self]) hch hsize
    apply Holds.fat32Write_filling hfill hlt (by rw [List.length_nil]; omega)
    intro m w₂ ch₂ hm hfull hfill₂ _ hevo₂ _
    rw [List.nil_append] at hfill₂
    have hsz := hfill₂.stream.size_le
    have hcap := hfill₂.stream.cap
    have hlen : (bs.take m).length = m := by
      rw [List.length_take]
      omega
    apply Holds.fat32Close_filling hfill₂ hlt
    intro w₃ l l' e' hd hup hb hlay₃ hcontent _ hevo₃ _
    apply Holds.pure
    refine hok (1 + w'.freeCount) m w₃ ch₂ _ hadmits (hop.parent_ne h) hroom (by omega) ?_ hlay₃
      (hop.stored h hz ((hevo₃.vol.trans hevo₂.vol).trans hevo.vol) hfill₂.layout.tree.nodup
        hfill₂.openOn.file hd hup hb hcontent)
    · change (bs.take m).length ≤ _ at hsz
      rw [hlen, hevo₂.vol, hevo.vol] at hsz
      rw [hevo.vol, List.length_nil] at hfull
      have hle : (ch₂ e.cluster).length * (w.vol.secPerClus * 512) ≤
          (1 + w'.freeCount) * (w.vol.secPerClus * 512) :=
        Nat.mul_le_mul_right _ (by omega)
      rcases Nat.lt_or_ge m bs.length with hlt' | hge
      · have := hfull hlt'
        omega
      · omega

/-- The descriptor `fd` is open for reading on the entry `e`, `n` bytes in. -/
structure Reading (w : View) (ch : Nat → List Nat) (D : List Dir) (fd s i : Nat)
    (run : List DirEntry) (e : DirEntry) (n : Nat) : Prop where
  entry : EntryAt D s i run e
  file : e.isDir = false
  isOpen : (w.fds fd).isOpen = true
  write : (w.fds fd).write = false
  pos : (w.fds fd).pos = n
  size : (w.fds fd).size = e.size
  le : n ≤ e.size
  eager : (w.fds fd).Eager w.vol (fileChain ch e)

theorem Kept.fileChain_eq {X : Nat → Nat → Prop} (h : Kept X w ch D w' ch' D')
    (he : EntryAt D s i run e) (hX : ¬ X s i) (hfile : e.isDir = false) :
    fileChain ch' e = fileChain ch e := by
  unfold fileChain
  split
  · rfl
  · next h0 => exact (h.chain s i run e he hX hfile h0).1

theorem Reading.kept {X : Nat → Nat → Prop} (h : Reading w ch D fd s i run e n)
    (hk : Kept X w ch D w' ch' D') (hX : ¬ X s i) (hv : w'.vol = w.vol)
    (hf : w'.fds fd = w.fds fd) : Reading w' ch' D' fd s i run e n := by
  refine ⟨hk.entry s i run e h.entry hX, h.file, ?_, ?_, ?_, ?_, h.le, ?_⟩
  · rw [hf]
    exact h.isOpen
  · rw [hf]
    exact h.write
  · rw [hf]
    exact h.pos
  · rw [hf]
    exact h.size
  · rw [hf, hv, hk.fileChain_eq h.entry hX h.file]
    exact h.eager

theorem reading_openFd (h : w.Layout ch D T) (he : EntryAt D s i run e) (hfile : e.isDir = false)
    (hfd : w.fds fd = openFd v (ch s) false s i e) : Reading w ch D fd s i run e 0 := by
  refine ⟨he, hfile, by rw [hfd]; rfl, by rw [hfd]; rfl, by rw [hfd]; rfl, by rw [hfd]; rfl,
    Nat.zero_le _, ?_⟩
  rw [hfd]
  intro hlt
  change e.cluster = _
  unfold fileChain at hlt ⊢
  split at hlt
  · simp at hlt
  · next h0 =>
    obtain ⟨hch, hne⟩ := h.chains.chain _ (List.mem_append_left T (he.mem_starts h0))
    rw [if_neg h0]
    cases hxs : ch e.cluster with
    | nil => exact absurd hxs hne
    | cons y ys =>
        rw [hxs] at hch
        obtain ⟨rfl, -, -⟩ := Links.Chain.cons_iff.mp hch
        simp [openFd]

theorem drop_content {q len : Nat} : ((w.content ch e).drop q).take len =
    (List.range (min len (e.size - q))).map fun j => w.fileByte (fileChain ch e) (q + j) := by
  unfold View.content
  apply List.ext_getElem
  · simp
  · intro j h₁ h₂
    simp

/-- `fat32_read` gives the next bytes of the file. -/
theorem Holds.fat32Read_reading {len : Nat} {g : Int × List UInt8 → Prog Drv β}
    (hlay : w.Layout ch D T) (h : Reading w ch D fd s i run e n) (hlt : fd < 16)
    (hg : ∀ f, Reading (w.setFd fd f) ch D fd s i run e (n + min len (e.size - n)) →
      Holds (g (i32 (min len (e.size - n)), ((w.content ch e).drop n).take len)) R
        (w.setFd fd f)) :
    Holds (Fat32.fat32Read fd len >>= g) R w := by
  have hin := hlay.size_le h.entry h.file
  rw [drop_content] at hg
  by_cases hend : min len (e.size - n) = 0
  · rw [hend] at hg
    apply Holds.fat32Read_nil hlt rfl h.isOpen (by rw [h.size, h.pos]; exact hend)
    have hself : w.setFd fd (w.fds fd) = w := by
      rw [View.setFd, Function.update_eq_self]
    have hdone := hg (w.fds fd)
    rw [hself] at hdone
    exact hdone h
  · have h0 : e.cluster ≠ 0 := by
      intro h0
      rw [fileChain, if_pos h0, List.length_nil, Nat.zero_mul] at hin
      omega
    have hch := (h.entry.mem_starts (v := w.vol) h0)
    have hchain := (hlay.chains.chain _ (List.mem_append_left T hch)).1
    have hxs : fileChain ch e = ch e.cluster := if_neg h0
    rw [hxs] at hin hg
    have heager := h.eager
    rw [hxs] at heager
    have hpos := h.pos
    have hsize := h.size
    apply Holds.fat32Read hchain hlt rfl h.isOpen ⟨by rw [hpos, hsize]; exact h.le, by
      rw [hsize]
      exact hin⟩ heager (by rw [hsize]; exact DirEntry.size_lt e)
    intro cur hcur
    rw [hpos, hsize] at hcur ⊢
    refine hg _ ⟨h.entry, h.file, ?_, ?_, ?_, ?_, by omega, ?_⟩ <;>
      rw [View.fds_setFd, Function.update_self]
    · exact h.isOpen
    · exact h.write
    · rw [Fd.reads, hpos]
    · exact hsize
    · rw [View.vol_setFd, hxs]
      exact hcur

def View.TwoFree (w : View) : Prop :=
  ∃ i < 16, ∃ j < 16, i ≠ j ∧ (w.fds i).isOpen = false ∧ (w.fds j).isOpen = false

theorem View.TwoFree.freeFd_setFd (h : w.TwoFree) : ∃ k, (w.setFd fd f).freeFd = some k := by
  obtain ⟨i, hi, j, hj, hne, hci, hcj⟩ := h
  by_cases hfd : i = fd
  · refine View.exists_freeFd hj ?_
    rw [View.fds_setFd, Function.update_of_ne (by omega)]
    exact hcj
  · refine View.exists_freeFd hi ?_
    rw [View.fds_setFd, Function.update_of_ne hfd]
    exact hci

/-- The other descriptors are no part of a file that is being filled. -/
theorem Filling.setFd (h : Filling w ch D T fd s i run e cap bs) (hne : fd ≠ k) :
    Filling (w.setFd k f) ch D T fd s i run e cap bs := by
  obtain ⟨hlay, ho, hst⟩ := h
  have hfd : (w.setFd k f).fds fd = w.fds fd := by
    rw [View.fds_setFd, Function.update_of_ne hne]
  refine ⟨hlay.of_eq rfl rfl rfl, ?_, ?_⟩
  · rw [hfd]
    exact ho.of_fds rfl
  · obtain ⟨h₁, h₂, h₃, h₄, h₅, h₆, h₇, h₈, h₉, h₁₀, h₁₁⟩ := hst
    exact ⟨h₁.of_fat rfl rfl, by rw [hfd]; exact h₂, by rw [hfd]; exact h₃, by rw [hfd]; exact h₄,
      by rw [hfd]; exact h₅, by rw [hfd]; exact h₆, h₇, h₈, by rw [hfd]; exact h₉, h₁₀, h₁₁⟩

/-- The first `n` bytes of `bs`, the content of `x`, were read, and those of them
that there was room for were written. -/
structure Copied (v : Vol) (sf df a i : Nat) (r : List DirEntry) (x : DirEntry) (s j : Nat)
    (run : List DirEntry) (e : DirEntry) (T : List Nat) (cap : Nat) (bs : List UInt8) (n : Nat)
    (w : View) (ch : Nat → List Nat) (D : List Dir) : Prop where
  vol : w.vol = v
  src : Reading w ch D sf a i r x n
  content : w.content ch x = bs
  dst : Filling w ch D T df s j run e cap (bs.take (min n (cap * (v.secPerClus * 512))))

theorem length_content : (w.content ch e).length = e.size := by
  rw [View.content, List.length_map, List.length_range]

/-- The next chunk behind what there was room for. -/
theorem take_chunk {q c m : Nat} (hc : c ≤ 512) (hq : q ≤ c) (hle : min n m + q ≤ m)
    (hfull : q < c → min n m + q = m) :
    bs.take (min n m) ++ ((bs.drop n).take 512).take q = bs.take (min (n + c) m) := by
  have hmin : min q 512 = q := by omega
  rw [List.take_take, hmin]
  rcases Nat.le_total n m with h | h
  · have hsum : min (n + c) m = n + q := by omega
    rw [hsum, Nat.min_eq_left h, List.take_add]
  · have h0 : q = 0 := by omega
    have hsum : min (n + c) m = m := by omega
    rw [hsum, h0, Nat.min_eq_right h, List.take_zero, List.append_nil]

section Copy

variable {sf df : Nat}

/-- One round of the copy loop. -/
theorem Copied.step (h : Copied v sf df a i r x s j run e T cap bs n w ch D) (hsf : sf < 16)
    (hdf : df < 16) (hne : sf ≠ df) (hplace : ¬ (a = s ∧ i = j)) :
    Holds (copyStep sf df ()) (fun d w' => ∃ ch',
      Copied v sf df a i r x s j run e T cap bs (n + min 512 (x.size - n)) w' ch' D ∧
      Kept (fun t k => t = s ∧ k = j) w ch D w' ch' D ∧ w.Evolves w' ∧
      d = if n < x.size then .inl () else .inr ()) w := by
  obtain ⟨hv, hsrc, hcont, hdst⟩ := h
  have hsize : bs.length = x.size := by rw [← hcont, length_content]
  have hle := hsrc.le
  have hlt := DirEntry.size_lt x
  rw [copyStep]
  apply Holds.fat32Read_reading hdst.layout hsrc hsf
  intro f hread
  have hfill := hdst.setFd (f := f) (Ne.symm hne)
  have hcont' : (w.setFd sf f).content ch x = bs := hcont
  rw [hcont]
  generalize hm : min 512 (x.size - n) = m at hread ⊢
  simp only
  by_cases hend : n < x.size
  · rw [if_pos (by rw [i32_of_lt (by omega)]; omega)]
    have hlen : ((bs.drop n).take 512).length = m := by
      rw [List.length_take, List.length_drop, hsize]
      omega
    apply Holds.fat32Write_filling hfill hdf
    · rw [hlen, List.length_take, hsize]
      omega
    intro q w' ch' hq hfull hfill' hkept hevo hfds
    rw [hlen] at hq hfull
    rw [View.vol_setFd, hv] at hfull
    have hv' : w'.vol = v := hevo.vol.trans hv
    have hcap : (bs.take (min n (cap * (v.secPerClus * 512))) ++
        ((bs.drop n).take 512).take q).length ≤ cap * (v.secPerClus * 512) := by
      have hin := hfill'.stream.size_le
      have hc := hfill'.stream.cap
      rw [hv'] at hin
      exact hin.trans (Nat.mul_le_mul_right _ (by omega))
    rw [List.length_append, List.length_take, List.length_take, hlen, hsize] at hcap
    rw [List.length_take, hsize] at hfull
    have hchunk : bs.take (min n (cap * (v.secPerClus * 512))) ++ ((bs.drop n).take 512).take q =
        bs.take (min (n + m) (cap * (v.secPerClus * 512))) :=
      take_chunk (by omega) hq (by omega) (by omega)
    rw [hchunk] at hfill'
    refine Holds.pure ⟨ch', ⟨hv', hread.kept hkept hplace hevo.vol (hfds sf hne), ?_, hfill'⟩,
      hkept.of_setFd, View.Evolves.setFd.trans hevo, (if_pos hend).symm⟩
    rw [hfill.layout.content_kept hkept hevo.vol hsrc.entry hplace hsrc.file]
    exact hcont'
  · have h0 : m = 0 := by omega
    rw [h0] at hread ⊢
    rw [if_neg (by rw [i32_of_lt (by omega)]; omega)]
    exact Holds.pure ⟨ch, ⟨hv, hread, hcont', hfill⟩, Kept.refl.of_sec rfl,
      View.Evolves.setFd, (if_neg hend).symm⟩

/-- The whole source is read. -/
theorem Copied.loop (h : Copied v sf df a i r x s j run e T cap bs n w ch D) (hsf : sf < 16)
    (hdf : df < 16) (hne : sf ≠ df) (hplace : ¬ (a = s ∧ i = j)) :
    Holds (Prog.loop (copyStep sf df) ()) (fun _ w' => ∃ ch',
      Copied v sf df a i r x s j run e T cap bs x.size w' ch' D ∧
      Kept (fun t k => t = s ∧ k = j) w ch D w' ch' D ∧ w.Evolves w') w := by
  refine Holds.loop_of_measure (fun _ w' => ∃ n ch',
      Copied v sf df a i r x s j run e T cap bs n w' ch' D ∧
      Kept (fun t k => t = s ∧ k = j) w ch D w' ch' D ∧ w.Evolves w')
    (fun _ w => x.size - (w.fds sf).pos) ?_ ⟨n, ch, h, Kept.refl, View.Evolves.refl⟩
  rintro ⟨⟩ w₁ ⟨n, ch₁, hw, hkept, hevo⟩
  have hpos := hw.src.pos
  have hle := hw.src.le
  refine (hw.step hsf hdf hne hplace).mono ?_
  rintro d w' ⟨ch', hw', hkept', hevo', rfl⟩
  by_cases hend : n < x.size
  · rw [if_pos hend]
    have hpos' := hw'.src.pos
    exact ⟨⟨_, ch', hw', hkept.trans hkept', hevo.trans hevo'⟩, by omega⟩
  · rw [if_neg hend]
    have hn : n + min 512 (x.size - n) = x.size := by omega
    rw [hn] at hw'
    exact ⟨ch', hw', hkept.trans hkept', hevo.trans hevo'⟩

end Copy

theorem PathAt.unique (h : PathAt v D path s i run e) (h' : PathAt v D path a j r x)
    (hnd : (D.map Dir.start).Nodup) : s = a ∧ i = j ∧ run = r ∧ e = x := by
  obtain ⟨l, p, hd, rfl, -, hfind, rfl⟩ := h
  obtain ⟨l', p', hd', rfl, -, hfind', rfl⟩ := h'
  obtain rfl : l' = l := (Dir.mk.inj (eq_of_start_eq hnd hd' hd rfl)).2
  rw [hfind, Option.some.injEq, Prod.mk.injEq, Prod.mk.injEq] at hfind'
  obtain ⟨rfl, rfl, rfl⟩ := hfind'
  exact ⟨rfl, rfl, rfl, rfl⟩

theorem View.Room.congr (h : w.Room ch D path n) (hv : w'.vol = w.vol)
    (hf : w'.freeCount = w.freeCount) : w'.Room ch D path n := by
  cases h with
  | existing hp =>
      rw [← hv] at hp
      rw [← hf]
      exact Room.existing hp
  | created hp hd hg =>
      rw [← hv] at hp hd hg
      rw [← hf]
      exact Room.created hp hd hg

/-- The path was opened for writing, and its entry was stored again at the close. -/
inductive Refilled (w : View) (ch : Nat → List Nat) (D : List Dir) (path : CStr) (s i : Nat)
    (run : List DirEntry) (x : DirEntry) (w' : View) (ch' : Nat → List Nat) :
    List Dir → Prop
  | mk {D₁ : List Dir} {e : DirEntry} {l l' : Listing} (opened : Opened w ch D path D₁ s i run e)
      (nodup : (D₁.map Dir.start).Nodup) (file : e.isDir = false) (dir : ⟨s, l⟩ ∈ D₁)
      (updated : l.Updated l' i run e x) (bytes : ∀ b < 20, x.byte b = e.byte b)
      (kept : Kept (fun t j => t = s ∧ j = i) w ch D w' ch' (setListing D₁ s l'))
      (vol : w'.vol = w.vol) : Refilled w ch D path s i run x w' ch' (setListing D₁ s l')

theorem Opened.of_setFd (ho : Opened (w.setFd fd f) ch D path D' s i run e) :
    Opened w ch D path D' s i run e := by
  cases ho with
  | existing l l' x hp hd hup hb hD => exact .existing l l' x hp hd hup hb hD
  | created l l' j k hp hs hd hrun he hins hi hD =>
      exact .created l l' j k hp hs hd hrun he hins hi hD

theorem Refilled.stored (hr : Refilled w ch D path s i run x w' ch' D') (h : w.Layout ch D T)
    (hz : ∀ c ∈ path, c ≠ 0) (hcontent : w'.content ch' x = bs) :
    Stored w D path w' ch' D' bs := by
  obtain ⟨ho, hnd, hfile, hd, hup, hb, -, hv⟩ := hr
  exact ho.stored h hz hv hnd hfile hd hup hb hcontent

/-- The two opens of `fat32_copy`. -/
theorem Holds.fat32Copy_opens {R : Int → View → Prop} (h : w.Layout ch D T)
    (hz : ∀ c ∈ dst, c ≠ 0)
    (hst : Admits w ch D dst true → w.TwoFree → statPath w.vol ch D dst = none →
      w.Storable D dst)
    (hsrc : PathAt w.vol D src a i r x) (hfile : x.isDir = false)
    (herr : ∀ (err : Err) w' ch', (Admits w ch D dst true → w.TwoFree →
      (resolveParent w.vol D dst).1 ≠ 0 → ∀ n, w.Room ch D dst n → n = 0) →
      w'.Layout ch' D T → Kept (fun _ _ => False) w ch D w' ch' D → w'.vol = w.vol →
      R err.code w')
    (hok : ∀ sf df w' ch' D' s j run e, Admits w ch D dst true → w.TwoFree → sf < 16 → df < 16 →
      sf ≠ df → w'.Layout ch' D' T → Kept (fun t k => t = s ∧ k = j) w ch D w' ch' D' →
      w.Evolves w' → w'.fds sf = openFd w.vol (ch a) false a i x →
      ReadOn w' (w'.fds sf) → w'.fds df = openFd w.vol (ch' s) true s j e →
      OpenOn w' ch' D' (openFd w.vol (ch' s) true s j e) s j run e →
      Opened w ch D dst D' s j run e → ch' e.cluster = [e.cluster] → e.size = 0 →
      w.Room ch D dst (1 + w'.freeCount) →
      Holds (do
        Prog.loop (copyStep sf df) ()
        Fat32.fat32Close sf
        Fat32.fat32Close df
        Pure.pure 0) R w') :
    Holds (Fat32.fat32Copy src dst) R w := by
  rw [Fat32.fat32Copy]
  apply Holds.getStore
  intro c hc
  rw [hc.mounted]
  cases hm : w.mounted with
  | false =>
      refine Holds.pure (herr Err.noDev w ch (fun ha => ?_) h Kept.refl rfl)
      have := ha.mounted
      rw [hm] at this
      cases this
  | true =>
      simp only [Bool.not_true, Bool.false_eq_true, if_false]
      apply Holds.fat32Open_read h
      · intro err hno
        rw [if_pos err.code_neg]
        refine Holds.pure (herr Err.notFound w ch (fun ha hfree => absurd ?_ hno) h Kept.refl rfl)
        refine ⟨hm, fun hw => absurd hw (by decide), ha.room, fun q hq => ?_, fun hnone => ?_⟩
        · rw [statPath_of_pathAt h hsrc, Option.some.injEq] at hq
          rw [← hq]
          exact hfile
        · rw [statPath_of_pathAt h hsrc] at hnone
          cases hnone
      intro sf a' i' r' x' hsf hclosed hpath _ hread
      obtain ⟨rfl, rfl, rfl, rfl⟩ := hpath.unique hsrc h.tree.nodup
      rw [if_neg (by omega)]
      generalize hf : openFd w.vol (ch a') false a' i' x' = f at hread ⊢
      have hl₁ : (w.setFd sf f).Layout ch D T := h.of_eq rfl rfl rfl
      have hsf₁ : (w.setFd sf f).fds sf = f := by rw [View.fds_setFd, Function.update_self]
      have htwo : ∀ k, (w.setFd sf f).freeFd = some k → w.TwoFree := by
        intro k hk
        have hclosed' := View.freeFd_closed hk
        have hne : sf ≠ k := by
          rintro rfl
          rw [hsf₁, hread.isOpen] at hclosed'
          cases hclosed'
        rw [View.fds_setFd, Function.update_of_ne (Ne.symm hne)] at hclosed'
        exact ⟨sf, hsf, k, View.freeFd_lt hk, hne, hclosed, hclosed'⟩
      have hdown : Admits (w.setFd sf f) ch D dst true → Admits w ch D dst true := fun ha =>
        ⟨hm, ha.writable, View.exists_freeFd hsf hclosed, ha.file, ha.found⟩
      have hst₁ : Admits (w.setFd sf f) ch D dst true → statPath w.vol ch D dst = none →
          w.Storable D dst := by
        intro ha
        obtain ⟨k, hk⟩ := ha.room
        exact hst (hdown ha) (htwo k hk)
      apply Holds.fat32Open_opened hl₁ hz hst₁
      · intro err w' ch' hno hlay hkept hevo hfds
        have hsf' : w'.fds sf = f := (hfds sf (by rw [hsf₁]; exact hread.isOpen)).trans hsf₁
        rw [if_pos err.code_neg]
        apply Holds.fat32Close_read hsf hsf' hread.isOpen hread.write
        refine Holds.pure (herr Err.full _ ch' (fun ha hfree hne n hn => ?_)
          (hlay.of_eq rfl rfl rfl) (hkept.of_setFd.of_sec rfl) hevo.vol)
        exact hno ⟨ha.mounted, ha.writable, hfree.freeFd_setFd, ha.file, ha.found⟩ hne n
          (hn.congr rfl rfl)
      · intro df w' ch' D' s j run e hadmits hdf hclosed' hlay hkept hevo hfds ho hop hch hsize hroom
        have hne : sf ≠ df := by
          rintro rfl
          rw [hsf₁, hread.isOpen] at hclosed'
          cases hclosed'
        have hsf' : w'.fds sf = f := by
          rw [hfds, Function.update_of_ne hne]
          exact hsf₁
        obtain ⟨k, hk⟩ := hadmits.room
        rw [if_neg (by omega)]
        refine hok sf df w' ch' D' s j run e (hdown hadmits) (htwo k hk) hsf hdf hne hlay
          hkept.of_setFd
          (View.Evolves.setFd.trans hevo) (hsf'.trans hf.symm) ?_
          (by rw [hfds, Function.update_self]; rfl) ho hop.of_setFd hch hsize (hroom.congr rfl rfl)
        rw [hsf']
        exact hread.evolves (View.Evolves.setFd.trans hevo)

/-- `fat32_copy` to another file stores what the clusters hold, and answers with an error
where nothing was opened. -/
theorem Holds.fat32Copy {R : Int → View → Prop} (h : w.Layout ch D T) (hz : ∀ c ∈ dst, c ≠ 0)
    (hst : Admits w ch D dst true → w.TwoFree → statPath w.vol ch D dst = none →
      w.Storable D dst)
    (hsrc : PathAt w.vol D src a i r x) (hfile : x.isDir = false)
    (hother : ¬ ∃ r y, PathAt w.vol D dst a i r y)
    (herr : ∀ (err : Err) w' ch', (Admits w ch D dst true → w.TwoFree →
      (resolveParent w.vol D dst).1 ≠ 0 → ∀ n, w.Room ch D dst n → n = 0) →
      w'.Layout ch' D T → Kept (fun _ _ => False) w ch D w' ch' D → w'.vol = w.vol →
      R err.code w')
    (hok : ∀ n w' ch' D' s j run y, Admits w ch D dst true → w.TwoFree →
      (resolveParent w.vol D dst).1 ≠ 0 → w.Room ch D dst n → n ≠ 0 → w'.Layout ch' D' T →
      Refilled w ch D dst s j run y w' ch' D' → w.Evolves w' → ¬ (a = s ∧ i = j) →
      w'.content ch' y = (w.content ch x).take (n * (w.vol.secPerClus * 512)) → R 0 w') :
    Holds (Fat32.fat32Copy src dst) R w := by
  apply Holds.fat32Copy_opens h hz hst hsrc hfile herr
  intro sf df w' ch' D' s j run e hadmits htwo hsf hdf hne hlay hkept hevo hfsf _ hfdf ho hop hch
    hsize hroom
  have hplace : ¬ (a = s ∧ i = j) := by
    rintro ⟨rfl, rfl⟩
    exact hother ⟨_, _, hop.pathAt h hsrc.entryAt⟩
  have hreading : Reading w' ch' D' sf a i r x 0 := by
    have hstart : Reading (w.setFd sf (w'.fds sf)) ch D sf a i r x 0 :=
      reading_openFd (h.of_eq rfl rfl rfl) hsrc.entryAt hfile
        (by rw [View.fds_setFd, Function.update_self, hfsf])
    have hkept' : Kept (fun t k => t = s ∧ k = j) (w.setFd sf (w'.fds sf)) ch D w' ch' D' :=
      ⟨hkept.entry, hkept.chain, hkept.dirs⟩
    exact hstart.kept hkept' hplace hevo.vol
      (by rw [View.fds_setFd, Function.update_self])
  have hcopied : Copied w.vol sf df a i r x s j run e T (1 + w'.freeCount)
      (w.content ch x) 0 w' ch' D' := by
    refine ⟨hevo.vol, hreading, h.content_kept hkept hevo.vol hsrc.entryAt hplace hfile, ?_⟩
    rw [Nat.zero_min, List.take_zero]
    exact Opened.filling hlay ho hfdf hch hsize
  refine Holds.seq (hcopied.loop hsf hdf hne hplace) fun _ w₂ hw₂ => ?_
  obtain ⟨ch₂, ⟨hv₂, hsrc₂, -, hdst₂⟩, hkept₂, hevo₂⟩ := hw₂
  apply Holds.fat32Close_read hsf rfl hsrc₂.isOpen hsrc₂.write
  have hfill := hdst₂.setFd (f := Fd.closed) (Ne.symm hne)
  apply Holds.fat32Close_filling hfill hdf
  intro w₃ l l' e' hd hup hb hlay₃ hcontent hkept₃ hevo₃ _
  apply Holds.pure
  have hsz : x.size = (w.content ch x).length := length_content.symm
  have htake : (w.content ch x).take
      (min x.size ((1 + w'.freeCount) * (w.vol.secPerClus * 512))) =
      (w.content ch x).take ((1 + w'.freeCount) * (w.vol.secPerClus * 512)) := by
    rw [hsz, Nat.min_comm, ← List.take_take, List.take_of_length_le (Nat.le_refl _)]
  rw [htake] at hcontent
  have hv₃ : w₃.vol = w.vol := hevo₃.vol.trans hv₂
  have hkept' := (hkept.trans hkept₂).trans hkept₃.of_setFd
  exact hok (1 + w'.freeCount) w₃ ch₂ _ s j run e' hadmits htwo (hop.parent_ne h) hroom (by omega)
    hlay₃ ⟨hop, hfill.layout.tree.nodup, hfill.openOn.file, hd, hup, hb, hkept', hv₃⟩
    ((hevo.trans hevo₂).trans (View.Evolves.setFd.trans hevo₃)) hplace hcontent

/-- `n` clusters are there for the content of the file at `path`: the free ones
and its own, or the free ones that the directory of a new file leaves. -/
inductive Drv.Room (s : Drv) (path : CStr) : Nat → Prop
  | existing {p : PathInfo} {xs : List Nat} (hp : (pathStat path).Answers s (some p))
      (hx : s.toStore.FileChain p.entry xs) : Room s path (xs.length + s.freeClusters)
  | created {r : Nat × CStr} {xs : List Nat} {m : Nat} (hp : (pathStat path).Answers s none)
      (hr : (pathResolveParent path).Answers s r) (hx : s.toStore.Chain r.1 xs)
      (hg : GrowsBy (s.toStore.slots xs) (lfnCount r.2 + 1) m) : Room s path (s.freeClusters - m)

/-- A new name whose slots have room in its directory and one more cluster, and whose
short name does not look deleted. -/
def Drv.Storable (s : Drv) (path : CStr) : Prop :=
  (pathStat path).Answers s none → s.SlotsFit path ∧
    ∀ r, (pathResolveParent path).Answers s r → (make83 r.2).getD 0 0 ≠ 0xE5

/-- The path does not end with two slashes, so that its last component has a name. -/
def Drv.Named (s : Drv) (path : CStr) : Prop :=
  ∀ r, (pathResolveParent path).Answers s r → r.2 ≠ []

/-- Success means that the file at the path has the content `bs`, and what is not
stored is told by an error. -/
def Stores (path : CStr) (bs : List UInt8) (r : Int) (s : Drv) : Prop :=
  (r = 0 → s.FileIs path bs) ∧ (¬ s.FileIs path bs → r < 0)

/-- Where `fat32_write_file` opens a file for `len` bytes, all of them fit, or so
many that their count is negative. -/
def Drv.WriteFits (s : Drv) (path : CStr) (len : Nat) : Prop :=
  s.Opens path → ∀ n, s.Room path n → n ≠ 0 → s.Storable path ∧
    (s.Named path ∧ len ≤ n * (s.vol.secPerClus * 512) ∨
      2147483648 ≤ min len (n * (s.vol.secPerClus * 512)))

/-- Two descriptors are free. -/
def Drv.TwoFree (s : Drv) : Prop :=
  ∃ i < 16, ∃ j < 16, i ≠ j ∧ (s.fds i).isOpen = false ∧ (s.fds j).isOpen = false

/-- Where `fat32_copy` opens the destination for `len` bytes, all of them fit. -/
def Drv.CopyFits (s : Drv) (dst : CStr) (len : Nat) : Prop :=
  s.Opens dst → s.TwoFree → ∀ n, s.Room dst n → n ≠ 0 → s.Storable dst ∧ s.Named dst ∧
    len ≤ n * (s.vol.secPerClus * 512)

/-- No file has both names. -/
def Drv.Differ (s : Drv) (src dst : CStr) : Prop :=
  ∀ p q, (pathStat src).Answers s (some p) → (pathStat dst).Answers s (some q) →
    (p.pos.lba, p.pos.off) ≠ (q.pos.lba, q.pos.off)

theorem pick83_ne_of_make83 {name : CStr} (h : (make83 name).getD 0 0 ≠ 0xE5)
    (taken : List UInt8 → Bool) : (pick83 taken name).getD 0 0 ≠ 0xE5 := by
  rw [getD_make83] at h
  cases hs : stem83 name 8 with
  | nil =>
      rcases getD_pick83 taken name with hp | hp <;> rw [hp, hs] <;> decide
  | cons b bs =>
      rw [hs, List.headD_cons] at h
      rcases getD_pick83 taken name with hp | hp <;> rw [hp, hs, List.headD_cons] <;> exact h

namespace View.Layout

variable {t : Drv}

theorem named_iff (h : w.Layout ch D T) (ht : t.Ready) (hw : t.toStore.Shows w) (path : CStr) :
    t.Named path ↔ (resolveParent w.vol D path).2 ≠ [] := by
  have hpar := h.answers_parent ht hw path
  refine ⟨fun hn => hn _ hpar, fun hn r hr => ?_⟩
  rw [← hpar.det hr]
  exact hn

theorem twoFree_iff (hw : t.toStore.Shows w) : t.TwoFree ↔ w.TwoFree := by
  unfold Drv.TwoFree View.TwoFree
  rw [hw.fds]

theorem room_iff (h : w.Layout ch D T) (ht : t.Ready) (hw : t.toStore.Shows w)
    (ha : Admits w ch D path true) (hne : (resolveParent w.vol D path).1 ≠ 0) :
    t.Room path n ↔ w.Room ch D path n := by
  have hstat := h.answers_stat ht hw path
  have hpar := h.answers_parent ht hw path
  obtain ⟨⟨a, l⟩, hd, hs⟩ := (resolveParent_mem h path).resolve_left hne
  change a = _ at hs
  rw [hs] at hd
  constructor
  · intro hr
    cases hr with
    | existing hp hx =>
        have hp' := hstat.det hp
        obtain ⟨s, i, run, hpath, -⟩ := exists_pathAt h hp' (ha.file _ hp')
        rw [freeClusters_eq hw, hx.unique (h.fileChain hw hpath.entryAt) hw.sound]
        exact View.Room.existing hp'
    | created hp hr hx hg =>
        obtain rfl := hpar.det hr
        rw [h.store_chain hw hd hx, h.store_slots hw hd] at hg
        rw [freeClusters_eq hw]
        exact View.Room.created (hstat.det hp) hd hg
  · intro hr
    cases hr with
    | existing hp =>
        obtain ⟨s, i, run, hpath, -⟩ := exists_pathAt h hp (ha.file _ hp)
        rw [← freeClusters_eq hw]
        exact Drv.Room.existing (hp ▸ hstat) (h.fileChain hw hpath.entryAt)
    | created hp hd' hg =>
        rw [← h.store_slots hw hd'] at hg
        rw [← freeClusters_eq hw]
        exact Drv.Room.created (hp ▸ hstat) hpar (hw.chain (h.lists hd').chain) hg

theorem storable (h : w.Layout ch D T) (ht : t.Ready) (hw : t.toStore.Shows w)
    (hno : statPath w.vol ch D path = none) (hs : t.Storable path) : w.Storable D path := by
  intro l m hd _ _
  have hstat := h.answers_stat ht hw path
  rw [hno] at hstat
  obtain ⟨hfit, hfirst⟩ := hs hstat
  exact ⟨(h.slotsFit_iff ht hw hd).mp hfit,
    pick83_ne_of_make83 (hfirst _ (h.answers_parent ht hw path)) _⟩

end View.Layout

theorem View.Room.unique {m : Nat} (h : w.Room ch D path n) (h' : w.Room ch D path m)
    (hnd : (D.map Dir.start).Nodup) : n = m := by
  cases h with
  | existing hp =>
      cases h' with
      | existing hp' =>
          rw [hp, Option.some.injEq] at hp'
          rw [hp']
      | created hp' => rw [hp] at hp'; cases hp'
  | created hp hd hg =>
      cases h' with
      | existing hp' => rw [hp] at hp'; cases hp'
      | created hp' hd' hg' =>
          have hl := (Dir.mk.inj (eq_of_start_eq hnd hd hd' rfl)).2
          rw [hl] at hg
          rw [hg.unique hg']

theorem Drv.Room.unique {t : Drv} {m : Nat} (ht : t.Ready) (hc : t.Consistent) (hop : t.Opens path)
    (hn : t.Room path n) (hm : t.Room path m) : n = m := by
  obtain ⟨w, hw, ch, D, h⟩ := hc
  obtain ⟨ha, hne⟩ := (h.opens_iff ht hw path).mp hop
  exact ((h.room_iff ht hw ha hne).mp hn).unique ((h.room_iff ht hw ha hne).mp hm) h.tree.nodup

theorem Stores.of_neg {r : Int} {t : Drv} (h : r < 0) : Stores path bs r t :=
  ⟨fun h0 => by omega, fun _ => h⟩

section Success

variable {t : Drv}

/-- `fat32_write_file`, on a path that it can create. -/
theorem writeFile_iff (ht : t.Ready) (hc : t.Consistent) (hz : ∀ c ∈ path, c ≠ 0)
    (h32 : bs.length < 4294967296)
    (hst : t.Opens path → ∀ n, t.Room path n → n ≠ 0 → t.Storable path) :
    (fat32WriteFile path bs).wp (Stores path bs) t ↔ t.WriteFits path bs.length := by
  obtain ⟨w, hw, ch, D, h⟩ := hc
  have hopens := h.opens_iff ht hw path
  have hwrite : Holds (fat32WriteFile path bs) (fun r w' => ∀ t' : Drv, t'.Ready →
      t'.toStore.Shows w' → (Stores path bs r t' ↔ t.WriteFits path bs.length)) w := by
    apply Holds.fat32WriteFile h hz ?_ h32
    · intro err w' ch' hno _ _ _ t' _ _
      refine iff_of_true (Stores.of_neg err.code_neg) fun hop n hn h0 => ?_
      obtain ⟨ha, hne⟩ := hopens.mp hop
      exact absurd (hno ha hne n ((h.room_iff ht hw ha hne).mp hn)) h0
    · intro n m w' ch' D' ha hne hroom h0 hm hlay hstored t' ht' hw'
      have hop := hopens.mpr ⟨ha, hne⟩
      have hroom' := (h.room_iff ht hw ha hne).mpr hroom
      have hfile := hstored.fileIs_iff bs hlay ht' hw'
      have hnamed := h.named_iff ht hw path
      have hfits : t.WriteFits path bs.length ↔ (t.Named path ∧
          bs.length ≤ n * (t.vol.secPerClus * 512) ∨ 2147483648 ≤ m) := by
        rw [hm, ← hw.vol]
        refine ⟨fun hf => (hf hop n hroom' h0).2, fun hf _ n' hn' h0' => ?_⟩
        obtain rfl := hroom.unique ((h.room_iff ht hw ha hne).mp hn') h.tree.nodup
        exact ⟨hst hop n hn' h0', hf⟩
      have hwhole : bs = bs.take m ↔ bs.length ≤ n * (t.vol.secPerClus * 512) := by
        rw [eq_comm, List.take_eq_self_iff, hm, hw.vol]
        omega
      rw [hfits]
      by_cases hneg : i32 m < 0
      · rw [if_pos hneg]
        refine iff_of_true (Stores.of_neg Err.io.code_neg) (Or.inr ?_)
        by_contra hlt
        rw [i32_of_lt (by omega)] at hneg
        omega
      · have hlt : m < 2147483648 := by
          by_contra hge
          apply hneg
          unfold i32
          omega
        rw [if_neg hneg, or_iff_left (by omega), hnamed, ← hwhole, ← hfile]
        exact ⟨fun hs => hs.1 rfl, fun hf => ⟨fun _ => hf, fun hno => absurd hf hno⟩⟩
    · intro ha hno l m hd hg hm
      have hne := h.start_ne_zero hd
      refine h.storable ht hw hno (hst (hopens.mpr ⟨ha, hne⟩) _
        ((h.room_iff ht hw ha hne).mpr (View.Room.created hno hd hg)) (by omega)) l m hd hg hm
  exact hwrite.wp_iff ht hw

/-- `fat32_copy` of a file to a path that it can create. -/
theorem copy_iff (ht : t.Ready) (hc : t.Consistent) (hz : ∀ c ∈ dst, c ≠ 0)
    (hsrc : t.FileIs src bs) (hdiff : t.Differ src dst)
    (hst : t.Opens dst → t.TwoFree → ∀ n, t.Room dst n → n ≠ 0 → t.Storable dst) :
    (fat32Copy src dst).wp (Stores dst bs) t ↔ t.CopyFits dst bs.length := by
  obtain ⟨w, hw, ch, D, h⟩ := hc
  obtain ⟨p, hp, hfile, hbs⟩ := hsrc
  have hopens := h.opens_iff ht hw dst
  have htwo := View.Layout.twoFree_iff hw
  have hstat := (h.answers_stat ht hw src).det hp
  obtain ⟨a, i, r, hpath, hpe⟩ := exists_pathAt h hstat hfile
  rw [h.content_iff hw hpath.entryAt hfile] at hbs
  have hcopy : Holds (fat32Copy src dst) (fun r w' => ∀ t' : Drv, t'.Ready →
      t'.toStore.Shows w' → (Stores dst bs r t' ↔ t.CopyFits dst bs.length)) w := by
    apply Holds.fat32Copy h hz ?_ hpath hfile
    · rintro ⟨r', y, hq⟩
      have hq' := statPath_of_pathAt h hq
      have hne := hdiff p _ hp (hq' ▸ h.answers_stat ht hw dst)
      rw [hpe] at hne
      exact hne rfl
    · intro err w' ch' hno _ _ _ t' _ _
      refine iff_of_true (Stores.of_neg err.code_neg) fun hop hfree n hn h0 => ?_
      obtain ⟨ha, hne⟩ := hopens.mp hop
      exact absurd (hno ha (htwo.mp hfree) hne n ((h.room_iff ht hw ha hne).mp hn)) h0
    · intro n w' ch' D' s j run y ha hfree hne hroom h0 hlay hrefilled _ _ hcontent t' ht' hw'
      have hstored := hrefilled.stored h hz hcontent
      have hop := hopens.mpr ⟨ha, hne⟩
      have hroom' := (h.room_iff ht hw ha hne).mpr hroom
      have hfile' := hstored.fileIs_iff bs hlay ht' hw'
      have hnamed := h.named_iff ht hw dst
      have hfits : t.CopyFits dst bs.length ↔ t.Named dst ∧
          bs.length ≤ n * (w.vol.secPerClus * 512) := by
        rw [← hw.vol]
        refine ⟨fun hf => (hf hop (htwo.mpr hfree) n hroom' h0).2, fun hf _ hfree' n' hn' h0' => ?_⟩
        obtain rfl := hroom.unique ((h.room_iff ht hw ha hne).mp hn') h.tree.nodup
        exact ⟨hst hop hfree' n hn' h0', hf⟩
      rw [← hbs, eq_comm, List.take_eq_self_iff, ← hnamed] at hfile'
      rw [hfits, ← hfile']
      exact ⟨fun hs => hs.1 rfl, fun hf => ⟨fun _ => hf, fun hno => absurd hf hno⟩⟩
    · intro ha hfree hno l m hd hg hm
      have hne := h.start_ne_zero hd
      refine h.storable ht hw hno (hst (hopens.mpr ⟨ha, hne⟩) (htwo.mpr hfree) _
        ((h.room_iff ht hw ha hne).mpr (View.Room.created hno hd hg)) (by omega)) l m hd hg hm
  exact hcopy.wp_iff ht hw

end Success

/-- Success of `fat32_write_file` and of `fat32_copy` means that everything is
stored where it fits, and, on a path that can be created, only there. -/
theorem success_iff_fits {t : Drv} (ht : t.Ready) (hc : t.Consistent) {path : CStr}
    (hz : ∀ c ∈ path, c ≠ 0) :
    (∀ data : List UInt8, data.length < 4294967296 →
      (t.WriteFits path data.length → (fat32WriteFile path data).wp (Stores path data) t) ∧
      (t.Storable path → (fat32WriteFile path data).wp (Stores path data) t →
        t.WriteFits path data.length)) ∧
    ∀ src bs, t.FileIs src bs → t.Differ src path →
      (t.CopyFits path bs.length → (fat32Copy src path).wp (Stores path bs) t) ∧
      (t.Storable path → (fat32Copy src path).wp (Stores path bs) t →
        t.CopyFits path bs.length) := by
  refine ⟨fun data h32 => ⟨fun hf => ?_, fun hst => ?_⟩,
    fun src bs hsrc hdiff => ⟨fun hf => ?_, fun hst => ?_⟩⟩
  · exact (writeFile_iff ht hc hz h32 fun ho n hn h0 => (hf ho n hn h0).1).mpr hf
  · exact (writeFile_iff ht hc hz h32 fun _ _ _ _ => hst).mp
  · exact (copy_iff ht hc hz hsrc hdiff fun ho h2 n hn h0 => (hf ho h2 n hn h0).1).mpr hf
  · exact (copy_iff ht hc hz hsrc hdiff fun _ _ _ _ _ => hst).mp

section Fresh

theorem growsBy_blank {need : Nat} (h : need ≤ n) : GrowsBy (Listing.blank n).slots need 0 := by
  refine Or.inl ⟨rfl, 0, ?_, fun j _ _ e he => Or.inl ?_, fun h0 => absurd h0 (Nat.lt_irrefl 0)⟩
  · change 0 + need ≤ (List.replicate n (Block.zero 32)).length
    rw [List.length_replicate]
    omega
  · have hmem : e ∈ List.replicate n (Block.zero 32) := List.mem_of_getElem? he
    rw [(List.mem_replicate.mp hmem).2]
    rfl

theorem opens_fresh : (fresh 4).Opens [0x2F, 0x41] := by
  refine (fresh_layout.opens_iff (fresh_ready (by omega)) fresh_shows _).mpr
    ⟨⟨rfl, fun _ => rfl, View.freeFd_ne_none fun _ => rfl, fun p hp => ?_, fun _ => rfl⟩, ?_⟩
  · rw [statPath_fresh] at hp
    cases hp
  · rw [resolveParent_fresh]
    decide

theorem room_fresh (n : Nat) : (fresh 4).Room [0x2F, 0x41] n ↔ n = 3 := by
  have hready : (fresh 4).Ready := fresh_ready (by omega)
  obtain ⟨ha, hne⟩ := (fresh_layout.opens_iff hready fresh_shows _).mp opens_fresh
  have hroom : (fresh 4).toStore.view.Room (fun _ => [2]) [⟨2, Listing.blank 128⟩] [0x2F, 0x41] 3 := by
    rw [← freeCount_fresh]
    refine View.Room.created statPath_fresh (l := Listing.blank 128) (m := 0) ?_ ?_
    · rw [resolveParent_fresh]
      exact List.mem_singleton_self _
    · rw [resolveParent_fresh]
      exact growsBy_blank (by decide)
  rw [fresh_layout.room_iff hready fresh_shows ha hne]
  refine ⟨fun hn => hn.unique hroom fresh_layout.tree.nodup, fun hn => hn ▸ hroom⟩

theorem answers_parent_fresh : (pathResolveParent [0x2F, 0x41]).Answers (fresh 4) (2, [0x41]) :=
  resolveParent_fresh ▸ fresh_layout.answers_parent (fresh_ready (by omega)) fresh_shows _

theorem storable_fresh : (fresh 4).Storable [0x2F, 0x41] := by
  refine fun _ => ⟨slotsFit_fresh, fun r hr => ?_⟩
  obtain rfl := answers_parent_fresh.det hr
  decide

theorem named_fresh : (fresh 4).Named [0x2F, 0x41] := by
  intro r hr
  rw [← answers_parent_fresh.det hr]
  decide

/-- What fits into a new file on a fresh volume of four clusters, three of which
are free. -/
theorem writeFits_fresh (len : Nat) (h : len < 2147483648) :
    (fresh 4).WriteFits [0x2F, 0x41] len ↔ len ≤ 12288 := by
  have hcs : (fresh 4).vol.secPerClus * 512 = 4096 := rfl
  unfold Drv.WriteFits
  rw [hcs]
  refine ⟨fun hf => ?_, fun hle _ n hn _ => ?_⟩
  · rcases (hf opens_fresh 3 ((room_fresh 3).mpr rfl) (by omega)).2 with ⟨-, hle⟩ | hge
    · exact hle
    · omega
  · rw [room_fresh] at hn
    subst hn
    exact ⟨storable_fresh, Or.inl ⟨named_fresh, hle⟩⟩

end Fresh

/-- Storing three bytes on a fresh volume. -/
theorem success_iff_fits_fresh :
    (fat32WriteFile [0x2F, 0x41] [1, 2, 3]).wp (Stores [0x2F, 0x41] [1, 2, 3]) (fresh 4) :=
  ((success_iff_fits (fresh_ready (by omega)) ⟨_, fresh_shows, _, _, fresh_layout⟩
    (by simp)).1 [1, 2, 3] (by decide)).1 ((writeFits_fresh 3 (by omega)).mpr (by omega))

/-- One byte more than the free clusters hold: `fat32_write_file` stores what
fits and reports success. -/
theorem writeFile_truncates : (fresh 4).Ready ∧ (fresh 4).Consistent ∧
    ¬ (fat32WriteFile [0x2F, 0x41] (List.replicate 12289 0)).wp
      (Stores [0x2F, 0x41] (List.replicate 12289 0)) (fresh 4) := by
  have hready : (fresh 4).Ready := fresh_ready (by omega)
  have hc : (fresh 4).Consistent := ⟨_, fresh_shows, _, _, fresh_layout⟩
  refine ⟨hready, hc, fun hwp => ?_⟩
  have hf := (writeFile_iff hready hc (by simp) (by rw [List.length_replicate]; omega)
    fun _ _ _ _ => storable_fresh).mp hwp
  rw [List.length_replicate, writeFits_fresh _ (by omega)] at hf
  omega

end Chimaera.Fat32
