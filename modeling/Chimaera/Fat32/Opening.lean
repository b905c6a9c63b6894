/-
`fat32_open` as a whole: for reading it sets up a descriptor, for writing it
truncates the file that the path names or creates a new one.
-/
import Chimaera.Fat32.Calls

namespace Chimaera.Fat32

open Prog

variable {β : Type} {R : β → View → Prop} {w w' : View} {ch ch' : Nat → List Nat}
  {D D' : List Dir} {T : List Nat} {g : Int → Prog Drv β} {path : CStr} {fd s i n : Nat}
  {f : Fd} {l l' : Listing} {run r : List DirEntry} {e x : DirEntry} {v : Vol}

/-- The path consists of printable ASCII characters. -/
def Printable (path : CStr) : Prop := ∀ c ∈ path, 0x20 ≤ c ∧ c ≤ 0x7E

instance (path : CStr) : Decidable (Printable path) :=
  inferInstanceAs (Decidable (∀ c ∈ path, _))

theorem Printable.ne_zero (h : Printable path) : ∀ c ∈ path, c ≠ 0 := by
  rintro c hc rfl
  exact absurd (h 0 hc).1 (by decide)

/-- The short name picked for a printable name never looks deleted. -/
theorem Printable.pick83_ne {name : CStr} (h : Printable name) (taken : List UInt8 → Bool) :
    (pick83 taken name).getD 0 0 ≠ 0xE5 := by
  intro heq
  rcases pick83_first taken name with h₁ | h₁ | ⟨-, c, hc, h₁⟩
  · rw [h₁] at heq
    exact absurd heq (by decide)
  · rw [h₁] at heq
    exact absurd heq (by decide)
  · rw [h₁, fToupper_eq_iff (by decide)] at heq
    subst heq
    exact absurd (h 0xE5 hc).2 (by decide)

theorem Printable.resolveParent (h : Printable path) :
    Printable (resolveParent v D path).2 :=
  fun c hc => h c ((resolveParent_name path).2 c hc).1

/-- The path names the entry in slot `i` of the directory at `s`. -/
def PathAt (v : Vol) (D : List Dir) (path : CStr) (s i : Nat) (run : List DirEntry)
    (e : DirEntry) : Prop :=
  ∃ l j, ⟨s, l⟩ ∈ D ∧ (resolveParent v D path).1 = s ∧ (resolveParent v D path).2 ≠ [] ∧
    l.find (resolveParent v D path).2 = some (j, run, e) ∧ i = j + run.length

theorem PathAt.entryAt (h : PathAt v D path s i run e) : EntryAt D s i run e := by
  obtain ⟨l, j, hd, -, -, hfind, rfl⟩ := h
  exact ⟨_, hd, rfl, Listing.find_at hfind⟩

/-- The path leads to the place of an entry when it names one. -/
theorem exists_pathAt (h : w.Layout ch D T) {p : PathInfo}
    (hp : statPath w.vol ch D path = some p) (hfile : p.entry.isDir = false) :
    ∃ s i run, PathAt w.vol D path s i run p.entry ∧
      p = ⟨p.entry, posAt w.vol 0 (ch s) i, s⟩ := by
  obtain ⟨⟨s, l⟩, hd, j, run, hs, hfind, hne, hpe⟩ := statPath_entry h hp hfile
  exact ⟨s, j + run.length, run, ⟨l, j, hd, hs.symm, hne, hfind, rfl⟩, hpe⟩

/-- The place of an inserted entry was empty before. -/
theorem Listing.Inserted.not_at {j : Nat} (h : l.Inserted l' j run e) :
    ¬ l.At (j + run.length) r x := by
  obtain ⟨pre, hs, post, heq, hhs, -, rfl, hcase⟩ := h
  intro hat
  unfold Listing.At at hat
  rw [heq, at_append, at_append] at hat
  rcases hat with (hat | hat) | hat
  · have := hat.lt
    omega
  · exact not_at_holes hhs hat
  · rcases hcase with hlen | rfl
    · have := hat.ge
      rw [List.flatMap_append, List.length_append, length_holes hhs] at this
      omega
    · exact hat.elim

structure ReadOn (w : View) (f : Fd) : Prop where
  isOpen : f.isOpen = true
  write : f.write = false
  tame : w.Tame f.curCluster
  size_lt : f.size < 4294967296

theorem View.Evolves.tame {k : Nat} (h : w.Evolves w') (ht : w.Tame k) : w'.Tame k := by
  rcases ht with ht | ht | ⟨hk, h7⟩
  · exact Or.inl ht
  · exact Or.inr (Or.inl ht)
  · exact Or.inr (Or.inr ⟨h.vol ▸ hk, fun h7' => h7 (h.bad k h7')⟩)

theorem ReadOn.evolves (h : ReadOn w f) (hw : w.Evolves w') : ReadOn w' f :=
  ⟨h.isOpen, h.write, hw.tame h.tame, h.size_lt⟩

theorem DirEntry.size_lt (e : DirEntry) : e.size < 4294967296 := Block.word_lt e 28 4

theorem View.Layout.tame_cluster (h : w.Layout ch D T) (hs : w.vol.Sound n)
    (he : EntryAt D s i run e) : w.Tame e.cluster := by
  by_cases h0 : e.cluster = 0
  · exact Or.inl (by omega)
  · have hm := List.mem_append_left T (he.mem_starts (v := w.vol) h0)
    exact Or.inr (Or.inr ⟨h.cluster_inRange he h0,
      (h.chains.fat_ne hs hm (h.chains.mem_self hm)).2⟩)

theorem Holds.fat32Open_read (h : w.Layout ch D T)
    (herr : ∀ err : Err, ¬ Admits w ch D path false → Holds (g err.code) R w)
    (hok : ∀ fd s i run e, fd < 16 → (w.fds fd).isOpen = false →
      PathAt w.vol D path s i run e → e.isDir = false →
      ReadOn w (openFd w.vol (ch s) false s i e) →
      Holds (g fd) R (w.setFd fd (openFd w.vol (ch s) false s i e))) :
    Holds (Fat32.fat32Open path false >>= g) R w := by
  refine Holds.of_sound fun n hs => ?_
  apply Holds.fat32Open h herr
  · intro fd p hfd hp hfile _ _
    obtain ⟨s, i, run, hpath, hpe⟩ := exists_pathAt h hp hfile
    apply Holds.openExisting_read hpe
    exact hok fd s i run p.entry (View.freeFd_lt hfd) (View.freeFd_closed hfd) hpath hfile
      ⟨rfl, rfl, h.tame_cluster hs hpath.entryAt, DirEntry.size_lt _⟩
  · intro fd _ _ hw
    exact absurd hw (by decide)

theorem OpenOn.of_fds (ho : OpenOn w ch D f s i run e) (hv : w'.vol = w.vol) :
    OpenOn w' ch D f s i run e :=
  ⟨ho.entry, ho.file, ho.ne, ho.isOpen, ho.write, ho.cluster, by rw [hv]; exact ho.dirLba,
    by rw [hv]; exact ho.dirOffset, by rw [hv]; exact ho.inside⟩

/-- The descriptors that are open stay as they are. -/
def View.FdsKept (w w' : View) : Prop := ∀ j, (w.fds j).isOpen = true → w'.fds j = w.fds j

theorem View.FdsKept.of_eq (h : w'.fds = w.fds) : w.FdsKept w' := fun j _ => by rw [h]

theorem View.FdsKept.update (hc : (w.fds fd).isOpen = false)
    (h : w'.fds = Function.update w.fds fd f) : w.FdsKept w' := by
  intro j hj
  rw [h, Function.update_of_ne]
  rintro rfl
  rw [hc] at hj
  exact absurd hj (by decide)

/-- `n` clusters are there for the content of the file that the path names, or of
a new one, once it is opened for writing. -/
inductive View.Room (w : View) (ch : Nat → List Nat) (D : List Dir) (path : CStr) : Nat → Prop
  | existing {p : PathInfo} (hp : statPath w.vol ch D path = some p) :
      Room w ch D path ((fileChain ch p.entry).length + w.freeCount)
  | created {l : Listing} {m : Nat} (hp : statPath w.vol ch D path = none)
      (hd : ⟨(Fat32.resolveParent w.vol D path).1, l⟩ ∈ D)
      (hg : GrowsBy l.slots (lfnCount (Fat32.resolveParent w.vol D path).2 + 1) m) :
      Room w ch D path (w.freeCount - m)

/-- The entry `e` of a descriptor that was just opened for writing: the one that
the path named, cut off, or a new one. -/
inductive Opened (w : View) (ch : Nat → List Nat) (D : List Dir) (path : CStr) (D' : List Dir)
    (s i : Nat) (run : List DirEntry) (e : DirEntry) : Prop
  | existing (l l' : Listing) (x : DirEntry) (hp : PathAt w.vol D path s i run x) (hd : ⟨s, l⟩ ∈ D)
      (hup : l.Updated l' i run x e) (hb : ∀ b < 20, e.byte b = x.byte b)
      (hD : D' = setListing D s l')
  | created (l l' : Listing) (j k : Nat) (hp : statPath w.vol ch D path = none)
      (hs : (Fat32.resolveParent w.vol D path).1 = s) (hd : ⟨s, l⟩ ∈ D)
      (hrun : run = newPieces l (Fat32.resolveParent w.vol D path).2)
      (he : e = newEntry l (Fat32.resolveParent w.vol D path).2 0x20 k 0)
      (hins : l.Inserted l' j run e) (hi : i = j + run.length) (hD : D' = setListing D s l')

/-- The entry at the place of a new one is the one that the path named. -/
theorem Opened.pathAt (h : w.Layout ch D T) (ho : Opened w ch D path D' s i run e)
    (hx : EntryAt D s i r x) : PathAt w.vol D path s i r x := by
  cases ho with
  | existing l l' x₀ hp hd hup hb hD =>
      obtain ⟨rfl, rfl⟩ := ((entryAt_iff h.tree.nodup hd).mp hx).unique
        ((entryAt_iff h.tree.nodup hd).mp hp.entryAt)
      exact hp
  | created l l' j k hp hs hd hrun he hins hi hD =>
      subst hi
      exact absurd ((entryAt_iff h.tree.nodup hd).mp hx) hins.not_at

theorem Opened.parent_ne (h : w.Layout ch D T) (ho : Opened w ch D path D' s i run e) :
    (Fat32.resolveParent w.vol D path).1 ≠ 0 := by
  cases ho with
  | existing l l' x₀ hp hd hup hb hD =>
      obtain ⟨l, j, -, rfl, -⟩ := hp
      exact h.start_ne_zero hd
  | created l l' j k hp hs hd hrun he hins hi hD =>
      subst hs
      exact h.start_ne_zero hd

/-- The slots of a new name have room in the directory and one more cluster, where
the disk has one, and its short name does not look deleted. -/
def View.Storable (w : View) (D : List Dir) (path : CStr) : Prop :=
  ∀ l m, ⟨(Fat32.resolveParent w.vol D path).1, l⟩ ∈ D →
    GrowsBy l.slots (lfnCount (Fat32.resolveParent w.vol D path).2 + 1) m → m < w.freeCount →
    RoomFor l.slots w.vol.perCluster (lfnCount (Fat32.resolveParent w.vol D path).2 + 1) ∧
      (pick83 l.has (Fat32.resolveParent w.vol D path).2).getD 0 0 ≠ 0xE5

/-- The descriptor of a file that was cut off; its first cluster is not its directory's. -/
theorem View.Layout.openOn_truncated {k : Nat}
    (h : w'.Layout (Function.update ch k [k]) (setListing D s l') T) (hd : ⟨s, l⟩ ∈ D)
    (hup : l.Updated l' i run x (truncated x k)) (hfile : x.isDir = false) (hk0 : k ≠ 0)
    (hk : k < 268435456) : s ≠ k ∧ OpenOn w' (Function.update ch k [k]) (setListing D s l')
      (openFd w'.vol (Function.update ch k [k] s) true s i (truncated x k)) s i run
      (truncated x k) := by
  have hcl : (truncated x k).cluster = k := cluster_truncated (by omega)
  have hfile' : (truncated x k).isDir = false :=
    (DirEntry.isDir_congr fun b hb => byte_truncated hb).trans hfile
  have hentry : EntryAt (setListing D s l') s i run (truncated x k) :=
    (entryAt_setListing hd).mpr (Or.inr ⟨rfl, hup.at_iff.mpr (Or.inr ⟨rfl, rfl, rfl⟩)⟩)
  refine ⟨fun heq => ?_, openOn_fresh hentry hfile' hcl hk0 size_truncated
    (Function.update_self _ _ _)⟩
  obtain ⟨d, hd', hs'⟩ := exists_setListing l' hd hd
  have hne := h.start_ne hd' hentry hfile' (by rw [hcl]; exact hk0)
  exact hne (by rw [hs', hcl]; exact heq)

/-- The descriptor of a file that was created. -/
theorem openOn_created {name : CStr} {j k : Nat} (hd : ⟨s, l⟩ ∈ D)
    (hins : l.Inserted l' j (newPieces l name) (newEntry l name 0x20 k 0)) (hk0 : k ≠ 0)
    (hk : k < 268435456) (hch : ch' k = [k]) :
    (newEntry l name 0x20 k 0).cluster = k ∧ (newEntry l name 0x20 k 0).size = 0 ∧
      OpenOn w' ch' (setListing D s l') (openFd w'.vol (ch' s) true s
          (j + (newPieces l name).length) (newEntry l name 0x20 k 0)) s
        (j + (newPieces l name).length) (newPieces l name) (newEntry l name 0x20 k 0) := by
  have hcl : (newEntry l name 0x20 k 0).cluster = k := shortEntry_cluster (by omega)
  have hsize : (newEntry l name 0x20 k 0).size = 0 := shortEntry_size (by omega)
  have hfile : (newEntry l name 0x20 k 0).isDir = false := by
    rw [newEntry, DirEntry.isDir, shortEntry_attr]
    decide
  have hentry : EntryAt (setListing D s l') s (j + (newPieces l name).length) (newPieces l name)
      (newEntry l name 0x20 k 0) :=
    (entryAt_setListing hd).mpr (Or.inr ⟨rfl, hins.at_iff.mpr (Or.inr ⟨rfl, rfl, rfl⟩)⟩)
  exact ⟨hcl, hsize, openOn_fresh hentry hfile hcl hk0 hsize hch⟩

/-- `fat32_open` for writing: a fresh descriptor, or an error for a reason. -/
theorem Holds.fat32Open_opened (h : w.Layout ch D T) (hz : ∀ c ∈ path, c ≠ 0)
    (hst : Admits w ch D path true → statPath w.vol ch D path = none → w.Storable D path)
    (herr : ∀ (err : Err) w' ch', (Admits w ch D path true →
      (Fat32.resolveParent w.vol D path).1 ≠ 0 → ∀ n, w.Room ch D path n → n = 0) →
      w'.Layout ch' D T → Kept (fun _ _ => False) w ch D w' ch' D →
      w.Evolves w' → w.FdsKept w' → Holds (g err.code) R w')
    (hok : ∀ fd w' ch' D' s i run e, Admits w ch D path true → fd < 16 →
      (w.fds fd).isOpen = false →
      w'.Layout ch' D' T → Kept (fun t j => t = s ∧ j = i) w ch D w' ch' D' → w.Evolves w' →
      w'.fds = Function.update w.fds fd (openFd w.vol (ch' s) true s i e) →
      OpenOn w' ch' D' (openFd w.vol (ch' s) true s i e) s i run e →
      Opened w ch D path D' s i run e → ch' e.cluster = [e.cluster] → e.size = 0 →
      w.Room ch D path (1 + w'.freeCount) → Holds (g fd) R w') :
    Holds (Fat32.fat32Open path true >>= g) R w := by
  refine Holds.of_sound fun n hs => ?_
  apply Holds.fat32Open h
  · exact fun err hno => herr err w ch (fun ha _ => absurd ha hno) h Kept.refl View.Evolves.refl
      (View.FdsKept.of_eq rfl)
  · intro fd p hfd hstat hfile hm hro
    have hclosed := View.freeFd_closed hfd
    have hadmits : Admits w ch D path true := by
      refine ⟨hm, hro, ⟨fd, hfd⟩, fun q hq => ?_, fun _ => rfl⟩
      rw [hstat, Option.some.injEq] at hq
      exact hq ▸ hfile
    obtain ⟨s, i, run, hpath, hpe⟩ := exists_pathAt h hstat hfile
    obtain ⟨l, j, hd, -, -, hfind, rfl⟩ := id hpath
    have hat := Listing.find_at hfind
    have hat' := (entryAt_iff h.tree.nodup hd).mpr hat
    apply Holds.openExisting_write h hpe hd hat hfile
    · intro hcl hfree
      refine herr Err.full _ ch (fun _ _ n hn => ?_) (h.of_eq rfl rfl rfl) (Kept.refl.of_sec rfl)
        View.Evolves.setFd (View.FdsKept.update hclosed rfl)
      cases hn with
      | existing hp =>
          rw [hstat, Option.some.injEq] at hp
          rw [← hp, fileChain, if_pos hcl, hfree]
          rfl
      | created hp => rw [hstat] at hp; cases hp
    · intro k w' l' hk hcount hup hlay hkept hevo hfds
      have hk0 : k ≠ 0 := by
        have := hk.1
        omega
      have hcl : (truncated p.entry k).cluster = k :=
        cluster_truncated (by have := hs.inRange_lt hk; omega)
      obtain ⟨hsk, hopen⟩ := hlay.openOn_truncated hd hup hfile hk0 (hs.inRange_lt hk)
      rw [hevo.vol] at hopen
      refine hok fd w' _ _ s (j + run.length) run _ hadmits (View.freeFd_lt hfd) hclosed hlay
        hkept hevo ?_ hopen
        (Opened.existing l l' p.entry hpath hd hup (fun b hb => byte_truncated hb) rfl) ?_
        size_truncated ?_
      · rw [Function.update_of_ne hsk]
        exact hfds
      · rw [hcl, Function.update_self]
      · have hroom := View.Room.existing (w := w) hstat
        have heq : 1 + w'.freeCount = (fileChain ch p.entry).length + w.freeCount := by omega
        rwa [heq]
  · intro fd hfd hstat _ hm hro
    have hclosed := View.freeFd_closed hfd
    have hadmits : Admits w ch D path true :=
      ⟨hm, fun _ => hro, ⟨fd, hfd⟩, fun q hq => absurd (hstat.symm.trans hq) (by simp),
        fun _ => rfl⟩
    refine Holds.openCreate h hz (hst hadmits hstat) (fun h0 => ?_) ?_ ?_
    · exact herr Err.notFound w ch (fun _ hne => absurd h0 hne) h Kept.refl View.Evolves.refl
        (View.FdsKept.of_eq rfl)
    · intro w' ch' hroom hlay hkept hevo hfds
      refine herr Err.full w' ch' (fun _ _ n hn => ?_) hlay hkept hevo (View.FdsKept.of_eq hfds)
      cases hn with
      | existing hp => rw [hstat] at hp; cases hp
      | created hp hd hg =>
          have := hroom _ _ hd hg
          omega
    · intro k w' ch' l l' j hd hk hleft hins hlay hkept hevo hch hfds
      obtain ⟨m, hg, hcount⟩ := hleft
      have hk0 : k ≠ 0 := by
        have := hk.1
        omega
      have hroom := View.Room.created hstat hd hg
      have heq : w.freeCount - m = 1 + w'.freeCount := by omega
      rw [heq] at hroom
      obtain ⟨hcl, hsize, hopen⟩ := openOn_created hd hins hk0 (hs.inRange_lt hk) hch
      rw [hevo.vol] at hopen
      exact hok fd w' ch' _ _ _ _ _ hadmits (View.freeFd_lt hfd) hclosed hlay
        (hkept.mono fun _ _ hF => hF.elim) hevo hfds hopen
        (Opened.created l l' j k hstat rfl hd rfl rfl hins rfl rfl)
        (by rw [hcl]; exact hch) hsize hroom

/-- Printable names can be stored in clusters of two sectors and more. -/
theorem Printable.storable (hp : Printable path) (hspc : 2 ≤ w.vol.secPerClus) :
    w.Storable D path := by
  intro l m _ _ _
  refine ⟨roomFor_of_le ?_, hp.resolveParent.pick83_ne _⟩
  have hcount := lfnCount_le (resolveParent_name (v := w.vol) (D := D) path).1
  rw [Vol.perCluster]
  omega

/-- `fat32_open` for writing: the entry at the new descriptor's place is the one
that the path names, or it was not there before. -/
theorem Holds.fat32Open_write (h : w.Layout ch D T) (hspc : 2 ≤ w.vol.secPerClus)
    (hp : Printable path)
    (herr : ∀ (err : Err) w' ch', w'.Layout ch' D T → Kept (fun _ _ => False) w ch D w' ch' D →
      w.Evolves w' → w.FdsKept w' → Holds (g err.code) R w')
    (hok : ∀ fd f w' ch' D' s i run e, fd < 16 → (w.fds fd).isOpen = false →
      w'.Layout ch' D' T → Kept (fun t j => t = s ∧ j = i) w ch D w' ch' D' → w.Evolves w' →
      w'.fds = Function.update w.fds fd f → OpenOn w' ch' D' f s i run e →
      (∀ r x, EntryAt D s i r x → PathAt w.vol D path s i r x) → Holds (g fd) R w') :
    Holds (Fat32.fat32Open path true >>= g) R w := by
  apply Holds.fat32Open_opened h hp.ne_zero fun _ _ => hp.storable hspc
  · exact fun err w' ch' _ => herr err w' ch'
  · intro fd w' ch' D' s i run e _ hlt hclosed hlay hkept hevo hfds ho hop _ _ _
    exact hok fd _ w' ch' D' s i run e hlt hclosed hlay hkept hevo hfds ho
      fun r x hx => hop.pathAt h hx

end Chimaera.Fat32
