/-
The public calls on a layout: `fat32_open`, `fat32_write`, `fat32_close`,
`fat32_unlink` and `fat32_mkdir`, as changes of its entries.
-/
import Chimaera.Fat32.Preserve
import Chimaera.Fat32.Update

namespace Chimaera.Fat32

open Prog

variable {β : Type} {R : β → View → Prop} {w w' : View} {ch : Nat → List Nat} {D : List Dir}
  {T : List Nat} {g : Int → Prog Drv β} {path : CStr} {fd s i n : Nat} {f : Fd} {l : Listing}
  {run : List DirEntry} {e : DirEntry}

def View.freeFd (w : View) : Option Nat := (List.range 16).find? fun i => !(w.fds i).isOpen

theorem View.freeFd_lt (h : w.freeFd = some fd) : fd < 16 :=
  List.mem_range.mp (List.mem_of_find?_eq_some h)

theorem View.freeFd_closed (h : w.freeFd = some fd) : (w.fds fd).isOpen = false := by
  simpa using List.find?_some h

theorem View.exists_freeFd {i : Nat} (hi : i < 16) (hc : (w.fds i).isOpen = false) :
    ∃ k, w.freeFd = some k := by
  refine Option.isSome_iff_exists.mp ?_
  unfold freeFd
  rw [List.find?_isSome]
  exact ⟨i, List.mem_range.mpr hi, by rw [hc]; rfl⟩

theorem View.freeFd_ne_none (h : ∀ j, (w.fds j).isOpen = false) : ∃ fd, w.freeFd = some fd :=
  View.exists_freeFd (by omega : 0 < 16) (h 0)

/-- The descriptor that `fat32_open` sets up for the short entry `e` in slot `i`
of the directory at `s`. -/
def openFd (v : Vol) (xs : List Nat) (write : Bool) (s i : Nat) (e : DirEntry) : Fd :=
  ⟨true, write, e.cluster, s, (posAt v 0 xs i).lba, (posAt v 0 xs i).off, e.size, 0, e.cluster⟩

/-- The descriptor `f` is open for writing on the entry `e` in slot `i` of the
directory at `s`, with its cursor where `fat32_write` expects it. -/
structure OpenOn (w : View) (ch : Nat → List Nat) (D : List Dir) (f : Fd) (s i : Nat)
    (run : List DirEntry) (e : DirEntry) : Prop where
  entry : EntryAt D s i run e
  file : e.isDir = false
  ne : e.cluster ≠ 0
  isOpen : f.isOpen = true
  write : f.write = true
  cluster : f.cluster = e.cluster
  dirLba : f.dirLba = (posAt w.vol 0 (ch s) i).lba
  dirOffset : f.dirOffset = (posAt w.vol 0 (ch s) i).off
  inside : f.Inside w.vol (ch e.cluster)

/-- A path that resolves to an entry: its directory, and its place there. -/
theorem statPath_entry (h : w.Layout ch D T) {p : PathInfo}
    (hp : statPath w.vol ch D path = some p) (hfile : p.entry.isDir = false) :
    ∃ d ∈ D, ∃ j run, d.start = (resolveParent w.vol D path).1 ∧
      d.listing.find (resolveParent w.vol D path).2 = some (j, run, p.entry) ∧
      (resolveParent w.vol D path).2 ≠ [] ∧
      p = ⟨p.entry, posAt w.vol 0 (ch d.start) (j + run.length), d.start⟩ := by
  unfold statPath at hp
  by_cases hroot : path = [0x2F]
  · rw [if_pos hroot, Option.some.injEq] at hp
    subst hp
    rw [DirEntry.isDir_rootEntry] at hfile
    exact absurd hfile (by decide)
  · rw [if_neg hroot] at hp
    by_cases herr : (resolveParent w.vol D path).1 = 0 ∨ (resolveParent w.vol D path).2 = []
    · rw [if_pos herr] at hp
      exact absurd hp (by simp)
    · rw [if_neg herr] at hp
      obtain ⟨d, hd, hs⟩ := (resolveParent_mem h path).resolve_left fun h0 => herr (Or.inl h0)
      rw [← hs, h.listingOf hd, Option.bind_some] at hp
      unfold Listing.found at hp
      cases hfind : d.listing.find (resolveParent w.vol D path).2 with
      | none =>
          rw [hfind] at hp
          simp at hp
      | some r =>
          obtain ⟨j, run, e⟩ := r
          rw [hfind] at hp
          simp only [Option.map_some, Option.some.injEq] at hp
          subst hp
          exact ⟨d, hd, j, run, hs, hfind, fun h0 => herr (Or.inr h0), rfl⟩

/-- The clusters of the file with the entry `e`. -/
def fileChain (ch : Nat → List Nat) (e : DirEntry) : List Nat :=
  if e.cluster = 0 then [] else ch e.cluster

theorem View.Layout.fileChain_inRange (h : w.Layout ch D T) (he : EntryAt D s i run e) :
    ∀ k ∈ fileChain ch e, w.vol.InRange k := by
  intro k hk
  unfold fileChain at hk
  split at hk
  · simp at hk
  · next hc => exact h.chains.inRange (List.mem_append_left T (he.mem_starts hc)) hk

theorem fat_freeChain_fileChain : (w.freeChain (fileChain ch e)).fat =
    if e.cluster = 0 then w.fat else (w.freeChain (ch e.cluster)).fat := by
  unfold fileChain
  split
  · simp
  · rfl

/-- A file gives its clusters back. -/
theorem View.Layout.freeCount_fileChain (h : w.Layout ch D T) (hs : w.vol.Sound n)
    (he : EntryAt D s i run e) :
    (w.freeChain (fileChain ch e)).freeCount = w.freeCount + (fileChain ch e).length := by
  by_cases h0 : e.cluster = 0
  · rw [fileChain, if_pos h0]
    exact View.freeCount_congr rfl (by simp)
  · have hm := List.mem_append_left T (he.mem_starts (v := w.vol) h0)
    rw [fileChain, if_neg h0]
    exact View.freeCount_freeChain ((h.chains.chain _ hm).1.nodup hs)
      (fun x hx => h.chains.inRange hm hx) fun x hx => (h.chains.fat_ne hs hm hx).1

/-- What `fat32_open` checks before it touches the disk. -/
structure Admits (w : View) (ch : Nat → List Nat) (D : List Dir) (path : CStr) (write : Bool) :
    Prop where
  mounted : w.mounted = true
  writable : write = true → w.readonly = false
  room : ∃ fd, w.freeFd = some fd
  file : ∀ p, statPath w.vol ch D path = some p → p.entry.isDir = false
  found : statPath w.vol ch D path = none → write = true

theorem Holds.fat32Open (h : w.Layout ch D T) {write : Bool}
    (herr : ∀ err : Err, ¬ Admits w ch D path write → Holds (g err.code) R w)
    (hexist : ∀ fd p, w.freeFd = some fd → statPath w.vol ch D path = some p →
      p.entry.isDir = false → w.mounted = true → (write = true → w.readonly = false) →
      Holds (openExisting fd write p >>= g) R w)
    (hnone : ∀ fd, w.freeFd = some fd → statPath w.vol ch D path = none → write = true →
      w.mounted = true → w.readonly = false → Holds (openCreate fd path >>= g) R w) :
    Holds (fat32Open path write >>= g) R w := by
  rw [Fat32.fat32Open, bind_assoc]
  apply Holds.getStore
  intro c hc
  rw [hc.mounted, hc.readonly]
  have hfd : c.freeFd = w.freeFd := by
    unfold Store.freeFd View.freeFd
    rw [hc.fds]
  cases hm : w.mounted with
  | false => exact herr Err.noDev fun ha => by simpa [hm] using ha.mounted
  | true =>
      simp only [Bool.not_true, Bool.false_eq_true, if_false]
      by_cases hro : write = true ∧ w.readonly = true
      · rw [hro.1, hro.2]
        refine herr Err.io fun ha => ?_
        simpa [hro.2] using ha.writable hro.1
      · have hro' : (write && w.readonly) = false := by
          cases write <;> cases hr : w.readonly <;> simp_all
        have hwr : write = true → w.readonly = false := by
          intro hwr
          rw [hwr] at hro'
          simpa using hro'
        simp only [hro', Bool.false_eq_true, if_false, hfd]
        cases hf : w.freeFd with
        | none =>
            refine herr Err.noMem fun ha => ?_
            obtain ⟨fd, hfd⟩ := ha.room
            rw [hf] at hfd
            cases hfd
        | some fd =>
            simp only [bind_assoc]
            apply Holds.pathStat h
            cases hp : statPath w.vol ch D path with
            | none =>
                simp only
                cases hw : write with
                | true =>
                    simp only [if_true]
                    exact hnone fd hf hp hw hm (hwr hw)
                | false =>
                    simp only [Bool.false_eq_true, if_false, pure_bind]
                    refine herr Err.notFound fun ha => ?_
                    rw [hw] at ha
                    exact absurd (ha.found hp) (by decide)
            | some p =>
                simp only
                cases hdir : p.entry.isDir with
                | true =>
                    simp only [if_true, pure_bind]
                    refine herr Err.isDir fun ha => ?_
                    rw [ha.file p hp] at hdir
                    exact absurd hdir (by decide)
                | false =>
                    simp only [Bool.false_eq_true, if_false]
                    exact hexist fd p hf hp hdir hm hwr

theorem Holds.openExisting_read {p : PathInfo} (hp : p =
      ⟨e, posAt w.vol 0 (ch s) i, s⟩)
    (hg : Holds (g fd) R (w.setFd fd (openFd w.vol (ch s) false s i e))) :
    Holds (openExisting fd false p >>= g) R w := by
  subst hp
  rw [openExisting, bind_assoc]
  apply Holds.putFd
  simp only [Bool.false_eq_true, if_false, pure_bind]
  exact hg

def truncated (e : DirEntry) (k : Nat) : DirEntry := (e.setCluster k).setSize 0

theorem byte_truncated {k b : Nat} (h : b < 20) : (truncated e k).byte b = e.byte b := by
  unfold truncated
  rw [DirEntry.byte_setSize _ h, DirEntry.byte_setCluster _ h]

theorem cluster_truncated {k : Nat} (h : k < 4294967296) : (truncated e k).cluster = k := by
  unfold truncated
  rw [DirEntry.cluster_setSize, DirEntry.cluster_setCluster _ h]

theorem size_truncated {k : Nat} : (truncated e k).size = 0 :=
  DirEntry.size_setSize _ (by omega)

theorem Vol.Sound.inRange_lt {v : Vol} {k : Nat} (hs : v.Sound n) (hk : v.InRange k) :
    k < 268435456 := by
  have := hs.total_le
  have := hk.2
  omega

/-- A fresh descriptor on an empty file. -/
theorem openOn_fresh {k : Nat} (he : EntryAt D s i run e) (hfile : e.isDir = false)
    (hk : e.cluster = k) (h0 : k ≠ 0) (hsize : e.size = 0) (hch : ch k = [k]) :
    OpenOn w ch D (openFd w.vol (ch s) true s i e) s i run e := by
  subst hk
  refine ⟨he, hfile, h0, rfl, rfl, rfl, rfl, rfl, ⟨0, ?_, ?_, Nat.zero_le _⟩, ?_, ?_⟩
  · rw [hch]
    exact Nat.zero_lt_one
  · rw [hch]
    rfl
  · change e.size ≤ _
    rw [hsize]
    exact Nat.zero_le _
  · change e.size < _
    rw [hsize]
    omega

/-- The slot of a truncated file, after its chain was given back and a fresh
cluster was taken. -/
theorem View.Layout.truncate_slot {w₀ : View} (w₁ : View) {k : Nat} (h : w.Layout ch D T)
    (hs : w.vol.Sound n) (hd : ⟨s, l⟩ ∈ D) (hat : l.At i run e) (hfile : e.isDir = false)
    (hw₀ : w₀ = if e.cluster = 0 then w else w.freeChain (ch e.cluster)) (hk : w.vol.InRange k)
    (h0 : w₀.fat k = 0) (hv : w₁.vol = w.vol) (hf : w₁.fat = (w₀.alloc 0 k).fat)
    (hsec : ∀ y, y ≠ k → w₁.sec y = w.sec y) :
    w₁.Chain s (ch s) ∧ i < (ch s).length * w₁.vol.perCluster ∧
      ∃ l', l.Updated l' i run e (truncated e k) ∧
        (w₁.setSlot (ch s) i (truncated e k)).Layout (Function.update ch k [k])
          (setListing D s l') T ∧
        Kept (fun t j => t = s ∧ j = i) w ch D (w₁.setSlot (ch s) i (truncated e k))
          (Function.update ch k [k]) (setListing D s l') := by
  have heD := (entryAt_iff h.tree.nodup hd).mpr hat
  have hlists := h.lists hd
  have hk0 : k ≠ 0 := by
    have := hk.1
    omega
  have hilt : i < (ch s).length * w₁.vol.perCluster := by
    rw [hv, ← hlists.length_slots]
    exact hat.lt
  have hkeep : ∀ y ∈ ch s, w₁.fat y = w.fat y ∧ y ≠ k := by
    intro y hy
    have hy₀ : w₀.fat y = w.fat y := by
      rw [hw₀]
      split
      · rfl
      · next hc => exact if_neg fun hm => h.file_disjoint hd heD hfile hc hm hy
    have hyk : y ≠ k := by
      rintro rfl
      exact (h.chains.fat_ne hs (h.sound_start hd) hy).1 (hy₀ ▸ h0)
    rw [hf, View.fat_alloc (by omega), if_neg hyk, if_neg (by omega)]
    exact ⟨hy₀, hyk⟩
  obtain ⟨pre, post, heq, hi⟩ := Fat32.At.split hat
  rw [Nat.zero_add] at hi
  obtain ⟨l', heq', hslots'⟩ := l.update (truncated e k) heq
    (hat.ok.congr fun b hb => byte_truncated hb)
  rw [← hi] at hslots'
  have hup : l.Updated l' i run e (truncated e k) := ⟨pre, post, heq, hi, heq'⟩
  have hslots : (w₁.setSlot (ch s) i (truncated e k)).slots (ch s) = l'.slots := by
    rw [View.slots_setSlot (hlists.chain.nodup hs) hilt, hslots', ← hlists.slots]
    congr 1
    exact View.slots_congr hv fun y hy => hsec y (hkeep y hy).2
  have hcl : (truncated e k).cluster = k := cluster_truncated (by
    have := hs.inRange_lt hk
    omega)
  have htrunc := h.truncate (w₁.setSlot (ch s) i (truncated e k)) hs hd hup
    hfile ((DirEntry.isDir_congr fun b hb => byte_truncated hb).trans hfile) hw₀
    (by rw [hcl]; exact hk) (by rw [hcl]; exact h0) size_truncated
    (by rw [View.vol_setSlot, hv]) (by rw [View.fat_setSlot, hcl, hf])
    (fun y hy hyk => by
      rw [hcl] at hyk
      rw [View.sec_setSlot hilt hy, hsec y hyk]) hslots
  rw [hcl] at htrunc
  exact ⟨hlists.chain.of_fat hv fun y hy => (hkeep y hy).1, hilt, l', hup, htrunc⟩

/-- What comes after the old chain of a truncated file was given back. -/
theorem Holds.openExisting_freed {w₀ : View} (h : w.Layout ch D T) (hs : w.vol.Sound n)
    (hd : ⟨s, l⟩ ∈ D) (hat : l.At i run e) (hfile : e.isDir = false)
    (hw₀ : w₀ = if e.cluster = 0 then w else w.freeChain (ch e.cluster))
    (hfull : e.cluster = 0 → w.freeCount = 0 →
      Holds (g Err.full.code) R (w.setFd fd (openFd w.vol (ch s) true s i e)))
    (hok : ∀ k w' l', w.vol.InRange k →
      w'.freeCount + 1 = w.freeCount + (fileChain ch e).length →
      l.Updated l' i run e (truncated e k) → w'.Layout (Function.update ch k [k]) (setListing D s l') T →
      Kept (fun t j => t = s ∧ j = i) w ch D w' (Function.update ch k [k]) (setListing D s l') →
      w.Evolves w' →
      w'.fds = Function.update w.fds fd (openFd w.vol (ch s) true s i (truncated e k)) →
      Holds (g fd) R w') :
    Holds ((Fat32.fatAlloc 0 >>= fun fresh => if fresh = 0 then Pure.pure Err.full.code
      else Fat32.putFd fd { openFd w.vol (ch s) true s i e with
        cluster := fresh, curCluster := fresh, size := 0, pos := 0 } >>= fun _ =>
        Fat32.dirWriteEntry (posAt w.vol 0 (ch s) i) (truncated e fresh) >>= fun _ =>
        Pure.pure (fd : Int)) >>= g) R (w₀.setFd fd (openFd w.vol (ch s) true s i e)) := by
  have heD := (entryAt_iff h.tree.nodup hd).mpr hat
  have hv₀ : w₀.vol = w.vol := by
    rw [hw₀]
    split <;> rfl
  have hfds₀ : w₀.fds = w.fds := by
    rw [hw₀]
    split <;> rfl
  have hsame₀ : w.Evolves w₀ := by
    rw [hw₀]
    split
    · exact View.Evolves.refl
    · exact View.Evolves.freeChain
  have hcount₀ : w₀.freeCount = w.freeCount + (fileChain ch e).length := by
    rw [← h.freeCount_fileChain hs heD]
    refine View.freeCount_congr hv₀ ?_
    rw [fat_freeChain_fileChain, hw₀]
    split <;> rfl
  rw [bind_assoc]
  apply Holds.fatAlloc (Or.inl rfl)
  · intro hall
    rw [if_pos rfl, pure_bind]
    -- a chain that was given back leaves a free cluster
    have hc : e.cluster = 0 := by
      by_contra hc
      refine hall e.cluster ?_ ?_
      · rw [View.vol_setFd, hv₀]
        exact h.cluster_inRange heD hc
      · rw [View.fat_setFd, hw₀, if_neg hc, View.fat_freeChain]
        exact if_pos (h.chains.mem_self (List.mem_append_left T (heD.mem_starts hc)))
    rw [if_pos hc] at hw₀
    subst hw₀
    exact hfull hc (View.freeCount_eq_zero.mpr hall)
  · intro k hk h0 _
    rw [View.vol_setFd, hv₀] at hk
    have hk0 : k ≠ 0 := by
      have := hk.1
      omega
    rw [if_neg hk0, bind_assoc]
    apply Holds.putFd
    obtain ⟨w₁, hw₁⟩ : ∃ w₁, w₁ = ((w₀.setFd fd (openFd w.vol (ch s) true s i e)).alloc 0
        k).setFd fd { openFd w.vol (ch s) true s i e with
          cluster := k, curCluster := k, size := 0, pos := 0 } := ⟨_, rfl⟩
    rw [← hw₁]
    have hv₁ : w₁.vol = w.vol := by
      rw [hw₁, View.vol_setFd, View.vol_alloc, View.vol_setFd, hv₀]
    obtain ⟨hchain, hilt, l', hup, hlay, hkept⟩ := h.truncate_slot w₁ hs hd hat hfile
      hw₀ hk h0 hv₁ (by rw [hw₁]; rfl) (fun y hy => by
        rw [hw₁, View.sec_setFd, View.sec_alloc, Function.update_of_ne hy, View.sec_setFd, hw₀]
        split <;> rfl)
    rw [bind_assoc, ← hv₁]
    apply Holds.dirWriteEntry hchain hilt
    rw [pure_bind]
    have hcount : (w₀.alloc 0 k).freeCount + 1 = w₀.freeCount :=
      View.freeCount_alloc (Ne.symm hk0) (by rw [hv₀]; exact hk) h0 (by simp)
    have hsame : (w₁.setSlot (ch s) i (truncated e k)).freeCount = (w₀.alloc 0 k).freeCount :=
      View.freeCount_congr (by rw [View.vol_setSlot, hv₁, View.vol_alloc, hv₀]) (by rw [hw₁]; rfl)
    refine hok k _ l' hk (by omega) hup hlay hkept ?_ ?_
    · have halloc : (w₀.setFd fd (openFd w.vol (ch s) true s i e)).Evolves
          ((w₀.setFd fd (openFd w.vol (ch s) true s i e)).alloc 0 k) :=
        View.Evolves.alloc (n := n) (by rw [View.vol_setFd, hv₀]; exact hs)
          (by rw [View.vol_setFd, hv₀]; exact hk) (Ne.symm hk0)
      rw [hw₁]
      exact (((hsame₀.trans View.Evolves.setFd).trans halloc).trans View.Evolves.setFd).trans
        View.Evolves.setSec
    · rw [View.fds_setSlot, hw₁, View.fds_setFd, View.fds_alloc, View.fds_setFd, hfds₀,
        Function.update_idem]
      unfold openFd
      rw [cluster_truncated (by have := hs.inRange_lt hk; omega), size_truncated]

/-- `fat32_open` for writing truncates a file. -/
theorem Holds.openExisting_write (h : w.Layout ch D T) {p : PathInfo}
    (hp : p = ⟨e, posAt w.vol 0 (ch s) i, s⟩) (hd : ⟨s, l⟩ ∈ D) (hat : l.At i run e)
    (hfile : e.isDir = false)
    (hfull : e.cluster = 0 → w.freeCount = 0 →
      Holds (g Err.full.code) R (w.setFd fd (openFd w.vol (ch s) true s i e)))
    (hok : ∀ k w' l', w.vol.InRange k →
      w'.freeCount + 1 = w.freeCount + (fileChain ch e).length →
      l.Updated l' i run e (truncated e k) → w'.Layout (Function.update ch k [k]) (setListing D s l') T →
      Kept (fun t j => t = s ∧ j = i) w ch D w' (Function.update ch k [k]) (setListing D s l') →
      w.Evolves w' →
      w'.fds = Function.update w.fds fd (openFd w.vol (ch s) true s i (truncated e k)) →
      Holds (g fd) R w') :
    Holds (openExisting fd true p >>= g) R w := by
  refine Holds.of_sound fun n hs => ?_
  subst hp
  have heD := (entryAt_iff h.tree.nodup hd).mpr hat
  rw [openExisting, bind_assoc]
  apply Holds.putFd
  by_cases hc : e.cluster = 0
  · simp only [if_true, if_neg (show ¬ 2 ≤ e.cluster by omega)]
    exact Holds.openExisting_freed h hs hd hat hfile (if_pos hc).symm hfull hok
  · have hge := (h.cluster_inRange heD hc).1
    simp only [if_true, if_pos hge]
    rw [bind_assoc]
    have hchain := (h.chains.chain e.cluster (List.mem_append_left T (heD.mem_starts hc))).1
    refine Holds.fatFreeChain (w := w.setFd fd _) hchain ?_
    exact Holds.openExisting_freed h hs hd hat hfile (if_neg hc).symm hfull hok

section Create

variable {N : List Dir} {name : CStr} {attr : UInt8} {k size : Nat}

theorem length_newPieces : (newPieces l name).length = lfnCount name :=
  length_newRun _ _ _

theorem View.Grown.evolves {xs xs' : List Nat} {l' : Listing} (hg : w.Grown xs l w' xs' l')
    (hs : w.vol.Sound n) (hch : w.Chain s xs) : w.Evolves w' := by
  cases hg with
  | same => exact View.Evolves.refl
  | more k hk h0 =>
      refine View.Evolves.alloc hs hk fun heq => ?_
      by_cases hne : xs = []
      · have := hk.1
        rw [hne] at heq
        change 0 = k at heq
        omega
      · refine (hch.fat_ne hs (x := k) ?_).1 h0
        rw [eq_append_getLastD hne 0, heq]
        simp

theorem View.evolves_setSlots {xs : List Nat} {j : Nat} {es : List DirEntry} :
    w.Evolves (w.setSlots xs j es) := by
  induction es generalizing w j with
  | nil => exact View.Evolves.refl
  | cons d es ih =>
      have hone : w.Evolves (w.setSlot xs j d) := View.Evolves.setSec
      exact hone.trans ih

theorem Listing.Inserted.congr {l₁ l' : Listing} {j : Nat} (h : l₁.Inserted l' j run e)
    (hi : l₁.items = l.items) : l.Inserted l' j run e := by
  unfold Inserted at h ⊢
  rwa [hi] at h

/-- `dir_add_entry` in a directory of a layout, for a chain that belongs to no
entry yet. -/
theorem Holds.dirAddEntry_layout (h : w.Layout ch D (k :: T))
    (hfit : 1 ≤ w.freeCount → RoomFor l.slots w.vol.perCluster (lfnCount name + 1))
    (hd : ⟨s, l⟩ ∈ D) (hlen : name.length ≤ 255) (hz : ∀ c ∈ name, c ≠ 0)
    (hfirst : (∃ m, GrowsBy l.slots (lfnCount name + 1) m ∧ m ≤ w.freeCount) →
      (pick83 l.has name).getD 0 0 ≠ 0xE5) (hattr : attr ≠ 0x0F)
    (hnew : ((newEntry l name attr k size).isDir = false ∧ N = [] ∧
        (newEntry l name attr k size).size ≤ room w.vol ch k) ∨
      ((newEntry l name attr k size).isDir = true ∧ ∃ lN : Listing, N = [⟨k, lN⟩] ∧
        w.slots (ch k) = lN.slots ∧ ∀ r x, Item.entry r x ∉ lN.items))
    {f : Option DirPos → Prog Drv β}
    (hfull : GrowsBy l.slots (lfnCount name + 1) 1 → w.freeCount = 0 → Holds (f none) R w)
    (hroom : ∀ w' ch' l' j, l.Inserted l' j (newPieces l name) (newEntry l name attr k size) →
      (∃ m, GrowsBy l.slots (lfnCount name + 1) m ∧ w'.freeCount + m = w.freeCount) →
      w'.Layout ch' (setListing D s l' ++ N) T →
      Kept (fun _ _ => False) w ch D w' ch' (setListing D s l' ++ N) →
      w.Evolves w' → w'.fds = w.fds → ch' k = ch k → ∀ o,
      Holds (f (some (posAt w.vol o (ch' s) (j + (newPieces l name).length)))) R w') :
    Holds (Fat32.dirAddEntry s name attr k size >>= f) R w := by
  refine Holds.of_sound fun n hs => ?_
  have hkS : k ∈ starts w.vol D ++ k :: T := by simp
  have hkr := h.chains.inRange hkS (h.chains.mem_self hkS)
  have hk0 : k ≠ 0 := by
    have := hkr.1
    omega
  have hcl : (newEntry l name attr k size).cluster = k :=
    shortEntry_cluster (by have := hs.inRange_lt hkr; omega)
  have hks : s ≠ k := by
    intro heq
    have hnd := h.chains.nodup_start
    exact (List.nodup_append.mp hnd).2.2 _ (h.tree.start_mem hd) _ List.mem_cons_self heq
  apply Holds.dirAddEntry_fit (h.lists hd) hfit hfull
  · intro w' xs' l₁ m hg hgrows hcount j o hrun
    have hlists := hg.lists (h.lists hd) hs
    have hok : (Item.entry (newPieces l name) (newEntry l name attr k size)).Ok :=
      newEntry_ok hlen hz (hfirst ⟨m, hgrows, by omega⟩) hattr
    obtain ⟨l', hins, hslots'⟩ := l₁.insert hok (n := lfnCount name + 1)
      (by rw [length_newPieces]) hrun
    have hin : j + (newPieces l name ++ [newEntry l name attr k size]).length ≤
        xs'.length * w'.vol.perCluster := by
      rw [List.length_append, List.length_singleton, length_newPieces, ← hlists.length_slots]
      exact hrun.le
    have hslots := View.slots_setSlots (hlists.chain.nodup (hg.vol ▸ hs)) hin
    rw [hlists.slots, ← hslots'] at hslots
    have hlay := View.Layout.attach
      (w'.setSlots xs' j (newPieces l name ++ [newEntry l name attr k size]))
      (newEntry l name attr k size) (by rw [hcl]; exact h) hs hd (by rw [hcl]; exact hk0) hg hins
      View.vol_setSlots
      View.fat_setSlots (fun y hy => View.sec_setSlots hin hy) hslots (by rw [hcl]; exact hnew)
    have hkept := h.kept_attach (N := N) (X := fun _ _ => False)
      (w'.setSlots xs' j (newPieces l name ++ [newEntry l name attr k size])) hs hd hg hins
      fun y hy => View.sec_setSlots hin hy
    have hleft : (w'.setSlots xs' j (newPieces l name ++ [newEntry l name attr k size])).freeCount =
        w'.freeCount := View.freeCount_congr View.vol_setSlots View.fat_setSlots
    have hdone := hroom _ _ l' j (hins.congr hg.items) ⟨m, hgrows, by rw [hleft]; exact hcount⟩ hlay hkept
      ((hg.evolves hs (h.lists hd).chain).trans View.evolves_setSlots) (by rw [View.fds_setSlots, hg.fds])
      (Function.update_of_ne (Ne.symm hks) _ _) o
    rw [Function.update_self, length_newPieces] at hdone
    exact hdone

/-- `fat32_open` for writing creates a file, when its entry gets a cluster and
its directory the slots. -/
theorem Holds.openCreate (h : w.Layout ch D T) (hz : ∀ c ∈ path, c ≠ 0)
    (hname : ∀ l m, ⟨(resolveParent w.vol D path).1, l⟩ ∈ D →
      GrowsBy l.slots (lfnCount (resolveParent w.vol D path).2 + 1) m → m < w.freeCount →
      RoomFor l.slots w.vol.perCluster (lfnCount (resolveParent w.vol D path).2 + 1) ∧
        (pick83 l.has (resolveParent w.vol D path).2).getD 0 0 ≠ 0xE5)
    (hno : (resolveParent w.vol D path).1 = 0 → Holds (g Err.notFound.code) R w)
    (hfull : ∀ w' ch', (∀ l m, ⟨(resolveParent w.vol D path).1, l⟩ ∈ D →
        GrowsBy l.slots (lfnCount (resolveParent w.vol D path).2 + 1) m → w.freeCount ≤ m) →
      w'.Layout ch' D T → Kept (fun _ _ => False) w ch D w' ch' D →
      w.Evolves w' → w'.fds = w.fds → Holds (g Err.full.code) R w')
    (hok : ∀ k w' ch' l l' j, ⟨(resolveParent w.vol D path).1, l⟩ ∈ D → w.vol.InRange k →
      (∃ m, GrowsBy l.slots (lfnCount (resolveParent w.vol D path).2 + 1) m ∧
        w'.freeCount + m + 1 = w.freeCount) →
      l.Inserted l' j (newPieces l (resolveParent w.vol D path).2)
        (newEntry l (resolveParent w.vol D path).2 0x20 k 0) →
      w'.Layout ch' (setListing D (resolveParent w.vol D path).1 l') T →
      Kept (fun _ _ => False) w ch D w' ch' (setListing D (resolveParent w.vol D path).1 l') →
      w.Evolves w' → ch' k = [k] →
      w'.fds = Function.update w.fds fd (openFd w.vol (ch' (resolveParent w.vol D path).1) true
        (resolveParent w.vol D path).1 (j + (newPieces l (resolveParent w.vol D path).2).length)
        (newEntry l (resolveParent w.vol D path).2 0x20 k 0)) → Holds (g fd) R w') :
    Holds (openCreate fd path >>= g) R w := by
  refine Holds.of_sound fun n hs => ?_
  rw [Fat32.openCreate, bind_assoc]
  apply Holds.pathResolveParent h
  obtain ⟨hlen, hmem⟩ := resolveParent_name (v := w.vol) (D := D) path
  have hcase := resolveParent_mem h path
  generalize resolveParent w.vol D path = r at *
  obtain ⟨s, name⟩ := r
  simp only at *
  by_cases h0 : s = 0
  · rw [if_pos h0, pure_bind]
    exact hno h0
  rw [if_neg h0, bind_assoc]
  obtain ⟨⟨s', l⟩, hd, hs'⟩ := hcase.resolve_left h0
  change s' = s at hs'
  subst hs'
  apply Holds.fatAlloc (Or.inl rfl)
  · intro hall
    rw [if_pos rfl, pure_bind]
    have hzero := View.freeCount_eq_zero.mpr hall
    exact hfull w ch (fun l m _ _ => by omega) h Kept.refl View.Evolves.refl rfl
  intro k hk hk0 _
  have hkne : k ≠ 0 := by
    have := hk.1
    omega
  have hklt := hs.inRange_lt hk
  rw [if_neg hkne, bind_assoc]
  have hlay := h.alloc hs hk hk0
  have hkept := h.kept_alloc (X := fun _ _ => False) hs hk0
  have hvars : w.Evolves (w.alloc 0 k) := View.Evolves.alloc hs hk (Ne.symm hkne)
  have hattr : ∀ size, (newEntry l name 0x20 k size).isDir = false := by
    intro size
    rw [newEntry, DirEntry.isDir, shortEntry_attr]
    decide
  have hcount : (w.alloc 0 k).freeCount + 1 = w.freeCount :=
    View.freeCount_alloc (Ne.symm hkne) hk hk0 (by simp)
  refine Holds.dirAddEntry_layout (N := []) hlay (fun h1 => ?_) hd hlen
    (fun c hc => hz c (hmem c hc).1) (fun hroom => ?_)
    (by decide) (Or.inl ⟨hattr 0, rfl, ?_⟩) ?_ ?_
  · rw [View.vol_alloc]
    obtain ⟨m, hgrows⟩ := exists_growsBy l.slots (lfnCount name + 1)
    have hm := hgrows.le
    exact (hname l m hd hgrows (by omega)).1
  · obtain ⟨m, hgrows, hm⟩ := hroom
    exact (hname l m hd hgrows (by omega)).2
  · rw [newEntry, shortEntry_size (by omega)]
    exact Nat.zero_le _
  · intro hgrows hzero
    simp only [bind_assoc, pure_bind]
    have hchain : (w.alloc 0 k).Chain k [k] := by
      have := (hlay.chains.chain k (by simp)).1
      rwa [Function.update_self] at this
    apply Holds.fatFreeChain hchain
    have hfree := hlay.free
    rw [Function.update_self] at hfree
    refine hfull _ _ (fun l' m hd' hgrows' => ?_) hfree (hkept.of_sec rfl)
      (hvars.trans View.Evolves.freeChain) View.fds_alloc
    obtain rfl : l' = l := (Dir.mk.inj (eq_of_start_eq h.tree.nodup hd' hd rfl)).2
    obtain rfl := hgrows.unique hgrows'
    omega
  · intro w' ch' l' j hins hgrows hlay' hkept' hvars' hfds hch o
    simp only [bind_assoc, pure_bind]
    apply Holds.putFd
    rw [List.append_nil] at hlay' hkept'
    rw [Function.update_self] at hch
    obtain ⟨m, hgrows, hleft⟩ := hgrows
    refine hok k _ ch' l l' j hd hk ⟨m, hgrows, ?_⟩ hins (hlay'.of_eq rfl rfl rfl)
      ((hkept.trans hkept').of_sec rfl) ?_ hch ?_
    · change w'.freeCount + m + 1 = _
      omega
    · exact (hvars.trans hvars').trans View.Evolves.setFd
    · rw [View.fds_setFd, hfds, View.fds_alloc, View.vol_alloc]
      congr 1
      unfold openFd
      rw [newEntry, shortEntry_cluster (by omega), shortEntry_size (by omega)]
      rfl

end Create

section Stream

variable {buf : List UInt8}

theorem OpenOn.perm (ho : OpenOn w ch D f s i run e) {v : Vol} :
    (starts v D ++ T).Perm (e.cluster :: (starts v D).erase e.cluster ++ T) :=
  ho.entry.perm_starts ho.ne

/-- The directory's chain is no part of what a write touches. -/
theorem Touched.dir_eq {ch' : Nat → List Nat} {S : List Nat} (h : w.Layout ch D T)
    (he : EntryAt D s i run e) (hfile : e.isDir = false) (h0 : e.cluster ≠ 0)
    (ht : Touched w ch e.cluster S w' ch') : ch' s = ch s := by
  obtain ⟨d, hd, rfl, -⟩ := id he
  exact ht.other _ (h.start_ne hd he hfile h0)

theorem OpenOn.moved {ch' : Nat → List Nat} {S : List Nat} {f' : Fd} (h : w.Layout ch D T)
    (ho : OpenOn w ch D f s i run e) (ht : Touched w ch e.cluster S w' ch')
    (hm : f.Moved f' w.vol (ch' e.cluster)) : OpenOn w' ch' D f' s i run e := by
  have hs := ht.dir_eq h ho.entry ho.file ho.ne
  have hsame := hm.same
  refine ⟨ho.entry, ho.file, ho.ne, ?_, ?_, ?_, ?_, ?_, by rw [ht.vol]; exact hm.inside⟩
  · exact (congrArg Fd.isOpen hsame).trans ho.isOpen
  · exact (congrArg Fd.write hsame).trans ho.write
  · exact (congrArg Fd.cluster hsame).trans ho.cluster
  · rw [ht.vol, hs]
    exact (congrArg Fd.dirLba hsame).trans ho.dirLba
  · rw [ht.vol, hs]
    exact (congrArg Fd.dirOffset hsame).trans ho.dirOffset

/-- `fat32_write` on a descriptor that is open on an entry. -/
theorem Holds.fat32Write_layout (h : w.Layout ch D T) (hlt : fd < 16) (hf : w.fds fd = f)
    (ho : OpenOn w ch D f s i run e) (hg : ∀ m w' ch' f', m ≤ buf.length → w'.Layout ch' D T →
      Kept (fun t j => t = s ∧ j = i) w ch D w' ch' D → w.Evolves w' → (∀ b, b ≠ e.cluster →
        ch' b = ch b) → OpenOn w' ch' D f' s i run e →
      w'.fds = Function.update w.fds fd f' → Holds (g (i32 m)) R w') :
    Holds (Fat32.fat32Write fd buf >>= g) R w := by
  apply Holds.fat32Write_inside (h.chains.perm ho.perm) hlt hf ho.isOpen ho.write ho.inside
  intro m w' ch' f' hm ht hfds hmv
  obtain ⟨hlay, hkept⟩ := ht.layout h ho.entry ho.file ho.ne
  exact hg m w' ch' f' hm hlay hkept ht.vars ht.other (ho.moved h ht hmv) hfds

/-- The short entry of a file after its descriptor was closed. -/
def stored (e : DirEntry) (f : Fd) : DirEntry := (e.setSize f.size).setCluster f.cluster

theorem byte_stored {b : Nat} (h : b < 20) : (stored e f).byte b = e.byte b := by
  unfold stored
  rw [DirEntry.byte_setCluster _ h, DirEntry.byte_setSize _ h]

theorem isDir_stored : (stored e f).isDir = e.isDir :=
  DirEntry.isDir_congr fun _ hb => byte_stored hb

theorem DirEntry.cluster_lt (e : DirEntry) : e.cluster < 4294967296 := by
  have h₁ := Block.word_lt e 20 2
  have h₂ := Block.word_lt e 26 2
  unfold DirEntry.cluster
  omega

theorem OpenOn.cluster_stored (ho : OpenOn w ch D f s i run e) :
    (stored e f).cluster = e.cluster := by
  unfold stored
  rw [ho.cluster, DirEntry.cluster_setCluster _ e.cluster_lt]

theorem OpenOn.size_stored (ho : OpenOn w ch D f s i run e) : (stored e f).size = f.size := by
  unfold stored
  rw [DirEntry.size_setCluster, DirEntry.size_setSize _ ho.inside.size_lt]

/-- `fat32_close` on a descriptor that is open on an entry. -/
theorem Holds.fat32Close_layout {g : Unit → Prog Drv β} (h : w.Layout ch D T) (hlt : fd < 16)
    (hf : w.fds fd = f) (ho : OpenOn w ch D f s i run e)
    (hg : ∀ w' l l', ⟨s, l⟩ ∈ D → l.Updated l' i run e (stored e f) →
      w'.Layout ch (setListing D s l') T →
      Kept (fun t j => t = s ∧ j = i) w ch D w' ch (setListing D s l') → w.Evolves w' →
      w'.fds = Function.update w.fds fd Fd.closed → w'.fat = w.fat →
      (∀ y, y ∉ ch s → w'.sec y = w.sec y) → Holds (g ()) R w') :
    Holds (Fat32.fat32Close fd >>= g) R w := by
  refine Holds.of_sound fun n hs => ?_
  obtain ⟨⟨s', l⟩, hd, hs', hat⟩ := ho.entry
  change s' = s at hs'
  subst hs'
  have hlists := h.lists hd
  have hilt : i < (ch s').length * w.vol.perCluster := by
    rw [← hlists.length_slots]
    exact hat.lt
  have hslot : w.slot (ch s') i = e := by
    have hget := hat.slot
    have hlist : w.slots (ch s') = l.slots := hlists.slots
    rw [← hlist, List.getElem?_eq_getElem (by rw [View.length_slots]; exact hilt),
      Option.some.injEq, View.getElem_slots] at hget
    exact hget
  apply Holds.fat32Close hlists.chain hilt hlt hf ho.isOpen ho.write ho.dirLba ho.dirOffset
  rw [hslot]
  obtain ⟨pre, post, heq, hi⟩ := Fat32.At.split hat
  rw [Nat.zero_add] at hi
  obtain ⟨l', heq', hslots'⟩ := l.update (stored e f) heq
    (hat.ok.congr fun b hb => byte_stored hb)
  rw [← hi] at hslots'
  have hup : l.Updated l' i run e (stored e f) := ⟨pre, post, heq, hi, heq'⟩
  have hsec : ∀ y, y ∉ ch s' → (w.setSlot (ch s') i (stored e f)).sec y = w.sec y :=
    fun y hy => View.sec_setSlot hilt hy
  have hslots : (w.setSlot (ch s') i (stored e f)).slots (ch s') = l'.slots := by
    rw [View.slots_setSlot (hlists.chain.nodup hs) hilt, hslots', ← hlists.slots]
  have hroom : (stored e f).size ≤ room w.vol ch (stored e f).cluster := by
    rw [ho.size_stored, ho.cluster_stored, room, if_neg ho.ne]
    exact ho.inside.size_le
  obtain ⟨hlay, hkept⟩ := h.resize (w.setSlot (ch s') i (stored e f)) hd hup ho.file
    (isDir_stored.trans ho.file) ho.cluster_stored hroom rfl rfl hsec hslots
  exact hg _ l l' hd hup (hlay.of_eq rfl rfl rfl) (hkept.of_sec rfl)
    (View.Evolves.trans View.Evolves.setSec View.Evolves.setFd) rfl rfl hsec

end Stream

/-- The slots of a deleted entry, in a view whose chain is given back already. -/
theorem View.Layout.delete_slots {name : CStr} {j : Nat} (h : w.Layout ch D T) (w₀ : View)
    (hs : w.vol.Sound n) (hd : ⟨s, l⟩ ∈ D) (hfind : l.find name = some (j, run, e))
    (hfile : e.isDir = false) (hv₀ : w₀.vol = w.vol) (hsec₀ : w₀.sec = w.sec)
    (hfat₀ : w₀.fat = if e.cluster = 0 then w.fat else (w.freeChain (ch e.cluster)).fat) :
    w₀.Chain s (ch s) ∧ j + run.length < (ch s).length * w₀.vol.perCluster ∧
      (∀ q (hq : q < (run ++ [e]).length), w₀.slot (ch s) (j + q) = (run ++ [e])[q]) ∧
      ∃ l', l.Deleted l' (j + run.length) run e ∧
        (w₀.setSlots (ch s) j ((run ++ [e]).map DirEntry.deleted)).Layout ch
          (setListing D s l') T ∧
        Kept (fun t k => t = s ∧ k = j + run.length) w ch D
          (w₀.setSlots (ch s) j ((run ++ [e]).map DirEntry.deleted)) ch (setListing D s l') := by
  have hlists := h.lists hd
  have hat := Listing.find_at hfind
  have heD := (entryAt_iff h.tree.nodup hd).mpr hat
  have hilt : j + run.length < (ch s).length * w₀.vol.perCluster := by
    rw [hv₀, ← hlists.length_slots]
    exact hat.lt
  have hchain : w₀.Chain s (ch s) := by
    refine hlists.chain.of_fat hv₀ fun y hy => ?_
    rw [hfat₀]
    split
    · rfl
    · next hc => exact if_neg fun hm => h.file_disjoint hd heD hfile hc hm hy
  have hslots : w₀.slots (ch s) = l.slots := by
    rw [← hlists.slots]
    exact View.slots_congr hv₀ fun y _ => by rw [hsec₀]
  obtain ⟨pre, post, heq, hj, -⟩ := Listing.find_eq_some hfind
  obtain ⟨l', heq', hslots'⟩ := l.delete heq
  have hdel : l.Deleted l' (j + run.length) run e := ⟨pre, post, heq, by rw [hj], heq'⟩
  have hfit : j + ((run ++ [e]).map DirEntry.deleted).length ≤
      (ch s).length * w₀.vol.perCluster := by
    rw [List.length_map, List.length_append, List.length_singleton]
    omega
  have hslots₁ := View.slots_setSlots (hchain.nodup (hv₀ ▸ hs)) hfit
  rw [hslots, hj, ← hslots'] at hslots₁
  rw [← hj] at hslots₁
  have hsec : ∀ y, y ∉ ch s →
      (w₀.setSlots (ch s) j ((run ++ [e]).map DirEntry.deleted)).sec y = w.sec y := by
    intro y hy
    rw [View.sec_setSlots hfit hy, hsec₀]
  refine ⟨hchain, hilt, fun q hq => ?_, l', hdel, ?_, h.kept_delete hd hdel hsec⟩
  · have hget : (w₀.slots (ch s))[j + q]? = (run ++ [e])[q]? := by
      rw [hslots]
      exact Listing.find_slots hfind hq
    rw [List.length_append, List.length_singleton] at hq
    have hlt : j + q < (w₀.slots (ch s)).length := by
      rw [View.length_slots]
      omega
    rw [List.getElem?_eq_getElem hlt, List.getElem?_eq_getElem (by simpa using hq),
      Option.some.injEq, View.getElem_slots] at hget
    exact hget
  · exact h.delete hd hdel hfile (by rw [View.vol_setSlots, hv₀])
      (by rw [View.fat_setSlots, hfat₀]) hsec hslots₁

/-- A program that only reads leaves the disk and the variables alone. -/
theorem On.of_reads {α : Type} {x : Prog Drv α} {Q : α → Store → Prop} {c : Store} (h : On x Q c)
    (hx : ∀ I, Reads I → Preserves I x) : On x (fun a c' => c' = c ∧ Q a c') c := by
  intro s hs hc
  obtain ⟨a, s', hr, hs', hq⟩ := h s hs hc
  exact ⟨a, s', hr, hs', (hx _ (reads_still c) s a s' ⟨hc, hs.clean⟩ hr).1, hq⟩

/-- No file is there for `fat32_unlink`. -/
def NoFile (v : Vol) (D : List Dir) (path : CStr) : Prop :=
  ∀ s l j run e, ⟨s, l⟩ ∈ D → (resolveParent v D path).1 = s → (resolveParent v D path).2 ≠ [] →
    l.find (resolveParent v D path).2 = some (j, run, e) → e.isDir = true

theorem View.Layout.start_ne_zero (h : w.Layout ch D T) (hd : ⟨s, l⟩ ∈ D) : s ≠ 0 := by
  have hr := h.chains.inRange (h.sound_start hd) (h.chains.mem_self (h.sound_start hd))
  have := hr.1
  change 2 ≤ s at this
  omega

/-- `fat32_unlink` as a change of the disk: an error leaves it alone, and success
clears the chain of the file before it marks the slots of its entry. -/
theorem On.fat32Unlink {c : Store} {R : β → Store → Prop} (hc : c.Shows w) (h : w.Layout ch D T)
    (herr : ∀ err : Err, (w.mounted = true → NoFile w.vol D path) → On (g err.code) R c)
    (hok : ∀ s l j run e, ⟨s, l⟩ ∈ D → s = (resolveParent w.vol D path).1 →
      l.find (resolveParent w.vol D path).2 = some (j, run, e) →
      (resolveParent w.vol D path).2 ≠ [] → e.isDir = false →
      On (g 0) R ((c.freeChain (fileChain ch e)).marks (ch s) j (run.length + 1))) :
    On (Fat32.fat32Unlink path >>= g) R c := by
  have hsound : w.vol.Sound c.sectors := hc.vol ▸ hc.sound
  rw [Fat32.fat32Unlink, bind_assoc]
  apply On.getStore
  rw [hc.mounted]
  cases hm : w.mounted with
  | false => exact herr Err.noDev fun hmount => by rw [hm] at hmount; cases hmount
  | true =>
      simp only [Bool.not_true, Bool.false_eq_true, if_false]
      rw [bind_assoc]
      unfold NoFile at herr
      have hans : Holds (Fat32.pathResolveParent path >>= Pure.pure)
          (fun r _ => r = resolveParent w.vol D path) w := Holds.pathResolveParent h (Holds.pure rfl)
      have hres := hans c hc
      rw [bind_pure] at hres
      refine On.bind ((hres.of_reads fun _ hI => hI.pathResolveParent).mono ?_)
      rintro _ _ ⟨hsame, _, -, rfl⟩
      rw [hsame]
      have hcase := resolveParent_mem h path
      generalize resolveParent w.vol D path = r at *
      obtain ⟨s, name⟩ := r
      simp only at *
      by_cases h0 : s = 0 ∨ name = []
      · rw [if_pos h0, pure_bind]
        refine herr Err.notFound fun _ t l j run e hd ht hne _ => ?_
        have := h.start_ne_zero hd
        exact absurd h0 (not_or.mpr ⟨ht ▸ this, hne⟩)
      rw [if_neg h0, bind_assoc]
      obtain ⟨⟨s', l⟩, hd, hs'⟩ := hcase.resolve_left fun hz => h0 (Or.inl hz)
      change s' = s at hs'
      subst hs'
      have hans : Holds (Fat32.dirFind s' name >>= Pure.pure)
          (fun r _ => r = l.found w.vol (ch s') name) w :=
        Holds.dirFind (h.lists hd) (Holds.pure rfl)
      have hfound := hans c hc
      rw [bind_pure] at hfound
      refine On.bind ((hfound.of_reads fun _ hI => hI.dirFind).mono ?_)
      rintro _ _ ⟨hsame, _, -, rfl⟩
      rw [hsame]
      unfold Listing.found
      cases hfind : l.find name with
      | none =>
          simp only [Option.map_none, pure_bind]
          refine herr Err.notFound fun _ t l' j run e hd' ht _ hfind' => ?_
          obtain rfl : l' = l := (Dir.mk.inj (eq_of_start_eq h.tree.nodup hd' hd ht.symm)).2
          rw [hfind] at hfind'
          cases hfind'
      | some r =>
          obtain ⟨j, run, e⟩ := r
          simp only [Option.map_some]
          cases hdir : e.isDir with
          | true =>
              simp only [if_true, pure_bind]
              refine herr Err.isDir fun _ t l' j' run' e' hd' ht _ hfind' => ?_
              obtain rfl : l' = l := (Dir.mk.inj (eq_of_start_eq h.tree.nodup hd' hd ht.symm)).2
              rw [hfind, Option.some.injEq, Prod.mk.injEq, Prod.mk.injEq] at hfind'
              rw [← hfind'.2.2]
              exact hdir
          | false =>
              simp only [Bool.false_eq_true, if_false]
              have heD := (entryAt_iff h.tree.nodup hd).mpr (Listing.find_at hfind)
              obtain ⟨hchain, hilt, -⟩ := h.delete_slots (w.freeChain (fileChain ch e)) hsound
                hd hfind hdir rfl rfl fat_freeChain_fileChain
              have hfree := hc.freeChain (h.fileChain_inRange heD)
              have hloop : On ((Prog.loop (Fat32.unlinkStep (posAt w.vol 0 (ch s') (j + run.length)))
                  (posAt w.vol 0 (ch s') j) >>= fun _ => Pure.pure (0 : Int)) >>= g) R
                  (c.freeChain (fileChain ch e)) := by
                have hv := hfree.vol
                rw [View.vol_freeChain] at hv
                rw [bind_assoc, ← hv]
                refine On.unlinkLoop hfree.sound (hfree.chain hchain) (by rwa [hfree.vol]) ?_
                rw [pure_bind]
                exact hok s' l j run e hd rfl hfind (fun hn => h0 (Or.inr hn)) hdir
              by_cases hcl : e.cluster = 0
              · rw [fileChain, if_pos hcl] at hloop
                simp only [if_neg (show ¬ 2 ≤ e.cluster by omega)]
                exact hloop
              · rw [fileChain, if_neg hcl] at hloop
                simp only [if_pos (h.cluster_inRange heD hcl).1]
                rw [bind_assoc]
                refine On.fatFreeChain hc.sound (hc.chain ?_) hloop
                exact (h.chains.chain e.cluster (List.mem_append_left T (heD.mem_starts hcl))).1

/-- The layout after `fat32_unlink`. -/
theorem View.Layout.shows_unlinked {c : Store} {name : CStr} {j : Nat} (h : w.Layout ch D T)
    (hc : c.Shows w) (hd : ⟨s, l⟩ ∈ D) (hfind : l.find name = some (j, run, e))
    (hfile : e.isDir = false) :
    ∃ w' l', ((c.freeChain (fileChain ch e)).marks (ch s) j (run.length + 1)).Shows w' ∧
      w'.fat = (w.freeChain (fileChain ch e)).fat ∧ w'.fds = w.fds ∧ w.Evolves w' ∧
      l.Deleted l' (j + run.length) run e ∧ w'.Layout ch (setListing D s l') T ∧
      Kept (fun t k => t = s ∧ k = j + run.length) w ch D w' ch (setListing D s l') := by
  have heD := (entryAt_iff h.tree.nodup hd).mpr (Listing.find_at hfind)
  obtain ⟨hchain, hilt, hslice, l', hdel, hlay, hkept⟩ :=
    h.delete_slots (w.freeChain (fileChain ch e)) (hc.vol ▸ hc.sound) hd hfind hfile rfl rfl
      fat_freeChain_fileChain
  have hshows := (hc.freeChain (h.fileChain_inRange heD)).marks hchain hslice (by
    rw [List.length_append, List.length_singleton]
    omega)
  rw [List.length_append, List.length_singleton] at hshows
  exact ⟨_, l', hshows, View.fat_setSlots, View.fds_setSlots,
    View.Evolves.freeChain.trans View.evolves_setSlots, hdel, hlay, hkept⟩

theorem Holds.fat32Unlink (h : w.Layout ch D T)
    (herr : ∀ err : Err, (w.mounted = true → NoFile w.vol D path) → Holds (g err.code) R w)
    (hok : ∀ s l l' j run e w', ⟨s, l⟩ ∈ D → s = (resolveParent w.vol D path).1 →
      l.find (resolveParent w.vol D path).2 = some (j, run, e) →
      (resolveParent w.vol D path).2 ≠ [] → e.isDir = false →
      l.Deleted l' (j + run.length) run e → w'.Layout ch (setListing D s l') T →
      Kept (fun t k => t = s ∧ k = j + run.length) w ch D w' ch (setListing D s l') →
      w.Evolves w' → w'.fds = w.fds → Holds (g 0) R w') :
    Holds (Fat32.fat32Unlink path >>= g) R w := by
  intro c hc
  refine On.fat32Unlink hc h (fun err hno => herr err hno c hc)
    fun s l j run e hd hs hfind hne hfile => ?_
  obtain ⟨w', l', hshows, -, hfds, hevo, hdel, hlay, hkept⟩ := h.shows_unlinked hc hd hfind hfile
  exact hok s l l' j run e w' hd hs hfind hne hfile hdel hlay hkept hevo hfds _ hshows

section Mkdir

variable {k c : Nat} {n83 : List UInt8}

theorem byte_dotEntry {b : Nat} (hlen : n83.length = 11) (hb : b < 11) :
    (dotEntry n83 c).byte b = n83.getD b 0 := by
  unfold dotEntry
  rw [DirEntry.byte_setCluster _ (by omega), Block.byte_patch_of_outside _ (by simp; omega)]
  have h := Block.byte_patch_of_inside (Block.zero 32) (o := 0) (s := n83) (i := b)
    (by omega) (by omega)
  rwa [Nat.zero_add] at h

theorem attr_dotEntry : (dotEntry n83 c).attr = 0x10 := by
  unfold dotEntry DirEntry.attr
  rw [DirEntry.byte_setCluster _ (by omega)]
  exact Block.byte_patch_of_inside _ (o := 11) (s := [0x10]) (i := 0) (by simp) (by omega)

theorem dotEntry_ok (hn : n83 = dotName ∨ n83 = dotdotName) : (Item.dot (dotEntry n83 c)).Ok := by
  have hlen : n83.length = 11 := by
    rcases hn with rfl | rfl <;> rfl
  refine ⟨?_, ?_⟩
  · unfold DirEntry.isDot
    rw [byte_dotEntry hlen (by omega), byte_dotEntry hlen (by omega)]
    rcases hn with rfl | rfl <;> decide
  · rw [DirEntry.isLfn, attr_dotEntry]
    decide

def newDir (v : Vol) (self parent : Nat) : Listing where
  items := [.dot (dotEntry dotName self), .dot (dotEntry dotdotName parent)]
  tail := List.replicate (v.perCluster - 2) (Block.zero 32)
  ok := by
    intro it hit
    rcases List.mem_pair.mp hit with rfl | rfl
    · exact dotEntry_ok (Or.inl rfl)
    · exact dotEntry_ok (Or.inr rfl)
  zero := ZeroTail.zeros _

/-- The view after the two dot entries were stored into a zeroed cluster. -/
theorem slots_newDir (hp : 2 ≤ w.vol.perCluster) {self parent : Nat}
    (hzero : ∀ j, w.sec k j = Block.zero 512)
    (hsec : w'.sec k = Function.update (w.sec k) 0 (((w.sec k 0).patch 0
      (dotEntry dotName self).toList).patch 32 (dotEntry dotdotName parent).toList))
    (hv : w'.vol = w.vol) : w'.slots [k] = (newDir w.vol self parent).slots := by
  have h₁ : ((w.setSlot [k] 0 (dotEntry dotName self)).setSlot [k] 1
      (dotEntry dotdotName parent)).sec k = w'.sec k := by
    have hdiv : 1 / w.vol.perCluster = 0 := Nat.div_eq_of_lt (by omega)
    have hmod : 1 % w.vol.perCluster = 1 := Nat.mod_eq_of_lt (by omega)
    unfold View.setSlot View.setEntry
    simp only [View.vol_setSec, View.sec_setSec, Nat.zero_div, Nat.zero_mod, hdiv, hmod,
      List.getD_cons_zero, Function.update_self, Function.update_idem, hsec, Nat.zero_mul,
      Nat.reduceDiv, Nat.reduceMod, Nat.one_mul]
  have hp1 : 1 < [k].length * w.vol.perCluster := by
    rw [List.length_singleton, Nat.one_mul]
    omega
  have hslots : w'.slots [k] = ((w.setSlot [k] 0 (dotEntry dotName self)).setSlot [k] 1
      (dotEntry dotdotName parent)).slots [k] := by
    refine View.slots_congr hv fun y hy => ?_
    rw [List.mem_singleton] at hy
    rw [hy, h₁]
  rw [hslots, View.slots_setSlot (List.nodup_singleton k) (by rw [View.vol_setSlot]; exact hp1),
    View.slots_setSlot (List.nodup_singleton k) (by omega), View.slots_zero hzero]
  obtain ⟨m, hm⟩ : ∃ m, w.vol.perCluster = m + 2 := ⟨w.vol.perCluster - 2, by omega⟩
  simp only [Listing.slots, newDir, hm, List.replicate_succ, List.set_cons_zero,
    List.set_cons_succ, List.flatMap_cons, List.flatMap_nil, Item.slots, Nat.add_sub_cancel]
  rfl

/-- Cluster `k` taken for a new directory: zeroed but for the two dot entries. -/
def View.makeDir (w : View) (k parent : Nat) : View :=
  (w.alloc 0 k).setSec k 0 ((((w.alloc 0 k).sec k 0).patch 0
    (dotEntry dotName k).toList).patch 32 (dotEntry dotdotName parent).toList)

section MakeDir

variable {parent : Nat}

@[simp] theorem View.vol_makeDir : (w.makeDir k parent).vol = w.vol := by
  rw [View.makeDir, View.vol_setSec, View.vol_alloc]

@[simp] theorem View.fds_makeDir : (w.makeDir k parent).fds = w.fds := by
  rw [View.makeDir, View.fds_setSec, View.fds_alloc]

theorem View.sec_makeDir {y : Nat} (hy : y ≠ k) :
    (w.makeDir k parent).sec y = (w.alloc 0 k).sec y := by
  rw [View.makeDir, View.sec_setSec, Function.update_of_ne hy]

theorem View.Evolves.makeDir {n : Nat} (hs : w.vol.Sound n) (hk : w.vol.InRange k) :
    w.Evolves (w.makeDir k parent) := by
  have hk0 : 0 ≠ k := by
    have := hk.1
    omega
  exact (View.Evolves.alloc hs hk hk0).trans View.Evolves.setSec

theorem View.slots_makeDir (hp : 2 ≤ w.vol.perCluster) :
    (w.makeDir k parent).slots [k] = (newDir w.vol k parent).slots := by
  rw [← @View.vol_alloc w k 0] at hp ⊢
  refine slots_newDir hp (fun j => ?_) ?_ ?_
  · rw [View.sec_alloc, Function.update_self]
  · rw [View.makeDir, View.sec_setSec, Function.update_self]
  · rw [View.vol_makeDir, View.vol_alloc]

/-- The new cluster is a chain of its own, and all others are as they were. -/
theorem View.Layout.makeDir {n : Nat} (h : w.Layout ch D T) (hs : w.vol.Sound n)
    (hk : w.vol.InRange k) (hk0 : w.fat k = 0) :
    (w.makeDir k parent).Layout (Function.update ch k [k]) D (k :: T) ∧
      Kept (fun _ _ => False) w ch D (w.makeDir k parent) (Function.update ch k [k]) D := by
  have hkept := h.kept_alloc (X := fun _ _ => False) hs hk0
  refine ⟨(h.alloc hs hk hk0).loose ?_ ?_ fun y hy => ?_,
    hkept.entry, fun t i run e he hX hdir hc => ?_, hkept.dirs⟩
  · rw [View.vol_makeDir, View.vol_alloc]
  · rw [View.makeDir, View.fat_setSec]
  · rw [Function.update_self, List.mem_singleton] at hy
    exact View.sec_makeDir hy
  · obtain ⟨hch, hsec⟩ := hkept.chain t i run e he hX hdir hc
    refine ⟨hch, fun y hy => (View.sec_makeDir ?_).trans (hsec y hy)⟩
    rintro rfl
    exact h.chains.not_mem_of_free hs hk0 (List.mem_flatMap.mpr
      ⟨_, List.mem_append_left T (he.mem_starts hc), hy⟩)

end MakeDir

/-- The new directory gets its entry in the parent, or gives its cluster back. -/
theorem Holds.dirAddEntry_makeDir {name : CStr} {parent : Nat} (h : w.Layout ch D T)
    (hs : w.vol.Sound n) (hspc : 2 ≤ w.vol.secPerClus) (hd : ⟨s, l⟩ ∈ D)
    (hlen : name.length ≤ 255) (hz : ∀ c ∈ name, c ≠ 0)
    (hfirst : (pick83 l.has name).getD 0 0 ≠ 0xE5) (hk : w.vol.InRange k) (hk0 : w.fat k = 0)
    {f : Option DirPos → Prog Drv β}
    (herr : ∀ w' ch', w'.Layout ch' D T → Kept (fun _ _ => False) w ch D w' ch' D →
      w.Evolves w' → w'.fds = w.fds → Holds (g Err.full.code) R w')
    (hfull : f none = (Fat32.fatFreeChain k >>= fun _ => g Err.full.code))
    (hok : ∀ l' j w' ch', l.Inserted l' j (newPieces l name) (newEntry l name 0x10 k 0) →
      w'.Layout ch' (setListing D s l' ++ [⟨k, newDir w.vol k parent⟩]) T →
      Kept (fun _ _ => False) w ch D w' ch' (setListing D s l' ++ [⟨k, newDir w.vol k parent⟩]) →
      w.Evolves w' → w'.fds = w.fds → ∀ pos, Holds (f (some pos)) R w') :
    Holds (Fat32.dirAddEntry s name 0x10 k 0 >>= f) R (w.makeDir k parent) := by
  obtain ⟨hlay, hkept⟩ := @View.Layout.makeDir _ _ _ _ _ parent _ h hs hk hk0
  have hevo : w.Evolves (w.makeDir k parent) := View.Evolves.makeDir hs hk
  have hslots : (w.makeDir k parent).slots (Function.update ch k [k] k) =
      (newDir w.vol k parent).slots := by
    rw [Function.update_self]
    exact View.slots_makeDir (by unfold Vol.perCluster; omega)
  have hdir : (newEntry l name 0x10 k 0).isDir = true := by
    rw [newEntry, DirEntry.isDir, shortEntry_attr]
    decide
  have hcount := lfnCount_le hlen
  refine Holds.dirAddEntry_layout hlay (fun _ => roomFor_of_le ?_) hd hlen hz (fun _ => hfirst)
    (by decide) (Or.inr ⟨hdir, _, rfl, hslots, fun r x hx => by simp [newDir] at hx⟩) ?_ ?_
  · rw [View.vol_makeDir, Vol.perCluster]
    omega
  · intro _ _
    rw [hfull]
    have hchain : (w.makeDir k parent).Chain k [k] := by
      have := (hlay.chains.chain k (by simp)).1
      rwa [Function.update_self] at this
    apply Holds.fatFreeChain hchain
    have hfree := hlay.free
    rw [Function.update_self] at hfree
    refine herr _ _ hfree (hkept.of_sec rfl) (hevo.trans View.Evolves.freeChain) ?_
    rw [View.fds_freeChain, View.fds_makeDir]
  · intro w' ch' l' j hins _ hlay' hkept' hevo' hfds _ o
    exact hok l' j w' ch' hins hlay' (hkept.trans hkept') (hevo.trans hevo')
      (by rw [hfds, View.fds_makeDir]) _

/-- `fat32_mkdir` puts an entry of a directory with two dot entries into the parent. -/
theorem Holds.fat32Mkdir_new (h : w.Layout ch D T) (hspc : 2 ≤ w.vol.secPerClus)
    (hz : ∀ c ∈ path, c ≠ 0)
    (hfirst : ∀ l, ⟨(resolveParent w.vol D path).1, l⟩ ∈ D →
      (pick83 l.has (resolveParent w.vol D path).2).getD 0 0 ≠ 0xE5)
    (herr : ∀ (err : Err) w' ch', w'.Layout ch' D T → Kept (fun _ _ => False) w ch D w' ch' D →
      w.Evolves w' → w'.fds = w.fds → Holds (g err.code) R w')
    (hok : ∀ k up l l' j w' ch', w.mounted = true → statPath w.vol ch D path = none →
      w.vol.InRange k →
      (resolveParent w.vol D path).2 ≠ [] → ⟨(resolveParent w.vol D path).1, l⟩ ∈ D →
      l.Inserted l' j (newPieces l (resolveParent w.vol D path).2)
        (newEntry l (resolveParent w.vol D path).2 0x10 k 0) →
      w'.Layout ch' (setListing D (resolveParent w.vol D path).1 l' ++
        [⟨k, newDir w.vol k up⟩]) T →
      Kept (fun _ _ => False) w ch D w' ch' (setListing D (resolveParent w.vol D path).1 l' ++
        [⟨k, newDir w.vol k up⟩]) →
      w.Evolves w' → w'.fds = w.fds → Holds (g 0) R w') :
    Holds (Fat32.fat32Mkdir path >>= g) R w := by
  refine Holds.of_sound fun n hs => ?_
  have hself := fun err => herr err w ch h Kept.refl View.Evolves.refl rfl
  rw [Fat32.fat32Mkdir, bind_assoc]
  apply Holds.getStore
  intro c hc
  rw [hc.mounted, hc.vol]
  cases hm : w.mounted with
  | false => exact hself Err.noDev
  | true =>
      simp only [Bool.not_true, Bool.false_eq_true, if_false]
      rw [bind_assoc]
      apply Holds.pathStat h
      cases hp : statPath w.vol ch D path with
      | some p =>
          simp only [pure_bind]
          exact hself Err.exists_
      | none =>
          simp only [bind_assoc]
          apply Holds.pathResolveParent h
          obtain ⟨hlen, hmem⟩ := resolveParent_name (v := w.vol) (D := D) path
          have hcase := resolveParent_mem h path
          generalize resolveParent w.vol D path = r at *
          obtain ⟨s, name⟩ := r
          simp only at *
          by_cases h0 : s = 0 ∨ name = []
          · rw [if_pos h0, pure_bind]
            exact hself Err.notFound
          rw [if_neg h0, bind_assoc]
          obtain ⟨⟨s', l⟩, hd, hs'⟩ := hcase.resolve_left fun hz => h0 (Or.inl hz)
          change s' = s at hs'
          subst hs'
          apply Holds.fatAlloc (Or.inl rfl)
          · intro _
            rw [if_pos rfl, pure_bind]
            exact hself Err.full
          intro k hk hk0 _
          have hkne : k ≠ 0 := by
            have := hk.1
            omega
          rw [if_neg hkne, hs.clusterToLba_eq hk, bind_assoc]
          generalize (if s' = w.vol.rootCluster then 0 else s') = parent
          refine Holds.secRead (w := w.alloc 0 k) (k := k) (j := 0) (by rw [View.vol_alloc])
            (by rw [View.vol_alloc]; exact hk) (by rw [View.vol_alloc]; exact hs.spc_pos) ?_
          simp only [if_true, bind_assoc]
          refine HoldsAt.update_flush (by rw [View.vol_alloc]; exact hk)
            (by rw [View.vol_alloc]; exact hs.spc_pos) ?_
          change Holds _ R (w.makeDir k parent)
          refine Holds.dirAddEntry_makeDir h hs hspc hd hlen (fun c hc => hz c (hmem c hc).1)
            (hfirst l hd) hk hk0 (herr Err.full) ?_ fun l' j w' ch' hins hlay hkept hevo hfds _ => ?_
          · simp only [bind_assoc, pure_bind]
          · simp only [pure_bind]
            exact hok k parent l l' j w' ch' hm hp hk (fun hn => h0 (Or.inr hn)) hd hins hlay hkept
              hevo hfds

theorem Holds.fat32Mkdir (h : w.Layout ch D T) (hspc : 2 ≤ w.vol.secPerClus)
    (hz : ∀ c ∈ path, c ≠ 0)
    (hfirst : ∀ l, ⟨(resolveParent w.vol D path).1, l⟩ ∈ D →
      (pick83 l.has (resolveParent w.vol D path).2).getD 0 0 ≠ 0xE5)
    (herr : ∀ (err : Err) w' ch', w'.Layout ch' D T → Kept (fun _ _ => False) w ch D w' ch' D →
      w.Evolves w' → w'.fds = w.fds → Holds (g err.code) R w')
    (hok : ∀ w' ch' D', w'.Layout ch' D' T → Kept (fun _ _ => False) w ch D w' ch' D' →
      w.Evolves w' → w'.fds = w.fds → Holds (g 0) R w') :
    Holds (Fat32.fat32Mkdir path >>= g) R w :=
  Holds.fat32Mkdir_new h hspc hz hfirst herr
    fun _ _ _ _ _ w' ch' _ _ _ _ _ _ => hok w' ch' _

end Mkdir

end Chimaera.Fat32
