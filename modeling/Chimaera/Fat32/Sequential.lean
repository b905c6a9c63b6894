/-
A file that is written in one go and read again: any buffers, any read lengths.
-/
import Chimaera.Fat32.Files

namespace Chimaera.Fat32

open Prog

variable {β : Type} {R : β → View → Prop} {w w' : View} {ch ch' : Nat → List Nat}
  {D D' : List Dir} {T : List Nat} {l l' : Listing} {run r : List DirEntry}
  {e x y : DirEntry} {a s i j k n m fd cap : Nat} {v : Vol} {path q : CStr}
  {bs cs data : List UInt8} {bufs : List (List UInt8)} {lens : List Nat}
  {as : List (Int × Nat)} {t : Drv}

def writeEach (fd : Int) : List (List UInt8) → Prog Drv (List (Int × Nat))
  | [] => pure []
  | b :: bufs => do
      let n ← fat32Write fd b
      let free ← asks Drv.freeClusters
      let rest ← writeEach fd bufs
      pure ((n, free) :: rest)

def readEach (fd : Int) : List Nat → Prog Drv (List (Int × List UInt8))
  | [] => pure []
  | len :: lens => do
      let r ← fat32Read fd len
      let rest ← readEach fd lens
      pure (r :: rest)

/-- Write the buffers to the path through one descriptor, close it, and read the path
through another. -/
def writeThenRead (path : CStr) (bufs : List (List UInt8)) (lens : List Nat) :
    Prog Drv (Option (List (Int × Nat) × Int × List (Int × List UInt8))) := do
  let fd ← fat32Open path true
  if fd < 0 then pure none
  else
    let counts ← writeEach fd bufs
    fat32Close fd
    let fd' ← fat32Open path false
    let reads ← readEach fd' lens
    pure (some (counts, fd', reads))

/-- A count is at most the length of its buffer, and less only where no cluster is left. -/
def CountsOk (bufs : List (List UInt8)) (as : List (Int × Nat)) : Prop :=
  List.Forall₂ (fun b a => a.1 ≤ (b.length : Int) ∧ (a.1 < b.length → a.2 = 0)) bufs as

def storedOf : List (List UInt8) → List (Int × Nat) → List UInt8
  | b :: bufs, a :: as => b.take a.1.toNat ++ storedOf bufs as
  | _, _ => []

/-- The pieces of `c` that reads of these lengths hand out. -/
def handedOut (c : List UInt8) : List Nat → List (Int × List UInt8)
  | [] => []
  | len :: lens => ((min len c.length : Nat), c.take len) :: handedOut (c.drop len) lens

/-- How many bytes each of the requests `lens` gets out of `c` bytes. -/
def pieces (c : Nat) : List Nat → List Nat
  | [] => []
  | len :: lens => min len c :: pieces (c - len) lens

/-- No transfer moves so many bytes that their count is negative. -/
def Countable (c : Nat) (lens : List Nat) : Prop := ∀ p ∈ pieces c lens, p < 2147483648

theorem countable_cons {len : Nat} : Countable k (len :: lens) ↔
    min len k < 2147483648 ∧ Countable (k - len) lens := by
  simp [Countable, pieces]

theorem countable_of_lt (h : min lens.sum k < 2147483648) : Countable k lens := by
  induction lens generalizing k with
  | nil => simp [Countable, pieces]
  | cons len lens ih =>
      rw [List.sum_cons] at h
      exact countable_cons.mpr ⟨by omega, ih (by omega)⟩

/-- The answers of writes where `c` more bytes can be stored. -/
def Answered : Nat → List (List UInt8) → List (Int × Nat) → Prop
  | _, [], as => as = []
  | c, b :: bufs, as => ∃ free rest, as = (i32 (min b.length c), free) :: rest ∧
      (c < b.length → free = 0) ∧ Answered (c - b.length) bufs rest

/-- The answers of reads that have the bytes `c` before them. -/
def readAnswers (c : List UInt8) : List Nat → List (Int × List UInt8)
  | [] => []
  | len :: lens => (i32 (min len c.length), c.take len) :: readAnswers (c.drop len) lens

theorem take_flatten_cons {b : List UInt8} : (b :: bufs).flatten.take k =
    b.take (min b.length k) ++ bufs.flatten.take (k - b.length) := by
  rw [List.flatten_cons, List.take_append]
  congr 1
  rw [Nat.min_comm, ← List.take_take, List.take_of_length_le (Nat.le_refl _)]

/-- Counts that are not negative are the ones that name what was stored. -/
theorem countsOk_of_answered (h : Answered k bufs as) (hc : Countable k (bufs.map List.length)) :
    CountsOk bufs as ∧ storedOf bufs as = bufs.flatten.take k := by
  induction bufs generalizing k as with
  | nil =>
      rw [Answered] at h
      subst h
      exact ⟨List.Forall₂.nil, by simp [storedOf]⟩
  | cons b bufs ih =>
      obtain ⟨free, rest, rfl, hfree, hrest⟩ := h
      rw [List.map_cons, countable_cons] at hc
      obtain ⟨hlt, hcount⟩ := hc
      obtain ⟨hok, hsame⟩ := ih hrest hcount
      refine ⟨List.Forall₂.cons ?_ hok, ?_⟩
      · rw [i32_of_lt hlt]
        exact ⟨by omega, fun hshort => hfree (by omega)⟩
      · rw [take_flatten_cons, storedOf, i32_of_lt hlt, Int.toNat_natCast, hsame]

/-- The reads hand out everything where an `int` counts it. -/
theorem readAnswers_of_length (h : cs.length < 2147483648) :
    readAnswers cs lens = handedOut cs lens := by
  induction lens generalizing cs with
  | nil => rfl
  | cons len lens ih =>
      rw [readAnswers, handedOut, i32_of_lt (by omega), ih (by rw [List.length_drop]; omega)]

theorem Holds.asks_free {g : Nat → Prog Drv β} (h : Holds (g w.freeCount) R w) :
    Holds (asks Drv.freeClusters >>= g) R w := by
  intro c hc s hs hsc
  obtain ⟨b, s', hr, hs', hq⟩ := h c hc s hs hsc
  refine ⟨b, s', runs_bind.mpr ⟨w.freeCount, s, runs_asks.mpr ⟨?_, rfl⟩, hr⟩, hs', hq⟩
  rw [Drv.freeClusters, hsc, hc.view]

/-- A file that has used up its clusters leaves none free. -/
theorem Filling.full (h : Filling w ch D T fd s i run e cap bs) (hs : w.vol.Sound n)
    (hfull : bs.length = cap * (w.vol.secPerClus * 512)) : w.freeCount = 0 := by
  have hcap := h.stream.cap
  have hle : bs.length ≤ (ch e.cluster).length * (w.vol.secPerClus * 512) := h.stream.size_le
  have hpos : 0 < w.vol.secPerClus * 512 := by
    have := hs.spc_pos
    omega
  rw [hfull] at hle
  have := Nat.le_of_mul_le_mul_right hle hpos
  omega

theorem Filling.length_le (h : Filling w ch D T fd s i run e cap bs) :
    bs.length ≤ cap * (w.vol.secPerClus * 512) := by
  have hcap := h.stream.cap
  have hle : bs.length ≤ (ch e.cluster).length * (w.vol.secPerClus * 512) := h.stream.size_le
  exact hle.trans (Nat.mul_le_mul_right _ (by omega))

/-- The buffers go behind what was written so far, as far as there is room. -/
theorem Holds.writeEach_filling {g : List (Int × Nat) → Prog Drv β}
    (h : Filling w ch D T fd s i run e cap bs) (hlt : fd < 16)
    (h32 : bs.length + bufs.flatten.length < 4294967296)
    (hg : ∀ as w' ch', Answered (cap * (w.vol.secPerClus * 512) - bs.length) bufs as →
      Filling w' ch' D T fd s i run e cap
        (bs ++ bufs.flatten.take (cap * (w.vol.secPerClus * 512) - bs.length)) →
      Kept (fun t j => t = s ∧ j = i) w ch D w' ch' D → w.Evolves w' →
      (∀ j, j ≠ fd → w'.fds j = w.fds j) → Holds (g as) R w') :
    Holds (writeEach fd bufs >>= g) R w := by
  induction bufs generalizing w ch bs g with
  | nil =>
      rw [writeEach, pure_bind]
      refine hg [] w ch rfl ?_ Kept.refl View.Evolves.refl fun _ _ => rfl
      rw [List.flatten_nil, List.take_nil, List.append_nil]
      exact h
  | cons b bufs ih =>
      refine Holds.of_sound fun n hs => ?_
      rw [List.flatten_cons, List.length_append] at h32
      rw [writeEach, bind_assoc]
      apply Holds.fat32Write_filling h hlt (by omega)
      intro m w₁ ch₁ hm hfull hfill hkept hevo hfds
      have hlen : (b.take m).length = m := by
        rw [List.length_take]
        omega
      have hle := hfill.length_le
      rw [List.length_append, hlen, hevo.vol] at hle
      generalize hN : cap * (w.vol.secPerClus * 512) = N at *
      have hmin : m = min b.length (N - bs.length) := by omega
      simp only [bind_assoc]
      apply Holds.asks_free
      have hN₁ : cap * (w₁.vol.secPerClus * 512) = N := by rw [hevo.vol, hN]
      apply ih hfill
      · rw [List.length_append, hlen]
        omega
      intro as w₂ ch₂ has hfill₂ hkept₂ hevo₂ hfds₂
      rw [hN₁, List.length_append, hlen] at has hfill₂
      have hrest : N - (bs.length + m) = N - bs.length - b.length := by omega
      rw [hrest] at has hfill₂
      rw [List.append_assoc, hmin, ← take_flatten_cons] at hfill₂
      rw [pure_bind]
      refine hg _ w₂ ch₂ ⟨w₁.freeCount, as, by rw [hmin], fun hshort => ?_, has⟩ hfill₂
        (hkept.trans hkept₂) (hevo.trans hevo₂) fun j hj => (hfds₂ j hj).trans (hfds j hj)
      refine hfill.full (hevo.vol ▸ hs) ?_
      rw [List.length_append, hlen, hN₁]
      exact hfull (by omega)

/-- Reads go on where the last one stopped. -/
theorem Holds.readEach_reading {g : List (Int × List UInt8) → Prog Drv β}
    (hlay : w.Layout ch D T) (h : Reading w ch D fd s i run e n) (hlt : fd < 16)
    (hg : ∀ w', w'.vol = w.vol → w'.fat = w.fat → w'.sec = w.sec →
      Holds (g (readAnswers ((w.content ch e).drop n) lens)) R w') :
    Holds (readEach fd lens >>= g) R w := by
  induction lens generalizing w n g with
  | nil =>
      rw [readEach, pure_bind]
      exact hg w rfl rfl rfl
  | cons len lens ih =>
      rw [readEach, bind_assoc]
      apply Holds.fat32Read_reading hlay h hlt
      intro f hread
      rw [bind_assoc]
      refine ih (w := w.setFd fd f) (hlay.of_eq rfl rfl rfl) hread fun w' hv hf hsec => ?_
      rw [pure_bind]
      have hdone := hg w' hv hf hsec
      have hleft : ((w.content ch e).drop n).length = e.size - n := by
        rw [List.length_drop, length_content]
      rw [readAnswers, hleft, List.drop_drop] at hdone
      have hnext : (w.content ch e).drop (n + min len (e.size - n)) =
          (w.content ch e).drop (n + len) := by
        rcases Nat.le_total len (e.size - n) with hle | hge
        · rw [Nat.min_eq_left hle]
        · rw [Nat.min_eq_right hge, List.drop_eq_nil_of_le, List.drop_eq_nil_of_le]
          · rw [length_content]
            omega
          · rw [length_content]
            omega
      rw [← hnext] at hdone
      exact hdone

/-- Reads without a descriptor answer with an error. -/
theorem Holds.readEach_closed {g : List (Int × List UInt8) → Prog Drv β} {fd : Int} (h : fd < 0)
    (hg : Holds (g (lens.map fun _ => (Err.notFound.code, []))) R w) :
    Holds (readEach fd lens >>= g) R w := by
  induction lens generalizing g with
  | nil =>
      rw [readEach, pure_bind]
      exact hg
  | cons len lens ih =>
      rw [readEach, Fat32.fat32Read, bind_assoc, bind_assoc]
      apply Holds.getStore
      intro c hc
      have hclosed : c.fdOpen fd = false := by
        unfold Store.fdOpen
        rw [decide_eq_false (by omega), Bool.false_and, Bool.false_and]
      simp only [hclosed, Bool.not_false, if_true, pure_bind, bind_assoc]
      exact ih hg

theorem Holds.writeThenRead {R : Option (List (Int × Nat) × Int × List (Int × List UInt8)) →
      View → Prop}
    (h : w.Layout ch D T) (hz : ∀ c ∈ path, c ≠ 0)
    (hst : Admits w ch D path true → statPath w.vol ch D path = none → w.Storable D path)
    (h32 : bufs.flatten.length < 4294967296)
    (herr : ∀ w', (Admits w ch D path true → (resolveParent w.vol D path).1 ≠ 0 →
      ∀ n, w.Room ch D path n → n = 0) → R none w')
    (hok : ∀ n as fd rs w' ch' D', Admits w ch D path true →
      (resolveParent w.vol D path).1 ≠ 0 → w.Room ch D path n → n ≠ 0 → w'.Layout ch' D' T →
      Answered (n * (w.vol.secPerClus * 512)) bufs as →
      ((resolveParent w.vol D path).2 = [] → fd < 0) →
      ((resolveParent w.vol D path).2 ≠ [] → 0 ≤ fd ∧
        rs = readAnswers (bufs.flatten.take (n * (w.vol.secPerClus * 512))) lens ∧
        w.OthersKept ch D path w' ch' D') → R (some (as, fd, rs)) w') :
    Holds (Fat32.writeThenRead path bufs lens) R w := by
  rw [Fat32.writeThenRead]
  apply Holds.fat32Open_opened h hz hst
  · intro err w' ch' hno _ _ _ _
    rw [if_pos err.code_neg]
    exact Holds.pure (herr w' hno)
  · intro fd w₁ ch₁ D₁ s i run e ha hlt hclosed hlay₁ hkept₁ hevo₁ hfds₁ ho hop hch hsize hroom
    rw [if_neg (by omega)]
    have hfill := Opened.filling hlay₁ ho (by rw [hfds₁, Function.update_self]) hch hsize
    apply Holds.writeEach_filling hfill hlt (by rw [List.length_nil]; omega)
    intro as w₂ ch₂ has hfill₂ hkept₂ hevo₂ hfds₂
    rw [List.nil_append] at hfill₂
    rw [hevo₁.vol, List.length_nil, Nat.sub_zero] at has hfill₂
    apply Holds.fat32Close_filling hfill₂ hlt
    intro w₃ l l' x hd hup hb hlay₃ hcontent hkept₃ hevo₃ hfds₃
    have hpar := hop.parent_ne h
    have hfile := hfill₂.openOn.file
    have hevo : w.Evolves w₃ := (hevo₁.trans hevo₂).trans hevo₃
    have hkept := (hkept₁.trans hkept₂).trans hkept₃
    have hrefilled : Refilled w ch D path s i run x w₃ ch₂ (setListing D₁ s l') :=
      ⟨hop, hfill₂.layout.tree.nodup, hfile, hd, hup, hb, hkept, hevo.vol⟩
    have hstored := hrefilled.stored h hz hcontent
    apply Holds.fat32Open_read hlay₃
    · intro err hno
      have hnil : (resolveParent w.vol D path).2 = [] := by
        by_contra hnm
        obtain ⟨a, j, r, z, hpath, hzfile, -⟩ := hstored.named hnm
        have hstat := statPath_of_pathAt hlay₃ hpath
        refine hno ⟨hevo.mounted ▸ ha.mounted, fun hw => absurd hw (by decide),
          View.exists_freeFd hlt (by rw [hfds₃, Function.update_self]; rfl), fun q hq => ?_,
          fun hnone => ?_⟩
        · rw [hstat, Option.some.injEq] at hq
          rw [← hq]
          exact hzfile
        · rw [hstat] at hnone
          cases hnone
      apply Holds.readEach_closed err.code_neg
      exact Holds.pure (hok _ as _ _ w₃ ch₂ _ ha hpar hroom (by omega) hlay₃ has
        (fun _ => err.code_neg) fun hnm => absurd hnil hnm)
    · intro fd' a j r z hlt' _ hpath hzfile _
      have hnm : (resolveParent w.vol D path).2 ≠ [] := by
        intro hnil
        have hstat := statPath_of_pathAt hlay₃ hpath
        rw [hstored.nameless hnil] at hstat
        cases hstat
      obtain ⟨a', j', r', z', hpath', -, hcontent'⟩ := hstored.named hnm
      obtain ⟨rfl, rfl, rfl, rfl⟩ := hpath'.unique hpath hlay₃.tree.nodup
      have hlay₄ : (w₃.setFd fd' (openFd w₃.vol (ch₂ a') false a' j' z')).Layout ch₂
          (setListing D₁ s l') T := hlay₃.of_eq rfl rfl rfl
      have hreading : Reading (w₃.setFd fd' (openFd w₃.vol (ch₂ a') false a' j' z')) ch₂
          (setListing D₁ s l') fd' a' j' r' z' 0 :=
        reading_openFd hlay₄ hpath.entryAt hzfile (by rw [View.fds_setFd, Function.update_self])
      apply Holds.readEach_reading hlay₄ hreading hlt'
      intro w₅ hv hf hsec
      have hread : (w₃.setFd fd' (openFd w₃.vol (ch₂ a') false a' j' z')).content ch₂ z' =
          bufs.flatten.take ((1 + w₁.freeCount) * (w.vol.secPerClus * 512)) := hcontent'
      rw [hread, List.drop_zero]
      refine Holds.pure (hok _ as _ _ w₅ ch₂ _ ha hpar hroom (by omega)
        (hlay₄.of_eq hv hf hsec) has (fun hnil => absurd hnil hnm) fun _ => ⟨by omega, rfl, ?_⟩)
      exact (hrefilled.of_sec hv hsec).othersKept h hz hnm

/-- What was written is read again, whatever the lengths of the reads, and nothing else
changes. -/
def Sequential (path : CStr) (bufs : List (List UInt8)) (s : Drv) : Prop :=
  ∀ lens, (writeThenRead path bufs lens).wp (fun out s' => ∀ as fd rs, out = some (as, fd, rs) →
    CountsOk bufs as ∧ 0 ≤ fd ∧ rs = handedOut (storedOf bufs as) lens ∧ OthersKeep path s s') s

/-- Where the path opens for `len` bytes, it has a name that can be stored, and no more
bytes are stored than an `int` counts. -/
def Drv.SequenceFits (s : Drv) (path : CStr) (len : Nat) : Prop :=
  s.Opens path → ∀ n, s.Room path n → n ≠ 0 → s.Storable path ∧ s.Named path ∧
    min len (n * (s.vol.secPerClus * 512)) < 2147483648

/-- What the calls answer, and what they leave. -/
inductive SequenceAnswer (path : CStr) (bufs : List (List UInt8)) (lens : List Nat) (s : Drv) :
    Option (List (Int × Nat) × Int × List (Int × List UInt8)) → Drv → Prop
  | refused {s' : Drv} (h : s.Opens path → ∀ n, s.Room path n → n = 0) :
      SequenceAnswer path bufs lens s none s'
  | done {s' : Drv} {n : Nat} {as : List (Int × Nat)} {fd : Int} {rs : List (Int × List UInt8)}
      (hop : s.Opens path) (hroom : s.Room path n) (h0 : n ≠ 0)
      (has : Answered (n * (s.vol.secPerClus * 512)) bufs as) (hnil : ¬ s.Named path → fd < 0)
      (hnamed : s.Named path → 0 ≤ fd ∧
        rs = readAnswers (bufs.flatten.take (n * (s.vol.secPerClus * 512))) lens ∧
        OthersKeep path s s') : SequenceAnswer path bufs lens s (some (as, fd, rs)) s'

theorem writeThenRead_answers (ht : t.Ready) (hc : t.Consistent) (hz : ∀ c ∈ path, c ≠ 0)
    (h32 : bufs.flatten.length < 4294967296)
    (hst : t.Opens path → ∀ n, t.Room path n → n ≠ 0 → t.Storable path) :
    (writeThenRead path bufs lens).wp (SequenceAnswer path bufs lens t) t := by
  obtain ⟨w, hw, ch, D, h⟩ := hc
  have hopens := h.opens_iff ht hw path
  have hnamed := h.named_iff ht hw path
  have hrun : Holds (writeThenRead path bufs lens) (fun out w' => ∀ t' : Drv, t'.Ready →
      t'.toStore.Shows w' → SequenceAnswer path bufs lens t out t') w := by
    apply Holds.writeThenRead h hz ?_ h32
    · intro w' hno t' _ _
      refine SequenceAnswer.refused fun hop n hn => ?_
      obtain ⟨ha, hne⟩ := hopens.mp hop
      exact hno ha hne n ((h.room_iff ht hw ha hne).mp hn)
    · intro n as fd rs w' ch' D' ha hne hroom h0 hlay has hnil hnm t' ht' hw'
      have hcs : t.vol.secPerClus = w.vol.secPerClus := by rw [hw.vol]
      rw [← hcs] at has hnm
      refine SequenceAnswer.done (hopens.mpr ⟨ha, hne⟩) ((h.room_iff ht hw ha hne).mpr hroom) h0 has
        (fun hno => hnil (not_not.mp (mt hnamed.mpr hno))) fun hn => ?_
      obtain ⟨hfd, hrs, hothers⟩ := hnm (hnamed.mp hn)
      exact ⟨hfd, hrs, hothers.keeps h ht hw hlay ht' hw'⟩
    · intro ha hno l m hd hg hm
      have hne := h.start_ne_zero hd
      refine h.storable ht hw hno (hst (hopens.mpr ⟨ha, hne⟩) _
        ((h.room_iff ht hw ha hne).mpr (View.Room.created hno hd hg)) (by omega)) l m hd hg hm
  refine (hrun.wp ht hw).mono ?_
  rintro out t' ⟨ht', w', hw', hout⟩
  exact hout t' ht' hw'

/-- The round trip on a path that can be created. -/
theorem sequential_of_storable (ht : t.Ready) (hc : t.Consistent) (hz : ∀ c ∈ path, c ≠ 0)
    (h32 : bufs.flatten.length < 4294967296)
    (hst : t.Opens path → ∀ n, t.Room path n → n ≠ 0 → t.Storable path) :
    Sequential path bufs t ↔ t.SequenceFits path bufs.flatten.length := by
  constructor
  · intro hseq hop n hn h0
    obtain ⟨out, t', hrun, hs⟩ := hseq [bufs.flatten.length]
    cases (writeThenRead_answers ht hc hz h32 hst).of_runs hrun with
    | refused hno => exact absurd (hno hop n hn) h0
    | done _ hroom _ has hnil hnamed =>
        obtain rfl := Drv.Room.unique ht hc hop hn hroom
        obtain ⟨-, hfd, hrs, -⟩ := hs _ _ _ rfl
        have hname : t.Named path := by
          by_contra hno
          have := hnil hno
          omega
        obtain ⟨-, hrs', -⟩ := hnamed hname
        refine ⟨hst hop n hn h0, hname, ?_⟩
        rw [hrs', readAnswers, handedOut, List.cons.injEq, Prod.mk.injEq, List.length_take] at hrs
        have hcount := hrs.1.1
        by_contra hge
        unfold i32 at hcount
        omega
  · intro hfits lens
    refine (writeThenRead_answers ht hc hz h32 hst).mono ?_
    intro out t' hout as fd rs heq
    subst heq
    cases hout with
    | done hop hroom h0 has _ hnamed =>
        obtain ⟨-, hname, hlt⟩ := hfits hop _ hroom h0
        obtain ⟨hfd, hrs, hothers⟩ := hnamed hname
        have hcount := countable_of_lt (List.length_flatten ▸ hlt)
        obtain ⟨hok, hstored⟩ := countsOk_of_answered has hcount
        refine ⟨hok, hfd, ?_, hothers⟩
        rw [hrs, hstored]
        refine readAnswers_of_length ?_
        rw [List.length_take]
        omega

/-- Successive writes are read again exactly where they fit, on a path that can be created. -/
theorem sequential_iff_fits (ht : t.Ready) (hc : t.Consistent) (hz : ∀ c ∈ path, c ≠ 0)
    (h32 : bufs.flatten.length < 4294967296) :
    (t.SequenceFits path bufs.flatten.length → Sequential path bufs t) ∧
      (t.Storable path → Sequential path bufs t → t.SequenceFits path bufs.flatten.length) := by
  refine ⟨fun hf => ?_, fun hst => ?_⟩
  · exact (sequential_of_storable ht hc hz h32 fun ho n hn h0 => (hf ho n hn h0).1).mpr hf
  · exact (sequential_of_storable ht hc hz h32 fun _ _ _ _ => hst).mp

/-- Two buffers over a cluster boundary, on a fresh volume. -/
theorem sequential_fresh :
    Sequential [0x2F, 0x41] [List.replicate 4096 1, [2]] (fresh 4) := by
  have hlen : [List.replicate 4096 (1 : UInt8), [2]].flatten.length = 4097 := by
    rw [List.flatten_cons, List.length_append, List.length_replicate]
    rfl
  refine (sequential_iff_fits (fresh_ready (by omega)) ⟨_, fresh_shows, _, _, fresh_layout⟩
    (by simp) (by omega)).1 fun _ n _ _ => ⟨storable_fresh, named_fresh, by omega⟩

/-- A path that ends with two slashes is accepted for writing, and not found again. -/
theorem sequential_nameless : (fresh 4).Ready ∧ (fresh 4).Consistent ∧
    ¬ Sequential [0x2F, 0x2F] [[1]] (fresh 4) := by
  refine ⟨fresh_ready (by omega), ⟨_, fresh_shows, _, _, fresh_layout⟩, fun hseq => ?_⟩
  have hrun : ((writeThenRead [0x2F, 0x2F] [[1]] [1]).run 20 (fresh 4)).map
      (fun r => r.1.map (fun x => x.2.1)) = some (some (-1)) := by decide +kernel
  obtain ⟨⟨out, s⟩, hrun, hout⟩ := Option.map_eq_some_iff.mp hrun
  obtain ⟨⟨as, fd, rs⟩, rfl, rfl⟩ := Option.map_eq_some_iff.mp hout
  obtain ⟨-, hfd, -⟩ := (hseq [1]).of_runs ⟨20, hrun⟩ as (-1) rs rfl
  exact absurd hfd (by decide)

end Chimaera.Fat32
