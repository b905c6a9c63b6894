/-
The walk of the checker over a tree that is in order.  Every chain is marked
once, by the entry that it belongs to, and nothing is repaired: the tables grow
by the clusters below the directory, and the disk stays as it is.
-/
import Chimaera.Fat32.Below
import Chimaera.Fat32.Iterators
import Chimaera.Fat32.Marking

namespace Chimaera.Fat32

open Prog

variable {total start dirCluster entryIdx guard i : Nat} {xs ys : List Nat}
  {w w₁ w₂ : Fat32.Walk} {X Y : Nat → Prop} {c : Store}

/-- The clusters `X` are marked and nothing else happens to the tables that the
repairs look at. -/
structure Walk.Marks (w : Walk) (X : Nat → Prop) (w' : Walk) : Prop where
  bmp : ∀ i, w'.bmp i = true ↔ w.bmp i = true ∨ X (i + 2)
  stats : w'.stats = w.stats
  needReadonly : w'.needReadonly = w.needReadonly

namespace Walk.Marks

theorem refl (h : ∀ x, ¬ X x) : w.Marks X w :=
  ⟨fun i => by simp [h], rfl, rfl⟩

theorem trans (h₁ : w.Marks X w₁) (h₂ : w₁.Marks Y w₂) : w.Marks (fun x => X x ∨ Y x) w₂ := by
  refine ⟨fun i => ?_, h₂.stats.trans h₁.stats, h₂.needReadonly.trans h₁.needReadonly⟩
  rw [h₂.bmp, h₁.bmp, or_assoc]

theorem congr (h : w.Marks X w₁) (hXY : ∀ x, X x ↔ Y x) : w.Marks Y w₁ :=
  ⟨fun i => by rw [h.bmp, hXY], h.stats, h.needReadonly⟩

/-- A cluster that is not among them keeps its bit. -/
theorem clear (h : w.Marks X w₁) {x : Nat} (h2 : 2 ≤ x) (hx : ¬ X x)
    (hbit : w.bmp (x - 2) = false) : w₁.bmp (x - 2) = false := by
  rw [← Bool.not_eq_true] at hbit ⊢
  rw [h.bmp, Nat.sub_add_cancel h2]
  exact not_or.mpr ⟨hbit, hx⟩

end Walk.Marks

theorem Vol.Sound.markable {v : Vol} {n x : Nat} (hs : v.Sound n) (hx : v.InRange x) :
    Markable v.totalClusters x := by
  have htotal := hs.total_le
  refine ⟨hx.1, ?_⟩
  rw [u32_of_lt (by omega)]
  exact hx.2

variable (entryIdx) in
/-- A round at a cluster that is clear, or on the chain of the directory itself. -/
theorem markStep_marks {x : Nat} (hx : Markable total x) (hg : guard < total)
    (hbit : start = dirCluster ∨ w.bmp (x - 2) = false) :
    ∃ w', w.Marks (· = x) w' ∧ markStep start dirCluster entryIdx total (x, guard, w) =
      fatGet x >>= fun next => if 0x0FFFFFF8 ≤ next ∨ next = 0 then pure (.inr w')
        else pure (.inl (next, guard + 1, w')) := by
  have hidx : ∀ i, i + 2 = x ↔ i = x - 2 := by
    have := hx.1
    omega
  by_cases hset : w.bmp (x - 2) = true
  · have hown : start = dirCluster := hbit.resolve_right (by simp [hset])
    refine ⟨{ w with refs := Function.update w.refs (x - 2) (dirCluster, entryIdx) },
      ⟨fun i => ?_, rfl, rfl⟩, ?_⟩
    · simp only [hidx]
      constructor
      · exact Or.inl
      · rintro (h | rfl)
        · exact h
        · exact hset
    · rw [markStep, if_pos ⟨hx.1, hx.2, hg⟩]
      dsimp only
      rw [if_pos hset, if_pos hown]
  · rw [Bool.not_eq_true] at hset
    refine ⟨w.mark [x] (dirCluster, entryIdx), ⟨fun i => ?_, rfl, rfl⟩, markStep_clear hx hset hg⟩
    simp [Walk.mark]

/-- The rounds from the link `b`, with the cells `ys` ahead. -/
theorem markRounds_marks (hs : c.vol.Sound c.sectors) {b : Nat} (hb : c.Chain b ys)
    (hnd : ys.Nodup) (hg : guard + ys.length ≤ c.vol.totalClusters)
    (hclear : start = dirCluster ∨ ∀ x ∈ ys, w.bmp (x - 2) = false) :
    On (loop (markStep start dirCluster entryIdx c.vol.totalClusters) (b, guard, w))
      (fun w' c' => c' = c ∧ w.Marks (· ∈ ys) w') c := by
  have htotal := hs.total_le
  induction ys generalizing b guard w with
  | nil =>
      have hfin : 0x0FFFFFF8 ≤ b := Links.Chain.nil_iff.mp hb
      have hout : ¬ (Markable c.vol.totalClusters b ∧ guard < c.vol.totalClusters) := by
        intro h
        have hlt := h.1.2
        rw [u32_of_lt (by omega)] at hlt
        omega
      apply On.loop
      rw [markStep_out hout]
      exact On.pure ⟨rfl, Walk.Marks.refl (by simp)⟩
  | cons x ys ih =>
      obtain ⟨rfl, hx, hrest⟩ := Links.Chain.cons_iff.mp hb
      have hrest : c.Chain (c.fat b) ys := hrest
      rw [List.length_cons] at hg
      obtain ⟨hnot, hnd⟩ := List.nodup_cons.mp hnd
      obtain ⟨w₁, hw₁, hstep⟩ := markStep_marks entryIdx (hs.markable hx)
        (show guard < c.vol.totalClusters by omega)
        (hclear.imp_right fun h => h b List.mem_cons_self)
      apply On.loop
      rw [hstep]
      apply On.fatGet hs hx
      cases ys with
      | nil =>
          have hfin : 0x0FFFFFF8 ≤ c.fat b := Links.Chain.nil_iff.mp hrest
          rw [if_pos (Or.inl hfin)]
          exact On.pure ⟨rfl, hw₁.congr fun y => by simp⟩
      | cons y ys =>
          obtain ⟨heq, hy, -⟩ := Links.Chain.cons_iff.mp hrest
          have hlo := hy.1
          have hhi := hy.2
          rw [if_neg (by rw [heq]; omega)]
          refine On.pure ((ih hrest hnd (by omega) ?_).mono ?_)
          · refine hclear.imp_right fun h z hz => ?_
            refine hw₁.clear (hrest.inRange hz).1 ?_ (h z (List.mem_cons_of_mem b hz))
            rintro rfl
            exact hnot hz
          · rintro w' c' ⟨rfl, hw'⟩
            exact ⟨rfl, (hw₁.trans hw').congr fun z => by simp⟩

/-- `fsck_mark_chain` on a chain whose clusters are all clear, or on the chain of the directory
itself, marks its clusters. -/
theorem On.fsckMarkChain_marks (hs : c.vol.Sound c.sectors) {a : Nat} (hch : c.Chain a xs)
    (hclear : a = dirCluster ∨ ∀ x ∈ xs, w.bmp (x - 2) = false) :
    On (fsckMarkChain a dirCluster entryIdx c.vol.totalClusters w)
      (fun w' c' => c' = c ∧ w.Marks (· ∈ xs) w') c := by
  have hlen : xs.length ≤ c.vol.totalClusters :=
    (markable_count (hch.nodup hs) fun x hx => hs.markable (hch.inRange hx)).1
  exact markRounds_marks hs hch (hch.nodup hs) (by omega) hclear

theorem Store.of_drop_slots {e : DirEntry} {rest : List DirEntry}
    (h : (c.slots xs).drop i = e :: rest) :
    i < xs.length * c.vol.perCluster ∧ c.slot xs i = e ∧ (c.slots xs).drop (i + 1) = rest := by
  have hi : i < (c.slots xs).length := by
    by_contra hge
    rw [List.drop_eq_nil_of_le (by omega)] at h
    exact absurd h (by simp)
  rw [List.drop_eq_getElem_cons hi] at h
  obtain ⟨he, hrest⟩ := List.cons.inj h
  rw [Store.getElem_slots] at he
  rw [Store.length_slots] at hi
  exact ⟨hi, he, hrest⟩

/-- The scan of `walk_dir` goes on from `st` and ends as `Q` says. -/
def Store.Scans (c : Store) (sub : Nat → Fat32.Walk → Prog Drv Fat32.Walk) (a : Nat)
    (Q : Fat32.Walk → Store → Prop) (st : WalkState) : Prop :=
  On (loop (walkStep sub a c.vol.totalClusters) st) Q c

/-- Between two items of a directory. -/
structure WalkState.Between (st : WalkState) (it : DirIter) (w : Walk) : Prop where
  it : st.it = it
  walk : st.walk = w
  idle : st.buildingLfn = false

/-- Inside of a long name, behind piece `n`. -/
structure WalkState.Inside (st : WalkState) (it : DirIter) (w : Walk) (sum : UInt8) (n : Nat) :
    Prop where
  it : st.it = it
  walk : st.walk = w
  building : st.buildingLfn = true
  seq : st.seqExpected = n
  checksum : st.sumExpected = sum

section Scans

variable {sub : Nat → Fat32.Walk → Prog Drv Fat32.Walk} {st : WalkState}
  {Q : Fat32.Walk → Store → Prop} {a n : Nat}
  {sum : UInt8} {e : DirEntry} {ps rest : List DirEntry}

/-- One round at a slot of the chain. -/
theorem Store.Scans.round (hs : c.vol.Sound c.sectors) (hch : c.Chain a xs)
    (hslot : (c.slots xs).drop i = e :: rest) (hit : st.it = iterAt c.vol xs i)
    (h0 : e.first ≠ 0)
    (h : On (if e.first = 0xE5 then
        Pure.pure (Sum.inl { st with
          it := iterAt c.vol xs (i + 1)
          buildingLfn := false
          seqExpected := 0
          entryIdx := st.entryIdx + 1 })
      else if e.isLfn then walkLfn { st with it := iterAt c.vol xs (i + 1) } e >>= fun st =>
        Pure.pure (Sum.inl st)
      else walkEndRun a { st with it := iterAt c.vol xs (i + 1) } e >>= fun st =>
        walkShort sub a c.vol.totalClusters st e >>= fun st => Pure.pure (Sum.inl st))
      (fun (d : WalkState ⊕ Fat32.Walk) c' =>
        ∃ st', d = Sum.inl st' ∧ c' = c ∧ c.Scans sub a Q st') c) :
    c.Scans sub a Q st := by
  obtain ⟨hi, rfl, -⟩ := Store.of_drop_slots hslot
  apply On.loop
  rw [walkStep, hit]
  apply On.fsckDirIterNext hs hch hi
  dsimp only
  rw [if_neg h0]
  refine h.mono ?_
  rintro d c' ⟨st', rfl, rfl, hst'⟩
  exact hst'

/-- A deleted slot. -/
theorem Store.Scans.hole (hs : c.vol.Sound c.sectors) (hch : c.Chain a xs)
    (hslot : (c.slots xs).drop i = e :: rest) (he : e.first = 0xE5)
    (hst : st.Between (iterAt c.vol xs i) w)
    (h : ∀ st', st'.Between (iterAt c.vol xs (i + 1)) w → c.Scans sub a Q st') :
    c.Scans sub a Q st := by
  refine Store.Scans.round hs hch hslot hst.it (by rw [he]; decide) ?_
  rw [if_pos he]
  exact On.pure ⟨_, rfl, rfl, h _ ⟨rfl, hst.walk, rfl⟩⟩

/-- The marked piece of a long name. -/
theorem Store.Scans.opening (hs : c.vol.Sound c.sectors) (hch : c.Chain a xs)
    (hslot : (c.slots xs).drop i = e :: rest) (he : Piece sum n true e) (hn : 1 ≤ n) (hlt : n < 32)
    (hst : st.Between (iterAt c.vol xs i) w)
    (h : ∀ st', st'.Inside (iterAt c.vol xs (i + 1)) w sum n → c.Scans sub a Q st') :
    c.Scans sub a Q st := by
  obtain ⟨h0, hE5⟩ := he.first_ne hn hlt
  refine Store.Scans.round hs hch hslot hst.it h0 ?_
  rw [if_neg hE5, if_pos he.lfn, walkLfn, if_pos (he.isLast hn hlt), pure_bind]
  exact On.pure ⟨_, rfl, rfl, h _ ⟨rfl, hst.walk, rfl, he.seq hn hlt, he.checksum⟩⟩

/-- The next piece of a long name. -/
theorem Store.Scans.piece (hs : c.vol.Sound c.sectors) (hch : c.Chain a xs)
    (hslot : (c.slots xs).drop i = e :: rest) (he : Piece sum n false e) (hn : 1 ≤ n)
    (hlt : n < 32) (hst : st.Inside (iterAt c.vol xs i) w sum (n + 1))
    (h : ∀ st', st'.Inside (iterAt c.vol xs (i + 1)) w sum n → c.Scans sub a Q st') :
    c.Scans sub a Q st := by
  obtain ⟨h0, hE5⟩ := he.first_ne hn hlt
  have hlast := he.isLast hn hlt
  have hseq := he.seq hn hlt
  refine Store.Scans.round hs hch hslot hst.it h0 ?_
  rw [if_neg hE5, if_pos he.lfn, walkLfn, hlast, if_neg Bool.false_ne_true]
  dsimp only
  rw [hst.building, hst.seq, hst.checksum, hseq, he.checksum, Bool.not_true,
    if_neg Bool.false_ne_true, if_neg (by simp), pure_bind]
  exact On.pure ⟨_, rfl, rfl, h _ ⟨rfl, hst.walk, rfl, rfl, rfl⟩⟩

theorem Store.Scans.pieces (hs : c.vol.Sound c.sectors) (hch : c.Chain a xs)
    (hslot : (c.slots xs).drop i = ps ++ rest) (hps : Pieces sum false ps) (hlt : ps.length < 31)
    (hst : st.Inside (iterAt c.vol xs i) w sum (ps.length + 1))
    (h : ∀ st', st'.Inside (iterAt c.vol xs (i + ps.length)) w sum 1 → c.Scans sub a Q st') :
    c.Scans sub a Q st := by
  induction ps generalizing i st with
  | nil => exact h st hst
  | cons p ps ih =>
      rw [List.length_cons] at hlt
      obtain ⟨-, -, hrest⟩ := Store.of_drop_slots hslot
      refine Store.Scans.piece hs hch hslot hps.1 (by omega) (by omega) hst fun st' hst' => ?_
      refine ih hrest hps.2 (by omega) hst' fun st'' hst'' => h st'' ?_
      rw [List.length_cons, Nat.add_comm ps.length 1, ← Nat.add_assoc]
      exact hst''

/-- A complete long name, or none. -/
theorem Store.Scans.run {run : List DirEntry} (hs : c.vol.Sound c.sectors) (hch : c.Chain a xs)
    (hslot : (c.slots xs).drop i = run ++ rest) (hrun : RunOk sum run)
    (hst : st.Between (iterAt c.vol xs i) w)
    (h : ∀ st', st'.Between (iterAt c.vol xs (i + run.length)) w ∨
      st'.Inside (iterAt c.vol xs (i + run.length)) w sum 1 → c.Scans sub a Q st') :
    c.Scans sub a Q st := by
  obtain ⟨hps, hlt⟩ := hrun
  cases run with
  | nil => exact h st (Or.inl hst)
  | cons p ps =>
      rw [List.length_cons] at hlt
      obtain ⟨-, -, hrest⟩ := Store.of_drop_slots hslot
      refine Store.Scans.opening hs hch hslot hps.1 (by omega) (by omega) hst fun st' hst' => ?_
      refine Store.Scans.pieces hs hch hrest hps.2 (by omega) hst' fun st'' hst'' => h st'' ?_
      rw [List.length_cons, Nat.add_comm ps.length 1, ← Nat.add_assoc]
      exact Or.inr hst''

/-- A short entry, with the pieces of its long name behind it. -/
theorem Store.Scans.short (hs : c.vol.Sound c.sectors) (hch : c.Chain a xs)
    (hslot : (c.slots xs).drop i = e :: rest) (h0 : e.first ≠ 0) (hE5 : e.first ≠ 0xE5)
    (hlfn : e.isLfn = false) (hst : st.Between (iterAt c.vol xs i) w ∨
      st.Inside (iterAt c.vol xs i) w (lfnChecksum e.name) 1)
    (h : ∀ st', st'.Between (iterAt c.vol xs (i + 1)) w →
      On (walkShort sub a c.vol.totalClusters st' e) (fun st₂ c' => c' = c ∧ c.Scans sub a Q st₂) c) :
    c.Scans sub a Q st := by
  have hit : st.it = iterAt c.vol xs i := hst.elim (·.it) (·.it)
  have hwalk : st.walk = w := hst.elim (·.walk) (·.walk)
  have hend : ∃ st', st'.Between (iterAt c.vol xs (i + 1)) w ∧
      walkEndRun a { st with it := iterAt c.vol xs (i + 1) } e = Pure.pure st' := by
    rw [walkEndRun]
    dsimp only
    rcases hst with hst | hst
    · rw [hst.idle, if_neg Bool.false_ne_true]
      refine ⟨_, ?_, rfl⟩
      exact ⟨rfl, hwalk, rfl⟩
    · rw [hst.building, if_pos rfl, hst.seq, hst.checksum, if_neg (by simp)]
      refine ⟨_, ?_, rfl⟩
      exact ⟨rfl, hwalk, rfl⟩
  obtain ⟨st', hst', heq⟩ := hend
  refine Store.Scans.round hs hch hslot hit h0 ?_
  rw [if_neg hE5, hlfn, if_neg Bool.false_ne_true, heq, pure_bind]
  apply On.bind
  refine (h st' hst').mono ?_
  rintro st₂ c' ⟨rfl, hscan⟩
  exact On.pure ⟨st₂, rfl, rfl, hscan⟩

end Scans

/-- A short entry that the checker accepts: the reserved attribute bits are clear and the
cluster number is 0 or one of the volume's. -/
structure DirEntry.Valid (total : Nat) (e : DirEntry) : Prop where
  attr : e.attr &&& 0xC0 = 0
  ne_one : e.cluster ≠ 1
  lt : e.cluster < total + 2

theorem DirEntry.Valid.inRange {e : DirEntry} {v : Vol} {n : Nat} (h : e.Valid v.totalClusters)
    (hs : v.Sound n) :
    ¬ (e.cluster = 1 ∨ (2 ≤ e.cluster ∧ u32 (v.totalClusters + 2) ≤ e.cluster)) := by
  have htotal := hs.total_le
  have hne := h.ne_one
  have hlt := h.lt
  rw [u32_of_lt (by omega)]
  omega

/-- The short entry of the item is valid, and a volume label has no clusters. -/
def Item.Valid (total : Nat) : Item → Prop
  | .hole _ => True
  | .dot e => e.Valid total
  | .entry _ e => e.Valid total ∧ (e.attr &&& 0x08 ≠ 0 → e.cluster = 0)

section Items

variable {sub : Nat → Fat32.Walk → Prog Drv Fat32.Walk} {st : WalkState}
  {Q : Fat32.Walk → Store → Prop} {a : Nat}
  {D : List Dir} {ch : Nat → List Nat} {it : Item} {rest : List DirEntry}

/-- `walk_dir` below the entry marks its chain and what lies below it, when that is still clear. -/
def Store.Descends (c : Store) (D : List Dir) (ch : Nat → List Nat)
    (sub : Nat → Fat32.Walk → Prog Drv Fat32.Walk) (b : Nat) : Prop :=
  ∀ w : Fat32.Walk, (∀ x ∈ ch b, w.bmp (x - 2) = true) →
    (∀ x, Covered D ch b x → w.bmp (x - 2) = false) →
    On (sub b w) (fun w' c' => c' = c ∧ w.Marks (fun x => x ∈ ch b ∨ Covered D ch b x) w') c

/-- `.` and `..` are passed over. -/
theorem On.walkShort_dot {e : DirEntry} {it : DirIter} (hs : c.vol.Sound c.sectors)
    (hst : st.Between it w) (hdot : e.isDot = true) (hv : e.Valid c.vol.totalClusters) :
    On (walkShort sub a c.vol.totalClusters st e)
      (fun st' c' => c' = c ∧ st'.Between it w) c := by
  rw [walkShort, if_neg (by simp [hv.attr])]
  by_cases hlab : e.attr &&& 0x08 = 0
  · rw [if_neg (by simp [hlab]), if_neg (hv.inRange hs), if_pos hdot]
    exact On.pure ⟨rfl, hst.it, hst.walk, hst.idle⟩
  · rw [if_pos (by simpa using hlab)]
    exact On.pure ⟨rfl, hst.it, hst.walk, hst.idle⟩

/-- The second part of the treatment of a short entry: only the tables change. -/
theorem On.walkShort_marks {run : List DirEntry} {e : DirEntry} {it : DirIter}
    (hs : c.vol.Sound c.sectors) (hst : st.Between it w) (hdot : e.isDot = false)
    (hv : (Item.entry run e).Valid c.vol.totalClusters)
    (hch : e.cluster ≠ 0 → c.Chain e.cluster (ch e.cluster))
    (hown : e.cluster ≠ 0 → ∀ x, Covered D ch e.cluster x → x ∉ ch e.cluster ∧ 2 ≤ x)
    (hclear : ∀ x, (Item.entry run e).Covers D ch x → w.bmp (x - 2) = false)
    (hsub : e.isDir = true → e.cluster ≠ 0 → c.Descends D ch sub e.cluster) :
    On (walkShort sub a c.vol.totalClusters st e) (fun st' c' => c' = c ∧
      ∃ w', st'.Between it w' ∧ w.Marks ((Item.entry run e).Covers D ch) w') c := by
  obtain ⟨hentry, hlabel⟩ := hv
  have hnone : e.cluster = 0 → w.Marks ((Item.entry run e).Covers D ch) w := fun h0 =>
    Walk.Marks.refl fun x hx => hx.1 h0
  rw [walkShort]
  rw [if_neg (by simp [hentry.attr])]
  by_cases hlab : e.attr &&& 0x08 = 0
  · rw [if_neg (by simp [hlab]), if_neg (hentry.inRange hs), hdot, if_neg Bool.false_ne_true]
    by_cases h0 : e.cluster = 0
    · have h2 : ¬ 2 ≤ e.cluster := by omega
      rw [if_neg h2, pure_bind, decide_eq_false h2, Bool.and_false]
      exact On.pure ⟨rfl, _, ⟨hst.it, rfl, hst.idle⟩, hst.walk ▸ hnone h0⟩
    · have h2 : 2 ≤ e.cluster := by
        have hne := hentry.ne_one
        omega
      rw [if_pos h2, hst.walk]
      dsimp only
      apply On.bind
      refine (On.fsckMarkChain_marks hs (hch h0)
        (Or.inr fun x hx => hclear x ⟨h0, Or.inl hx⟩)).mono ?_
      rintro w₁ c' ⟨rfl, hw₁⟩
      rw [hw₁.stats, if_neg (Nat.lt_irrefl _), pure_bind]
      cases hdir : e.isDir with
      | false =>
          rw [Bool.false_and]
          refine On.pure ⟨rfl, w₁, ⟨hst.it, rfl, hst.idle⟩, hw₁.congr fun x => ?_⟩
          simp [Item.Covers, h0, hdir]
      | true =>
          rw [Bool.true_and, decide_eq_true h2, if_pos rfl]
          apply On.bind
          refine (hsub hdir h0 w₁ (fun x hx => ?_) fun x hx => ?_).mono ?_
          · rw [hw₁.bmp, Nat.sub_add_cancel ((hch h0).inRange hx).1]
            exact Or.inr hx
          · obtain ⟨hnot, h2⟩ := hown h0 x hx
            exact hw₁.clear h2 hnot (hclear x ⟨h0, Or.inr ⟨hdir, hx⟩⟩)
          · rintro w₂ c'' ⟨rfl, hw₂⟩
            refine On.pure ⟨rfl, w₂, ⟨hst.it, rfl, hst.idle⟩, (hw₁.trans hw₂).congr fun x => ?_⟩
            simp [Item.Covers, h0, hdir]
  · rw [if_pos (by simpa using hlab)]
    exact On.pure ⟨rfl, w, ⟨hst.it, hst.walk, hst.idle⟩, hnone (hlabel hlab)⟩

/-- One item: the scan goes on behind it, with its clusters marked. -/
theorem Store.Scans.item (hs : c.vol.Sound c.sectors) (hdir : c.Chain a xs)
    (hslot : (c.slots xs).drop i = it.slots ++ rest) (hok : it.Ok)
    (hv : it.Valid c.vol.totalClusters)
    (hch : ∀ b, it.target = some b → c.Chain b (ch b))
    (hown : ∀ b x, it.target = some b → Covered D ch b x → x ∉ ch b ∧ 2 ≤ x)
    (hclear : ∀ x, it.Covers D ch x → w.bmp (x - 2) = false)
    (hsub : ∀ run e, it = .entry run e → e.isDir = true → e.cluster ≠ 0 →
      c.Descends D ch sub e.cluster)
    (hst : st.Between (iterAt c.vol xs i) w)
    (h : ∀ st' w', st'.Between (iterAt c.vol xs (i + it.slots.length)) w' →
      w.Marks (it.Covers D ch) w' → c.Scans sub a Q st') : c.Scans sub a Q st := by
  cases it with
  | hole e =>
      refine Store.Scans.hole hs hdir hslot hok hst fun st' hst' => h st' w hst' ?_
      exact Walk.Marks.refl fun x hx => hx
  | dot e =>
      obtain ⟨hdot, hlfn⟩ := hok
      have hfirst : e.first = 0x2E := DirEntry.first_of_isDot hdot
      refine Store.Scans.short hs hdir hslot (by rw [hfirst]; decide) (by rw [hfirst]; decide) hlfn
        (Or.inl hst) fun st' hst' => ?_
      refine (On.walkShort_dot hs hst' hdot hv).mono ?_
      rintro st₂ c' ⟨rfl, hst₂⟩
      exact ⟨rfl, h st₂ w hst₂ (Walk.Marks.refl fun x hx => hx)⟩
  | entry run e =>
      obtain ⟨hrun, h0, hE5, hlfn, hdot⟩ := hok
      have hslots : (Item.entry run e).slots = run ++ [e] := rfl
      rw [hslots, List.append_assoc] at hslot
      rw [hslots, List.length_append, List.length_singleton, ← Nat.add_assoc] at h
      have hbehind : (c.slots xs).drop (i + run.length) = e :: rest := by
        rw [← List.drop_drop, hslot, List.drop_left]
        rfl
      refine Store.Scans.run hs hdir hslot hrun hst fun st' hst' => ?_
      refine Store.Scans.short hs hdir hbehind h0 hE5 hlfn hst' fun st₂ hst₂ => ?_
      refine (On.walkShort_marks hs hst₂ hdot hv (fun hne => hch _ (Item.target_entry hne))
        (fun hne x hx => hown _ x (Item.target_entry hne) hx) hclear (hsub run e rfl)).mono ?_
      rintro st₃ c' ⟨rfl, w', hst₃, hw'⟩
      exact ⟨rfl, h st₃ w' hst₃ hw'⟩

/-- The items of a directory, one after the other. -/
theorem Store.Scans.items {items : List Item} (hs : c.vol.Sound c.sectors) (hdir : c.Chain a xs)
    (hslot : (c.slots xs).drop i = items.flatMap Item.slots ++ rest)
    (hok : ∀ it ∈ items, it.Ok) (hv : ∀ it ∈ items, it.Valid c.vol.totalClusters)
    (hch : ∀ it ∈ items, ∀ b, it.target = some b → c.Chain b (ch b))
    (hown : ∀ it ∈ items, ∀ b x, it.target = some b → Covered D ch b x → x ∉ ch b ∧ 2 ≤ x)
    (hclear : ∀ it ∈ items, ∀ x, it.Covers D ch x → 2 ≤ x ∧ w.bmp (x - 2) = false)
    (hpair : items.Pairwise fun it it' => ∀ x, it.Covers D ch x → ¬ it'.Covers D ch x)
    (hsub : ∀ run e, Item.entry run e ∈ items → e.isDir = true → e.cluster ≠ 0 →
      c.Descends D ch sub e.cluster)
    (hst : st.Between (iterAt c.vol xs i) w)
    (h : ∀ st' w', st'.Between (iterAt c.vol xs (i + (items.flatMap Item.slots).length)) w' →
      w.Marks (fun x => ∃ it ∈ items, it.Covers D ch x) w' → c.Scans sub a Q st') :
    c.Scans sub a Q st := by
  induction items generalizing i st w with
  | nil => exact h st w hst (Walk.Marks.refl (by simp))
  | cons it its ih =>
      rw [List.flatMap_cons, List.append_assoc] at hslot
      rw [List.flatMap_cons, List.length_append, ← Nat.add_assoc] at h
      obtain ⟨hdis, hpair⟩ := List.pairwise_cons.mp hpair
      have hmem := fun {x : Item} (hx : x ∈ its) => List.mem_cons_of_mem it hx
      refine Store.Scans.item hs hdir hslot (hok it List.mem_cons_self) (hv it List.mem_cons_self)
        (hch it List.mem_cons_self) (hown it List.mem_cons_self)
        (fun x hx => (hclear it List.mem_cons_self x hx).2)
        (fun run e heq => hsub run e (heq ▸ List.mem_cons_self)) hst fun st' w₁ hst' hw₁ => ?_
      have hbehind : (c.slots xs).drop (i + it.slots.length) = its.flatMap Item.slots ++ rest := by
        rw [← List.drop_drop, hslot, List.drop_left]
      refine ih hbehind (fun x hx => hok x (hmem hx)) (fun x hx => hv x (hmem hx))
        (fun x hx => hch x (hmem hx)) (fun x hx => hown x (hmem hx)) (fun y hy x hx => ?_) hpair
        (fun run e he => hsub run e (hmem he)) hst' fun st'' w₂ hst'' hw₂ => ?_
      · obtain ⟨h2, hbit⟩ := hclear y (hmem hy) x hx
        exact ⟨h2, hw₁.clear h2 (fun hcov => hdis y hy x hcov hx) hbit⟩
      · exact h st'' w₂ hst'' ((hw₁.trans hw₂).congr fun x => by simp)

end Items

/-- The sector behind cluster `k` begins with a zero byte, or the device ends there.  This is
where the iterator of the checker reads on behind a full directory. -/
def Store.EndsBehind (c : Store) (k : Nat) : Prop :=
  if c.vol.secLba k c.vol.secPerClus < c.sectors then
    (c.disk (c.vol.secLba k c.vol.secPerClus)).byte 0 = 0
  else c.sectors < 268435456

instance {k : Nat} : Decidable (c.EndsBehind k) := inferInstanceAs (Decidable (ite _ _ _))

/-- `n` levels of directories from `a` on hold everything that lies below `a`, and each of them
ends for the checker where it ends. -/
def Store.Shallow (c : Store) (ch : Nat → List Nat) (D : List Dir) : Nat → Nat → Prop
  | 0, a => ∀ b, ¬ Child D a b
  | n + 1, a => ∀ d ∈ D, d.start = a →
      (d.listing.tail = [] → c.EndsBehind ((ch a).getLastD 0)) ∧
        ∀ run e, Item.entry run e ∈ d.listing.items → e.isDir = true → e.cluster ≠ 0 →
          c.Shallow ch D n e.cluster

section Directories

variable {sub : Nat → Fat32.Walk → Prog Drv Fat32.Walk} {st : WalkState}
  {Q : Fat32.Walk → Store → Prop} {a : Nat}
  {D : List Dir} {ch : Nat → List Nat} {v : View}

/-- The end of a directory: an unused slot, or what lies behind its last cluster. -/
theorem Store.Scans.last (hs : c.vol.Sound c.sectors) (hdir : c.Chain a xs) (hne : xs ≠ [])
    {tail : List DirEntry} (hslot : (c.slots xs).drop i = tail) (hzero : ZeroTail tail)
    (hend : tail = [] → c.EndsBehind (xs.getLastD 0))
    (hst : st.Between (iterAt c.vol xs i) w) (h : Q w c) : c.Scans sub a Q st := by
  apply On.loop
  cases tail with
  | cons z zs =>
      obtain ⟨hlt, rfl, -⟩ := Store.of_drop_slots hslot
      rw [walkStep, hst.it]
      apply On.fsckDirIterNext hs hdir hlt
      dsimp only
      rw [if_pos hzero.1, hst.walk]
      exact On.pure h
  | nil =>
      have hlen := List.drop_eq_nil_iff.mp hslot
      rw [Store.length_slots] at hlen
      have hfull : ¬ i < xs.length * c.vol.perCluster := by omega
      have hle := hdir.behind_le hne hs
      have hbehind := hend rfl
      unfold Store.EndsBehind at hbehind
      rw [walkStep, hst.it, iterAt, if_neg hfull, fsckDirIterNext, bind_assoc]
      apply On.getStore
      rw [bind_assoc]
      by_cases hlba : c.vol.secLba (xs.getLastD 0) c.vol.secPerClus < c.sectors
      · rw [if_pos hlba] at hbehind
        apply On.secRead hlba
        rw [if_pos rfl, bind_assoc]
        apply OnAt.cached hlba
        rw [if_pos (by simp), pure_bind]
        dsimp only
        have hfirst : DirEntry.first ((c.disk (c.vol.secLba (xs.getLastD 0) c.vol.secPerClus)).slice
            0 32) = 0 := by
          rw [DirEntry.first, Block.byte_slice _ _ (by omega)]
          exact hbehind
        rw [if_pos hfirst, hst.walk]
        exact OnAt.of_on (On.pure h)
      · rw [if_neg hlba] at hbehind
        have heq : c.vol.secLba (xs.getLastD 0) c.vol.secPerClus = c.sectors := by omega
        have hno : c.sectors ≠ 0xFFFFFFFF := by omega
        rw [heq]
        refine On.secRead_fail (by rw [Nat.mod_eq_of_lt hbehind]) hno ?_
        rw [if_neg Bool.false_ne_true, pure_bind]
        dsimp only
        rw [hst.walk]
        exact On.pure h

/-- `walk_dir` over a part of the tree whose clusters are clear marks them all and changes
nothing else. -/
theorem On.walkDir_marks (hc : c.Shows v) (h : v.Layout ch D [])
    (hv : ∀ d ∈ D, ∀ it ∈ d.listing.items, it.Valid c.vol.totalClusters) {n : Nat} {d : Dir}
    (hd : d ∈ D) (hdeep : c.Shallow ch D n d.start)
    (hbits : n = 0 → ∀ x ∈ ch d.start, w.bmp (x - 2) = true)
    (hclear : ∀ x, Covered D ch d.start x → w.bmp (x - 2) = false) :
    On (walkDir n d.start w)
      (fun w' c' => c' = c ∧ w.Marks (fun x => x ∈ ch d.start ∨ Covered D ch d.start x) w') c := by
  have hs := hc.sound
  have hchain : ∀ {b}, b ∈ starts v.vol D → c.Chain b (ch b) := fun {b} hb =>
    hc.chain (h.chains.chain b (List.mem_append_left _ hb)).1
  induction n generalizing d w with
  | zero =>
      rw [walkDir]
      refine On.pure ⟨rfl, fun i => ?_, rfl, rfl⟩
      constructor
      · exact Or.inl
      · rintro (hset | hx | ⟨b, ⟨m, hr, hb⟩, -⟩)
        · exact hset
        · exact hbits rfl _ hx
        · rcases hr.cases_head with rfl | ⟨d', hd', hstart, run, e, he, -, h0, -⟩
          · exact absurd hb (hdeep b)
          · exact absurd ⟨d', hd', hstart, mem_targets.mpr ⟨run, e, he, h0, rfl⟩⟩ (hdeep e.cluster)
  | succ n ih =>
      have hstart : d.start ∈ starts v.vol D := h.tree.start_mem hd
      have hdir := hchain hstart
      have hne : ch d.start ≠ [] := (h.chains.chain _ (List.mem_append_left _ hstart)).2
      have hreach := (h.tree.reach d hd).reflTransGen
      obtain ⟨hend, hsubs⟩ := hdeep d hd rfl
      have h2 : ∀ {x}, Covered D ch d.start x → 2 ≤ x := by
        rintro x ⟨b, ⟨m, -, hb⟩, hx⟩
        exact ((hchain (View.Layout.mem_starts_of_child hb)).inRange hx).1
      rw [walkDir]
      apply On.getStore
      have hrange := hdir.inRange (h.chains.mem_self (List.mem_append_left _ hstart))
      have hge := hrange.1
      rw [if_neg (by omega)]
      apply On.bind
      refine (On.fsckMarkChain_marks hs hdir (Or.inl rfl)).mono ?_
      rintro w₁ c' ⟨rfl, hw₁⟩
      rw [hdir.fsckDirIterInit_eq hne hs]
      have hslots : c'.slots (ch d.start) =
          d.listing.items.flatMap Item.slots ++ d.listing.tail := by
        rw [hc.slots fun x hx => hc.vol ▸ hdir.inRange hx, h.tree.slots d hd]
        rfl
      have htarget : ∀ it ∈ d.listing.items, ∀ b, it.target = some b → Child D d.start b :=
        fun it hit b hb => ⟨d, hd, rfl, List.mem_filterMap.mpr ⟨it, hit, hb⟩⟩
      refine Store.Scans.items (D := D) (i := 0) (w := w₁) hs hdir (by rw [List.drop_zero, hslots])
        d.listing.ok (hv d hd)
        (fun it hit b hb => hchain (View.Layout.mem_starts_of_child (htarget it hit b hb)))
        (fun it hit b x hb hx => ?_) (fun it hit x hx => ?_) (h.pairwise_covers hd)
        (fun run e he hdir' h0 => ?_) ⟨rfl, rfl, rfl⟩ fun st' w₂ hst' hw₂ => ?_
      · have hb' := View.Layout.mem_starts_of_child (v := v) (htarget it hit b hb)
        obtain ⟨y, ⟨m, -, hy⟩, hxy⟩ := id hx
        exact ⟨h.not_mem_of_covered hb' (hreach.tail (htarget it hit b hb)) hx,
          ((hchain (View.Layout.mem_starts_of_child hy)).inRange hxy).1⟩
      · have hcov := (h.tree.covered_iff hd).mpr ⟨it, hit, hx⟩
        exact ⟨h2 hcov, hw₁.clear (h2 hcov) (h.not_mem_of_covered hstart hreach hcov)
          (hclear x hcov)⟩
      · intro w₃ hset hclear₃
        obtain ⟨d', hd', heq⟩ := h.tree.closed d hd run e he hdir' h0
        rw [← heq] at hset hclear₃ ⊢
        exact ih hd' (heq ▸ hsubs run e he hdir' h0) (fun _ => hset) hclear₃
      · rw [Nat.zero_add] at hst'
        refine Store.Scans.last hs hdir hne (by rw [hslots, List.drop_left]) d.listing.zero hend
          hst' ⟨rfl, ?_⟩
        · refine (hw₁.trans hw₂).congr fun x => ?_
          rw [h.tree.covered_iff hd]

end Directories

end Chimaera.Fat32
