/-
Where the repairs of the checker write.  Each finds its entry by stepping back
from an iterator that is already past it, one entry or one sector; behind the
last slot of a cluster that leads to the sector before the next cluster.
-/
import Chimaera.Fat32.Iterators

namespace Chimaera.Fat32

open Prog

/-- `n` calls of `fsck_dir_iter_next`. -/
def fsckAdvance : Nat → DirIter → Prog Drv (Option DirIter)
  | 0, it => pure (some it)
  | n + 1, it => do
      match ← fsckDirIterNext it with
      | none => pure none
      | some (_, it') => fsckAdvance n it'

/-- `fsck_delete_entry` after `i + 1` calls of `fsck_dir_iter_next`. -/
def fsckDeleteAt (cluster i : Nat) : Prog Drv Bool := do
  let c ← getStore
  match ← fsckAdvance (i + 1) (fsckDirIterInit c.vol cluster) with
  | none => pure false
  | some it => fsckDeleteEntry it

/-- Where a repair of slot `i` writes: behind the last slot of a cluster, one
sector before the next cluster of the chain. -/
def repairPlace (v : Vol) (xs : List Nat) (i : Nat) : Nat × Nat :=
  if (i + 1) % v.perCluster = 0 ∧ i + 1 < xs.length * v.perCluster then
    (v.secLba (xs.getD ((i + 1) / v.perCluster) 0) 0 - 1, 480)
  else slotPlace v xs i

/-- The slot is not the last one of its cluster, or of the directory, or the next
cluster of the chain lies right behind it on the disk. -/
def Hits (v : Vol) (xs : List Nat) (i : Nat) : Prop :=
  (i + 1) % v.perCluster = 0 → i + 1 < xs.length * v.perCluster →
    xs.getD ((i + 1) / v.perCluster) 0 = xs.getD (i / v.perCluster) 0 + 1

/-- The places of the cluster and size fields of the entry at `p`. -/
def entryFields (p : Nat × Nat) : Set (Nat × Nat) :=
  {q | q.1 = p.1 ∧ p.2 + 20 ≤ q.2 ∧ q.2 < p.2 + 32 ∧ ¬ (p.2 + 22 ≤ q.2 ∧ q.2 < p.2 + 26)}

/-- Zero the cluster and size fields of the entry at a place. -/
def Store.zeroFields (c : Store) (p : Nat × Nat) : Store :=
  c.put p.1 ((((c.disk p.1).patch (p.2 + 20) [0, 0]).patch (p.2 + 26) [0, 0]).patch
    (p.2 + 28) [0, 0, 0, 0])

section Places

variable {c : Store} {a i : Nat} {xs : List Nat} {p : Nat × Nat}

theorem repairPlace_off_lt (v : Vol) (xs : List Nat) (i : Nat) :
    (repairPlace v xs i).2 + 32 ≤ 512 := by
  rw [repairPlace]
  split
  · simp
  · exact slotPlace_off_lt v xs i

theorem Vol.Sound.dataLba_pos {v : Vol} {n : Nat} (h : v.Sound n) : 1 ≤ v.dataLba := by
  have hf : 1 * v.fatSize ≤ v.numFats * v.fatSize := Nat.mul_le_mul_right _ h.fats
  have := h.fat
  have := h.data
  omega

theorem Store.Chain.repairPlace_lt (h : c.Chain a xs) (hs : c.vol.Sound c.sectors)
    (hi : i < xs.length * c.vol.perCluster) : (repairPlace c.vol xs i).1 < c.sectors := by
  rw [repairPlace]
  split
  · next hb =>
    have := hs.secLba_lt (h.inRange (getD_mem hb.2)) hs.spc_pos
    exact lt_of_le_of_lt (Nat.sub_le _ _) this
  · exact h.slotPlace_lt hs hi

/-- The sector before a sector of a cluster. -/
theorem Vol.Sound.sub32_secLba {v : Vol} {n k j : Nat} (h : v.Sound n) (hk : v.InRange k)
    (hj : j ≤ v.secPerClus) : sub32 (v.secLba k j) 1 = v.secLba k j - 1 := by
  have hd := h.dataLba_pos
  have hspc := h.spc_pos
  have hlt := h.secLba_lt (j := v.secPerClus - 1) hk (by omega)
  have h28 := h.lba28
  unfold Vol.secLba at hlt ⊢
  exact sub32_of_le (by omega) (by omega)

/-- The step back from the iterator behind slot `i`. -/
theorem Store.Chain.back_iterAt (h : c.Chain a xs) (hs : c.vol.Sound c.sectors)
    (hi : i < xs.length * c.vol.perCluster) :
    (iterAt c.vol xs (i + 1)).back = repairPlace c.vol xs i := by
  have hk := h.inRange (getD_mem hi)
  have hlt := Nat.mod_lt i (perCluster_pos hs)
  have h16 : i % c.vol.perCluster % 16 = i % 16 := index_mod16
  have hjlt : i % c.vol.perCluster / 16 < c.vol.secPerClus := index_lt hs.spc_pos
  by_cases hwrap : i % c.vol.perCluster + 1 = c.vol.perCluster
  · obtain ⟨hd, hm⟩ := index_wrap (s := c.vol.secPerClus) hwrap
    have hdiv : i % c.vol.perCluster / 16 + 1 = c.vol.secPerClus := by
      unfold Vol.perCluster at *
      omega
    have hoff : i % 16 * 32 = 480 := by
      unfold Vol.perCluster at *
      omega
    by_cases hnext : i + 1 < xs.length * c.vol.perCluster
    · have hmod : (i + 1) % c.vol.perCluster = 0 := hm
      have hzero : (i + 1) % 16 * 32 = 0 := by omega
      rw [iterAt, if_pos hnext, repairPlace, if_pos ⟨hmod, hnext⟩]
      simp only [DirIter.back, posAt, hmod, Nat.zero_div, hzero, if_true]
      rw [hs.sub32_secLba (h.inRange (getD_mem hnext)) (Nat.zero_le _)]
    · have hlast : xs.getD (i / c.vol.perCluster) 0 = xs.getLastD 0 := getD_last (by omega)
      rw [iterAt, if_neg hnext, repairPlace, if_neg fun hb => hnext hb.2]
      simp only [DirIter.back, if_true, slotPlace, posAt, hoff, hlast]
      rw [hs.sub32_secLba (hlast ▸ hk) (Nat.le_refl _), ← hdiv]
      rfl
  · have hsame : i % (16 * c.vol.secPerClus) + 1 < 16 * c.vol.secPerClus := by
      unfold Vol.perCluster at hlt hwrap
      omega
    obtain ⟨hd, hm⟩ := index_succ hsame
    have hd' : (i + 1) / c.vol.perCluster = i / c.vol.perCluster := hd
    have hm' : (i + 1) % c.vol.perCluster = i % c.vol.perCluster + 1 := hm
    have hnext : i + 1 < xs.length * c.vol.perCluster := by
      rw [← Nat.div_lt_iff_lt_mul (perCluster_pos hs), hd']
      exact div_lt_length hi
    rw [iterAt, if_pos hnext, repairPlace, if_neg fun hb => by omega]
    by_cases hoff : (i + 1) % 16 = 0
    · have hrow : (i % c.vol.perCluster + 1) / 16 = i % c.vol.perCluster / 16 + 1 := by omega
      have h480 : i % 16 * 32 = 480 := by omega
      simp only [DirIter.back, posAt, slotPlace, hd', hm', hrow, hoff, Nat.zero_mul, if_true, h480]
      rw [hs.sub32_secLba hk (by omega)]
      rfl
    · have hrow : (i % c.vol.perCluster + 1) / 16 = i % c.vol.perCluster / 16 := by omega
      have hne : ¬ (i + 1) % 16 * 32 = 0 := by omega
      have hback : (i + 1) % 16 * 32 - 32 = i % 16 * 32 := by omega
      simp only [DirIter.back, posAt, slotPlace, hd', hm', hrow, hne, if_false, hback]

theorem Store.Chain.repairPlace_of_hits (h : c.Chain a xs) (hs : c.vol.Sound c.sectors)
    (hhits : Hits c.vol xs i) : repairPlace c.vol xs i = slotPlace c.vol xs i := by
  rw [repairPlace]
  split
  · next hb =>
    have hwrap : i % c.vol.perCluster + 1 = c.vol.perCluster := by
      by_contra hne
      have hlt := Nat.mod_lt i (perCluster_pos hs)
      unfold Vol.perCluster at hlt hb hne
      have := (index_succ (s := c.vol.secPerClus) (i := i) (by omega)).2
      omega
    have h16 : i % c.vol.perCluster % 16 = i % 16 := index_mod16
    have hdiv : i % c.vol.perCluster / 16 + 1 = c.vol.secPerClus := by
      unfold Vol.perCluster at *
      omega
    have hoff : i % 16 * 32 = 480 := by
      unfold Vol.perCluster at *
      omega
    have hk := h.inRange (getD_mem (show i < xs.length * c.vol.perCluster by omega))
    have hrow : xs.getD (i / c.vol.perCluster) 0 + 1 - 2 =
        xs.getD (i / c.vol.perCluster) 0 - 2 + 1 := by
      have := hk.1
      omega
    rw [hhits hb.1 hb.2]
    simp only [slotPlace, posAt, hoff, Vol.secLba, hrow, Nat.succ_mul, Prod.mk.injEq, and_true]
    omega
  · rfl

theorem overwritten_zeroFields (hp : p.2 + 32 ≤ 512) :
    Overwritten 0 (entryFields p) c.disk (c.zeroFields p).disk := by
  have h₁ := overwritten_update (d := c.disk) (l := p.1) (x := 0) (k := 2)
    (show p.2 + 20 + 2 ≤ 512 by omega)
  have h₂ := overwritten_update (d := Function.update c.disk p.1 ((c.disk p.1).patch (p.2 + 20)
    [0, 0])) (l := p.1) (x := 0) (k := 2) (show p.2 + 26 + 2 ≤ 512 by omega)
  have h₃ := overwritten_update (d := Function.update c.disk p.1 (((c.disk p.1).patch (p.2 + 20)
    [0, 0]).patch (p.2 + 26) [0, 0])) (l := p.1) (x := 0) (k := 4)
    (show p.2 + 28 + 4 ≤ 512 by omega)
  simp only [Function.update_self, Function.update_idem] at h₂ h₃
  have h := (h₁.union h₂).union h₃
  have hset : {q : Nat × Nat | q.1 = p.1 ∧ p.2 + 20 ≤ q.2 ∧ q.2 < p.2 + 20 + 2} ∪
      {q | q.1 = p.1 ∧ p.2 + 26 ≤ q.2 ∧ q.2 < p.2 + 26 + 2} ∪
      {q | q.1 = p.1 ∧ p.2 + 28 ≤ q.2 ∧ q.2 < p.2 + 28 + 4} = entryFields p := by
    ext q
    simp only [entryFields, Set.mem_union, Set.mem_ofPred_eq]
    omega
  rwa [hset] at h

end Places

section Rules

variable {β : Type} {R : β → Store → Prop} {c : Store} {a i n : Nat} {xs : List Nat}

theorem On.fsckAdvance (hs : c.vol.Sound c.sectors) (hch : c.Chain a xs)
    (hi : i + n ≤ xs.length * c.vol.perCluster) {f : Option DirIter → Prog Drv β}
    (h : On (f (some (iterAt c.vol xs (i + n)))) R c) :
    On (fsckAdvance n (iterAt c.vol xs i) >>= f) R c := by
  induction n generalizing i with
  | zero => exact h
  | succ n ih =>
      rw [Fat32.fsckAdvance, bind_assoc]
      apply On.fsckDirIterNext hs hch (by omega)
      refine ih (by omega) ?_
      rwa [Nat.add_right_comm, Nat.add_assoc]

theorem On.fsckDeleteEntry {it : DirIter} (hlt : it.back.1 < c.sectors) :
    On (fsckDeleteEntry it) (fun ok c' => ok = true ∧ c' = c.mark it.back) c := by
  rw [Fat32.fsckDeleteEntry]
  apply On.secRead hlt
  rw [if_pos rfl]
  exact OnAt.update_flush_last hlt ⟨rfl, rfl⟩

/-- `fsck_delete_entry` behind slot `i`. -/
theorem Store.Chain.fsckDeleteAt (hch : c.Chain a xs) (hne : xs ≠ []) (hs : c.vol.Sound c.sectors)
    (hi : i < xs.length * c.vol.perCluster) : On (fsckDeleteAt a i)
      (fun ok c' => ok = true ∧ c' = c.mark (repairPlace c.vol xs i)) c := by
  rw [Fat32.fsckDeleteAt]
  apply On.getStore
  rw [hch.fsckDirIterInit_eq hne hs]
  refine On.fsckAdvance hs hch (by omega) ?_
  rw [Nat.zero_add, ← hch.back_iterAt hs hi]
  refine On.fsckDeleteEntry ?_
  rw [hch.back_iterAt hs hi]
  exact hch.repairPlace_lt hs hi

theorem Store.Chain.zeroEntryAt (hch : c.Chain a xs) (hs : c.vol.Sound c.sectors)
    (hi : i + n < xs.length * c.vol.perCluster) : On (zeroEntryAt n (iterAt c.vol xs i))
      (fun ok c' => ok = true ∧ c' = c.zeroFields (repairPlace c.vol xs (i + n))) c := by
  induction n generalizing i with
  | zero =>
      have hback := hch.back_iterAt hs hi
      have hlt : (iterAt c.vol xs (i + 1)).back.1 < c.sectors := by
        rw [hback]
        exact hch.repairPlace_lt hs hi
      rw [Fat32.zeroEntryAt, ← hback]
      apply On.fsckDirIterNext hs hch hi
      apply On.secRead hlt
      rw [if_pos rfl]
      exact OnAt.update_flush_last hlt ⟨rfl, rfl⟩
  | succ n ih =>
      rw [Fat32.zeroEntryAt]
      apply On.fsckDirIterNext hs hch (by omega)
      have hrest := ih (i := i + 1) (by omega)
      rwa [Nat.add_right_comm, Nat.add_assoc] at hrest

/-- `fsck_zero_entry_cluster` on slot `i`. -/
theorem Store.Chain.fsckZeroEntryCluster (hch : c.Chain a xs) (hne : xs ≠ [])
    (hs : c.vol.Sound c.sectors) (hi : i < xs.length * c.vol.perCluster) :
    On (fsckZeroEntryCluster a i)
      (fun ok c' => ok = true ∧ c' = c.zeroFields (repairPlace c.vol xs i)) c := by
  rw [Fat32.fsckZeroEntryCluster]
  apply On.getStore
  rw [hch.fsckDirIterInit_eq hne hs]
  have h := hch.zeroEntryAt hs (i := 0) (n := i) (by omega)
  rwa [Nat.zero_add] at h

end Rules

section Ranges

variable {s : Drv} {a i j first last : Nat} {xs : List Nat} {p : Nat × Nat}

theorem Store.Chain.runs_next (hch : s.toStore.Chain a xs) (hs : s.vol.Sound s.sectors)
    (hready : s.Ready) (hi : i < xs.length * s.vol.perCluster) :
    ∃ s' : Drv, s'.Ready ∧ s'.toStore = s.toStore ∧ (fsckDirIterNext (iterAt s.vol xs i)).Runs s
      (some (s.toStore.slot xs i, iterAt s.vol xs (i + 1))) s' := by
  have hnext := On.fsckDirIterNext (f := fun r => pure r)
    (R := fun r c' => r = some (s.toStore.slot xs i, iterAt s.vol xs (i + 1)) ∧ c' = s.toStore)
    hs hch hi (On.pure ⟨rfl, rfl⟩)
  rw [bind_pure] at hnext
  exact hnext.runs hready rfl

/-- A round before the range. -/
theorem Store.Chain.deleteRange_skip (hch : s.toStore.Chain a xs) (hs : s.vol.Sound s.sectors)
    (hready : s.Ready) (hi : i < xs.length * s.vol.perCluster) (hlt : i < first) :
    ∃ s' : Drv, s'.Ready ∧ s'.toStore = s.toStore ∧ ∀ m r t,
      (deleteRange first (m + 1) i (iterAt s.vol xs i)).Runs s r t ↔
        (deleteRange first m (i + 1) (iterAt s.vol xs (i + 1))).Runs s' r t := by
  obtain ⟨s', hready', hstore, hrun⟩ := hch.runs_next hs hready hi
  refine ⟨s', hready', hstore, fun m r t => ?_⟩
  rw [deleteRange, Runs.bind_iff hrun]
  dsimp only
  rw [if_pos hlt]

/-- A round in the range. -/
theorem Store.Chain.deleteRange_mark (hch : s.toStore.Chain a xs) (hs : s.vol.Sound s.sectors)
    (hready : s.Ready) (hi : i < xs.length * s.vol.perCluster) (hle : first ≤ i) :
    ∃ s' : Drv, s'.Ready ∧ s'.toStore = s.toStore.mark (repairPlace s.vol xs i) ∧ ∀ m r t,
      (deleteRange first (m + 1) i (iterAt s.vol xs i)).Runs s r t ↔
        (deleteRange first m (i + 1) (iterAt s.vol xs (i + 1))).Runs s' r t := by
  obtain ⟨s₁, hready₁, hstore₁, hrun₁⟩ := hch.runs_next hs hready hi
  have hback := hch.back_iterAt hs hi
  have hlt : (iterAt s.vol xs (i + 1)).back.1 < s.toStore.sectors := by
    rw [hback]
    exact hch.repairPlace_lt hs hi
  have hdel := On.fsckDeleteEntry hlt
  rw [hback] at hdel
  obtain ⟨s₂, hready₂, hstore₂, hrun₂⟩ := hdel.runs hready₁ hstore₁
  refine ⟨s₂, hready₂, hstore₂, fun m r t => ?_⟩
  rw [deleteRange, Runs.bind_iff hrun₁]
  dsimp only
  rw [if_neg (by omega), Runs.bind_iff hrun₂]

/-- The first `n` rounds, while no mark falls on a FAT. -/
theorem Store.Chain.deleteRange_reaches (hch : s.toStore.Chain a xs) (hs : s.vol.Sound s.sectors)
    (hready : s.Ready) {n : Nat} (hn : n ≤ xs.length * s.vol.perCluster)
    (hkeep : ∀ i, first ≤ i → i < n → s.vol.dataLba ≤ (repairPlace s.vol xs i).1 ∨
      byteAt s.disk (repairPlace s.vol xs i) = 0xE5) :
    ∃ s' : Drv, s'.Ready ∧ Store.SameVars s.toStore s'.toStore ∧ s'.toStore.Chain a xs ∧
      Overwritten 0xE5 (repairPlace s.vol xs '' {i | first ≤ i ∧ i < n}) s.disk s'.disk ∧
      ∀ m r t, (deleteRange first (n + m) 0 (iterAt s.vol xs 0)).Runs s r t ↔
        (deleteRange first m n (iterAt s.vol xs n)).Runs s' r t := by
  induction n with
  | zero =>
      have hnone : {i | first ≤ i ∧ i < 0} = (∅ : Set Nat) := by
        ext i
        simp
      refine ⟨s, hready, Store.SameVars.refl _, hch, ?_, fun m r t => ?_⟩
      · rw [hnone, Set.image_empty]
        exact Overwritten.refl
      · rw [Nat.zero_add]
  | succ n ih =>
      obtain ⟨s', hready', hsame, hch', hover, hiff⟩ :=
        ih (by omega) fun i hle hlt => hkeep i hle (by omega)
      have hs' : s'.vol.Sound s'.sectors := by
        rw [hsame.vol, hsame.sectors]
        exact hs
      have hn' : n < xs.length * s'.vol.perCluster := by
        rw [hsame.vol]
        omega
      by_cases hlt : n < first
      · obtain ⟨s'', hready'', hstore, hround⟩ := hch'.deleteRange_skip hs' hready' hn' hlt
        have hnone : {i | first ≤ i ∧ i < n + 1} = {i | first ≤ i ∧ i < n} := by
          ext i
          simp only [Set.mem_ofPred_eq]
          omega
        refine ⟨s'', hready'', hstore ▸ hsame, hstore ▸ hch', ?_, fun m r t => ?_⟩
        · rw [hnone, hstore]
          exact hover
        · rw [Nat.add_right_comm, Nat.add_assoc, hiff, ← hsame.vol, hround]
      · obtain ⟨s'', hready'', hstore, hround⟩ := hch'.deleteRange_mark hs' hready' hn'
          (Nat.not_lt.mp hlt)
        have hone : {i | first ≤ i ∧ i < n + 1} = {i | first ≤ i ∧ i < n} ∪ {n} := by
          ext i
          simp only [Set.mem_ofPred_eq, Set.mem_union, Set.mem_singleton_iff]
          omega
        have hkeep' : s'.vol.dataLba ≤ (repairPlace s'.vol xs n).1 ∨
            byteAt s'.disk (repairPlace s'.vol xs n) = 0xE5 := by
          rw [hsame.vol]
          exact (hkeep n (by omega) (by omega)).imp_right hover.keeps
        refine ⟨s'', hready'', ?_, ?_, ?_, fun m r t => ?_⟩
        · rw [hstore]
          exact hsame.trans Store.sameVars_mark
        · rw [hstore]
          exact hch'.mark hs' hkeep'
        · rw [hone, Set.image_union, Set.image_singleton, hstore]
          refine hover.union ?_
          rw [hsame.vol]
          exact overwritten_mark (repairPlace_off_lt _ _ _)
        · rw [Nat.add_right_comm, Nat.add_assoc, hiff, ← hsame.vol, hround]

/-- The place is marked, on the disk and in the cache if that holds its sector. -/
def KeepsMark (p : Nat × Nat) (s : Drv) : Prop :=
  byteAt s.disk p = 0xE5 ∧ (s.secCacheLba % 268435456 = p.1 → s.secCache.byte p.2 = 0xE5)

theorem keepsMark_reads : Reads (KeepsMark p) := by
  refine ⟨fun s hs => hs, fun s lba hs _ _ => ⟨hs.1, fun heq => ?_⟩, fun s hs _ => ⟨?_, hs.2⟩⟩
  · exact heq ▸ hs.1
  · change byteAt (Function.update s.disk (s.secCacheLba % 268435456) s.secCache) p = 0xE5
    by_cases heq : p.1 = s.secCacheLba % 268435456
    · rw [byteAt, heq, Function.update_self]
      exact hs.2 heq.symm
    · rw [byteAt, Function.update_of_ne heq]
      exact hs.1

theorem keepsMark_deleteEntry (hp : p.2 < 512) {it : DirIter} :
    Preserves (KeepsMark p) (fsckDeleteEntry it) := by
  refine keepsMark_reads.secRead.bind fun ok => Preserves.ite (fun _ => ?_) fun _ => Preserves.pure
  refine Preserves.bind (Preserves.modify fun s hs => ⟨hs.1, fun heq => ?_⟩) fun _ =>
    keepsMark_reads.secFlush
  change (s.secCache.patch it.back.2 [0xE5]).byte p.2 = 0xE5
  rw [Block.byte_patch _ _ _ hp]
  split
  · next hin =>
    rw [List.length_singleton] at hin
    rw [show p.2 - it.back.2 = 0 by omega]
    rfl
  · exact hs.2 heq

/-- Below the data area the cache cannot be stale. -/
theorem Drv.Ready.keepsMark (hready : s.Ready) (hs : s.vol.Sound s.sectors)
    (hp : p.1 < s.vol.dataLba) (hmark : byteAt s.disk p = 0xE5) (hroot : s.vol.InRange a) :
    KeepsMark p s := by
  refine ⟨hmark, fun heq => ?_⟩
  have hlt := hs.secLba_lt hroot hs.spc_pos
  have h28 := hs.lba28
  unfold Vol.secLba at hlt
  rcases hready.coherent with hno | ⟨hin, hcache⟩
  · rw [hno] at heq
    omega
  · rw [Nat.mod_eq_of_lt (by omega)] at heq
    rw [hcache, heq]
    exact hmark

/-- A range with a mark on a FAT leaves it there, wherever the walk goes then. -/
theorem Store.Chain.deleteRange_spoils (hch : s.toStore.Chain a xs) (ha : s.vol.InRange a)
    (hs : s.vol.Sound s.sectors) (hready : s.Ready)
    (hlast : last < xs.length * s.vol.perCluster) (hfirst : first ≤ j) (hj : j ≤ last)
    (hfat : (repairPlace s.vol xs j).1 < s.vol.dataLba)
    (hbefore : ∀ i, first ≤ i → i < j → s.vol.dataLba ≤ (repairPlace s.vol xs i).1 ∨
      byteAt s.disk (repairPlace s.vol xs i) = 0xE5) {t : Drv}
    (hr : (deleteRange first (last + 1) 0 (iterAt s.vol xs 0)).Runs s () t) :
    byteAt t.disk (repairPlace s.vol xs j) = 0xE5 := by
  obtain ⟨s', hready', hsame, hch', -, hiff⟩ :=
    hch.deleteRange_reaches hs hready (n := j) (by omega) hbefore
  have hs' : s'.vol.Sound s'.sectors := by
    rw [hsame.vol, hsame.sectors]
    exact hs
  have hj' : j < xs.length * s'.vol.perCluster := by
    rw [hsame.vol]
    omega
  obtain ⟨s'', hready'', hstore, hround⟩ := hch'.deleteRange_mark hs' hready' hj' hfirst
  have hsplit : last + 1 = j + ((last - j) + 1) := by omega
  rw [hsplit, hiff, ← hsame.vol, hround] at hr
  have hvol : s''.vol = s.vol := by
    rw [hstore]
    exact hsame.vol
  have hoff := repairPlace_off_lt s.vol xs j
  have hmark : byteAt s''.disk (repairPlace s.vol xs j) = 0xE5 := by
    rw [hstore, hsame.vol]
    exact (overwritten_mark hoff).inside _ rfl
  have hsound : s''.vol.Sound s''.sectors := by
    rw [hstore]
    exact hs'
  have hkeeps := hready''.keepsMark hsound (hvol ▸ hfat) hmark (hvol ▸ ha)
  have hlt : (repairPlace s.vol xs j).2 < 512 := by omega
  exact (keepsMark_reads.deleteRange_of (fun it => keepsMark_deleteEntry hlt) _ _ _ hkeeps hr).1

/-- `fsck_delete_entries_range` marks the slots from `first` to `last` exactly
when its marks land there. -/
theorem Store.Chain.fsckDeleteEntriesRange_iff (hch : s.toStore.Chain a xs) (ha : s.vol.InRange a)
    (hs : s.vol.Sound s.sectors) (hready : s.Ready)
    (hlast : last < xs.length * s.vol.perCluster) :
    (fsckDeleteEntriesRange first last a).wp (fun _ s' => Overwritten 0xE5
        (slotPlace s.vol xs '' Set.Icc first last) s.disk s'.disk) s ↔
      Lands 0xE5 s.disk (repairPlace s.vol xs '' Set.Icc first last)
        (slotPlace s.vol xs '' Set.Icc first last) := by
  have hne := hch.ne_nil ha hs
  have hstart : ∀ r t, (fsckDeleteEntriesRange first last a).Runs s r t ↔
      (deleteRange first (last + 1) 0 (iterAt s.vol xs 0)).Runs s r t := by
    intro r t
    rw [fsckDeleteEntriesRange, getStore, Runs.bind_iff (runs_asks.mpr ⟨rfl, rfl⟩),
      hch.fsckDirIterInit_eq hne hs]
  by_cases hkeep : ∀ i, first ≤ i → i < last + 1 → s.vol.dataLba ≤ (repairPlace s.vol xs i).1 ∨
      byteAt s.disk (repairPlace s.vol xs i) = 0xE5
  · obtain ⟨s', -, -, -, hover, hiff⟩ := hch.deleteRange_reaches hs hready (by omega) hkeep
    have hset : {i | first ≤ i ∧ i < last + 1} = Set.Icc first last := by
      ext i
      simp only [Set.mem_ofPred_eq, Set.mem_Icc]
      omega
    have hrun : (fsckDeleteEntriesRange first last a).Runs s () s' :=
      (hstart _ _).mpr ((hiff 0 _ _).mpr (runs_pure.mpr ⟨rfl, rfl⟩))
    rw [hset] at hover
    rw [hrun.wp_iff]
    exact hover.iff_lands
  · have hex : ∃ i, first ≤ i ∧ i < last + 1 ∧ ¬ (s.vol.dataLba ≤ (repairPlace s.vol xs i).1 ∨
        byteAt s.disk (repairPlace s.vol xs i) = 0xE5) := by
      simpa only [not_forall, exists_prop] using hkeep
    obtain ⟨hfirst, hlt, hbad⟩ := Nat.find_spec hex
    have hbefore : ∀ i, first ≤ i → i < Nat.find hex →
        s.vol.dataLba ≤ (repairPlace s.vol xs i).1 ∨
          byteAt s.disk (repairPlace s.vol xs i) = 0xE5 := by
      intro i hle hi
      by_contra hcon
      exact Nat.find_min hex hi ⟨hle, by omega, hcon⟩
    rw [not_or, Nat.not_le] at hbad
    have hmem : repairPlace s.vol xs (Nat.find hex) ∈ repairPlace s.vol xs '' Set.Icc first last :=
      ⟨_, ⟨hfirst, by omega⟩, rfl⟩
    have hout : repairPlace s.vol xs (Nat.find hex) ∉ slotPlace s.vol xs '' Set.Icc first last := by
      rintro ⟨i, -, heq⟩
      have := dataLba_le_slotPlace s.vol xs i
      rw [heq] at this
      omega
    constructor
    · rintro ⟨r, t, hr, hover⟩
      have hmark := hch.deleteRange_spoils ha hs hready hlast hfirst (by omega) hbad.1 hbefore
        ((hstart _ _).mp hr)
      rw [hover.outside _ hout] at hmark
      exact absurd hmark hbad.2
    · exact fun hlands => absurd (hlands.1 _ hmem hout) hbad.2

/-- Writes behind slots that are hit land on the slots. -/
theorem Store.Chain.lands_of_hits {c : Store} (hch : c.Chain a xs) (hs : c.vol.Sound c.sectors)
    (hhits : ∀ i, first ≤ i → i ≤ last → Hits c.vol xs i) :
    Lands 0xE5 c.disk (repairPlace c.vol xs '' Set.Icc first last)
      (slotPlace c.vol xs '' Set.Icc first last) := by
  have himage : repairPlace c.vol xs '' Set.Icc first last =
      slotPlace c.vol xs '' Set.Icc first last :=
    Set.image_congr fun i hi => hch.repairPlace_of_hits hs (hhits i hi.1 hi.2)
  rw [himage]
  exact lands_refl

/-- What `fsck_delete_entry`, `fsck_zero_entry_cluster` and
`fsck_delete_entries_range` do is what they are meant to do exactly when their
writes land on the slots. -/
theorem Store.Chain.repairs_iff (hch : s.toStore.Chain a xs) (ha : s.vol.InRange a)
    (hs : s.vol.Sound s.sectors) (hready : s.Ready) (hi : i < xs.length * s.vol.perCluster)
    (hlast : last < xs.length * s.vol.perCluster) :
    ((Fat32.fsckDeleteAt a i).wp (fun _ s' => Overwritten 0xE5 {slotPlace s.vol xs i}
        s.disk s'.disk) s ↔
      Lands 0xE5 s.disk {repairPlace s.vol xs i} {slotPlace s.vol xs i}) ∧
    ((Fat32.fsckZeroEntryCluster a i).wp (fun _ s' => Overwritten 0
        (entryFields (slotPlace s.vol xs i)) s.disk s'.disk) s ↔
      Lands 0 s.disk (entryFields (repairPlace s.vol xs i)) (entryFields (slotPlace s.vol xs i))) ∧
    ((fsckDeleteEntriesRange first last a).wp (fun _ s' => Overwritten 0xE5
        (slotPlace s.vol xs '' Set.Icc first last) s.disk s'.disk) s ↔
      Lands 0xE5 s.disk (repairPlace s.vol xs '' Set.Icc first last)
        (slotPlace s.vol xs '' Set.Icc first last)) := by
  have hne := hch.ne_nil ha hs
  have hoff := repairPlace_off_lt s.vol xs i
  refine ⟨?_, ?_, hch.fsckDeleteEntriesRange_iff ha hs hready hlast⟩
  · obtain ⟨s', -, hstore, hrun⟩ := (hch.fsckDeleteAt hne hs hi).runs hready rfl
    rw [hrun.wp_iff, hstore]
    exact (overwritten_mark hoff).iff_lands
  · obtain ⟨s', -, hstore, hrun⟩ := (hch.fsckZeroEntryCluster hne hs hi).runs hready rfl
    rw [hrun.wp_iff, hstore]
    exact (overwritten_zeroFields hoff).iff_lands

/-- In a directory of one cluster every slot is hit. -/
theorem repairs_fresh :
    (Fat32.fsckDeleteAt 2 127).wp (fun _ s' => Overwritten 0xE5 {slotPlace (freshVol 1) [2] 127}
        (fresh 1).disk s'.disk) (fresh 1) ∧
      (Fat32.fsckZeroEntryCluster 2 127).wp (fun _ s' => Overwritten 0
        (entryFields (slotPlace (freshVol 1) [2] 127)) (fresh 1).disk s'.disk) (fresh 1) ∧
      (fsckDeleteEntriesRange 3 127 2).wp (fun _ s' => Overwritten 0xE5
        (slotPlace (freshVol 1) [2] '' Set.Icc 3 127) (fresh 1).disk s'.disk) (fresh 1) := by
  have hb := fresh_blank (n := 1) (by omega) (by omega)
  have hch := fresh_chain (n := 1) (by omega) (by omega)
  have hlt : 127 < [2].length * (fresh 1).vol.perCluster := by decide
  have hplace : repairPlace (freshVol 1) [2] 127 = slotPlace (freshVol 1) [2] 127 := by decide
  obtain ⟨hdel, hzero, hrange⟩ := @Store.Chain.repairs_iff _ _ _ 3 _ _ hch
    (hb.root ▸ hb.sound.root) hb.sound (fresh_ready (by omega)) hlt hlt
  refine ⟨hdel.mpr ?_, hzero.mpr ?_, hrange.mpr (hch.lands_of_hits hb.sound fun i _ hle => ?_)⟩
  · change Lands _ _ {repairPlace (freshVol 1) [2] 127} {slotPlace (freshVol 1) [2] 127}
    rw [hplace]
    exact lands_refl
  · change Lands _ _ (entryFields (repairPlace (freshVol 1) [2] 127)) _
    rw [hplace]
    exact lands_refl
  · intro hmod hnext
    have hper : (fresh 1).toStore.vol.perCluster = 128 := rfl
    rw [hper] at hmod hnext
    simp only [List.length_singleton] at hnext
    omega

/-- The root directory with a second cluster that does not lie behind the first. -/
def splitRoot : Drv :=
  { fresh 4 with toStore := ((fresh 4).toStore.setFat 2 5).setFat 5 0x0FFFFFFF }

theorem splitRoot_ready : splitRoot.Ready :=
  ⟨rfl, fun _ => rfl, rfl, Or.inl rfl, (fresh_ready (n := 4) (by omega)).lba28⟩

theorem splitRoot_sound : splitRoot.vol.Sound splitRoot.sectors :=
  (fresh_blank (n := 4) (by omega) (by omega)).sound

theorem splitRoot_chain : splitRoot.toStore.Chain 2 [2, 5] := by
  have hs := (fresh_blank (n := 4) (by omega) (by omega)).sound
  have h2 : (freshVol 4).InRange 2 := by decide
  have h5 : (freshVol 4).InRange 5 := by decide
  have hfat : ∀ k, (freshVol 4).InRange k → splitRoot.toStore.fat k =
      if k = 5 then 0x0FFFFFFF else if k = 2 then 5 else (fresh 4).toStore.fat k := by
    intro k hk
    rw [← Store.fat_setFat (x := 5) hs h2 hk (by omega)]
    exact Store.fat_setFat (c := (fresh 4).toStore.setFat 2 5) hs h5 hk (by omega)
  refine Links.Chain.cons_iff.mpr ⟨rfl, h2, ?_⟩
  rw [hfat 2 h2]
  refine Links.Chain.cons_iff.mpr ⟨rfl, h5, Links.Chain.nil_iff.mpr ?_⟩
  rw [hfat 5 h5]
  decide

/-- The last slot of the first cluster is not the one that is deleted. -/
theorem not_fsckDeleteAt_splitRoot : splitRoot.toStore.Chain 2 [2, 5] ∧
    ¬ (Fat32.fsckDeleteAt 2 127).wp (fun _ s' => Overwritten 0xE5
      {slotPlace (freshVol 4) [2, 5] 127} splitRoot.disk s'.disk) splitRoot := by
  have hplace : slotPlace (freshVol 4) [2, 5] 127 = (55, 480) := by decide
  have hrepair : repairPlace (freshVol 4) [2, 5] 127 = (71, 480) := by decide
  have hlt : 127 < [2, 5].length * splitRoot.vol.perCluster := by decide
  obtain ⟨s', -, hstore, hrun⟩ := (splitRoot_chain.fsckDeleteAt (by simp) splitRoot_sound hlt).runs
    splitRoot_ready rfl
  refine ⟨splitRoot_chain, ?_⟩
  rw [hrun.wp_iff, hstore, hplace]
  intro hover
  have hout := (overwritten_mark (c := splitRoot.toStore) (p := (71, 480)) (by simp)).outside
    (55, 480) (by simp)
  have hzero : byteAt splitRoot.disk (55, 480) = 0 := by decide
  have hmarked : byteAt (splitRoot.toStore.mark (71, 480)).disk (55, 480) = 0xE5 := by
    rw [← hrepair]
    exact hover.inside (55, 480) rfl
  rw [hout, hzero] at hmarked
  exact absurd hmarked (by decide)

end Ranges

end Chimaera.Fat32
