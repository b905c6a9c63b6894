/-
`fat32_fsck.c` and `fsck.c`: the consistency checker that runs at mount.  The
serial log is left out.
-/
import Chimaera.Fat32.Ops

namespace Chimaera.Fat32

open Prog

/-- `fsck_stats_t`. -/
structure FsckStats where
  fatMismatchSectors : Nat
  fatMismatchRepaired : Nat
  orphanClusters : Nat
  orphanClustersRescued : Nat
  crosslinkClusters : Nat
  crosslinkRepaired : Nat
  invalidEntries : Nat
  orphanLfnEntries : Nat
  repairFailures : Nat
deriving DecidableEq, Repr

def FsckStats.init : FsckStats := ⟨0, 0, 0, 0, 0, 0, 0, 0, 0⟩

/-- The tables of a check: the reachability bitmap and the owner of each
cluster (`ref_cluster`, `ref_entry`), both indexed by `cluster - 2`, with the
counters and the read-only request. -/
structure Walk where
  bmp : Nat → Bool
  refs : Nat → Nat × Nat
  stats : FsckStats
  needReadonly : Bool

/-- `fsck_dir_iter_t`. -/
structure DirIter where
  cluster : Nat
  lba : Nat
  off : Nat
deriving DecidableEq, Repr

def fsckDirIterInit (v : Vol) (cluster : Nat) : DirIter :=
  ⟨cluster, v.clusterToLba cluster, 0⟩

/-- The entry at the iterator, and the iterator moved on.  At the end of the
chain it stays on the sector behind the last cluster. -/
def fsckDirIterNext (it : DirIter) : Prog Drv (Option (DirEntry × DirIter)) := do
  let c ← getStore
  let v := c.vol
  if ← secRead it.lba then
    let b ← cached
    let raw : DirEntry := b.slice it.off 32
    if it.off + 32 < 512 then pure (some (raw, { it with off := it.off + 32 }))
    else
      let lba := u32 (it.lba + 1)
      if sub32 lba (v.clusterToLba it.cluster) % v.secPerClus = 0 ∧
          lba ≠ v.clusterToLba it.cluster then
        let next ← fatGet it.cluster
        if 0x0FFFFFF8 ≤ next ∨ next < 2 then pure (some (raw, ⟨it.cluster, lba, 0⟩))
        else pure (some (raw, ⟨next, v.clusterToLba next, 0⟩))
      else pure (some (raw, ⟨it.cluster, lba, 0⟩))
  else pure none

/-- The sector and offset of the entry before the iterator. -/
def DirIter.back (it : DirIter) : Nat × Nat :=
  if it.off = 0 then (sub32 it.lba 1, 480) else (it.lba, it.off - 32)

def fsckDeleteEntry (it : DirIter) : Prog Drv Bool := do
  if ← secRead it.back.1 then
    secUpdate fun b => b.patch it.back.2 [0xE5]
    secFlush
  else pure false

/-- The rounds of `fsck_delete_entries_range`, from index `i` on. -/
def deleteRange (first : Nat) : Nat → Nat → DirIter → Prog Drv Unit
  | 0, _, _ => pure ()
  | n + 1, i, it => do
      match ← fsckDirIterNext it with
      | none => pure ()
      | some (_, it') =>
          if i < first then deleteRange first n (i + 1) it'
          else
            let _ ← fsckDeleteEntry it'
            deleteRange first n (i + 1) it'

def fsckDeleteEntriesRange (first last dirCluster : Nat) : Prog Drv Unit := do
  let c ← getStore
  deleteRange first (last + 1) 0 (fsckDirIterInit c.vol dirCluster)

/-- One round of `fsck_mark_chain`: the cluster, the guard and the tables. -/
def markStep (start dirCluster entryIdx total : Nat) (p : Nat × Nat × Walk) :
    Prog Drv ((Nat × Nat × Walk) ⊕ Walk) := do
  let (c, guard, w) := p
  if 2 ≤ c ∧ c < u32 (total + 2) ∧ guard < total then
    let idx := c - 2
    if w.bmp idx then
      if start = dirCluster then
        let w' := { w with refs := Function.update w.refs idx (dirCluster, entryIdx) }
        let next ← fatGet c
        if 0x0FFFFFF8 ≤ next ∨ next = 0 then pure (.inr w')
        else pure (.inl (next, guard + 1, w'))
      else if w.refs idx ≠ (dirCluster, entryIdx) then
        pure (.inr { w with
          stats := { w.stats with
            crosslinkClusters := w.stats.crosslinkClusters + 1
            crosslinkRepaired := w.stats.crosslinkRepaired + 1 }
          needReadonly := false })
      else pure (.inr w)
    else
      let w' := { w with
        bmp := Function.update w.bmp idx true
        refs := Function.update w.refs idx (dirCluster, entryIdx) }
      let next ← fatGet c
      if 0x0FFFFFF8 ≤ next ∨ next = 0 then pure (.inr w')
      else pure (.inl (next, guard + 1, w'))
  else pure (.inr w)

def fsckMarkChain (start dirCluster entryIdx total : Nat) (w : Walk) : Prog Drv Walk :=
  loop (markStep start dirCluster entryIdx total) (start, 0, w)

/-- The rounds of `fsck_zero_entry_cluster` up to the entry it means. -/
def zeroEntryAt : Nat → DirIter → Prog Drv Bool
  | n, it => do
      match ← fsckDirIterNext it with
      | none => pure false
      | some (_, it') => match n with
        | n + 1 => zeroEntryAt n it'
        | 0 =>
            if ← secRead it'.back.1 then
              secUpdate fun b => ((b.patch (it'.back.2 + 20) [0, 0]).patch
                (it'.back.2 + 26) [0, 0]).patch (it'.back.2 + 28) [0, 0, 0, 0]
              secFlush
            else pure false

def fsckZeroEntryCluster (dirCluster entryIdx : Nat) : Prog Drv Bool := do
  let c ← getStore
  zeroEntryAt entryIdx (fsckDirIterInit c.vol dirCluster)

/-- `/lost+found/FILE_` -/
def rescuePrefix : CStr :=
  [0x2F, 0x6C, 0x6F, 0x73, 0x74, 0x2B, 0x66, 0x6F, 0x75, 0x6E, 0x64, 0x2F,
    0x46, 0x49, 0x4C, 0x45, 0x5F]

/-- `/lost+found` -/
def lostFoundPath : CStr := rescuePrefix.take 11

/-- An upper-case hexadecimal digit. -/
def hexDigit (n : Nat) : UInt8 :=
  if n % 16 < 10 then UInt8.ofNat (0x30 + n % 16) else UInt8.ofNat (0x37 + n % 16)

/-- `/lost+found/FILE_XXXX`. -/
def rescuePath (seq : Nat) : CStr :=
  rescuePrefix ++ [hexDigit (seq / 4096), hexDigit (seq / 256), hexDigit (seq / 16),
    hexDigit seq]

/-- The length that `fsck_adopt_chain` gives to the adopted file. -/
def adoptLength (clusterSize total : Nat) (first : Nat) : Prog Drv Nat :=
  loop (fun (p : Nat × Nat × Nat) => do
    let (c, guard, len) := p
    if 2 ≤ c ∧ c < 0x0FFFFFF8 ∧ guard < total then
      let next ← fatGet c
      pure (.inl (next, guard + 1, u32 (len + clusterSize)))
    else pure (.inr len)) (first, 0, 0)

/-- `fsck_adopt_chain`: an entry for an existing chain. -/
def fsckAdoptChain (path : CStr) (first : Nat) : Prog Drv Bool := do
  let c ← getStore
  let (parent, name) ← pathResolveParent path
  if parent = 0 ∨ name = [] then pure false
  else
    let len ← adoptLength c.vol.clusterSize c.vol.totalClusters first
    let _ ← make83Unique parent name
    let pos ← dirAddEntry parent name 0x20 first len
    pure pos.isSome

/-- `check_fat_mismatch`: copy diverging sectors of the first FAT to the
second. -/
def checkFatMismatch (st : FsckStats) : Prog Drv FsckStats := do
  let c ← getStore
  let v := c.vol
  if v.numFats < 2 then pure st
  else
    loop (fun (p : Nat × FsckStats) => do
      let (s, st) := p
      if s < v.fatSize then
        match ← ataRead (u32 (v.fatLba + s)) with
        | none => pure (.inl (s + 1, st))
        | some fat1 =>
            match ← ataRead (u32 (u32 (v.fatLba + v.fatSize) + s)) with
            | none => pure (.inl (s + 1, st))
            | some fat2 =>
                if fat1 = fat2 then pure (.inl (s + 1, st))
                else
                  let st := { st with fatMismatchSectors := st.fatMismatchSectors + 1 }
                  if ← ataWrite (u32 (u32 (v.fatLba + v.fatSize) + s)) fat1 then
                    pure (.inl (s + 1,
                      { st with fatMismatchRepaired := st.fatMismatchRepaired + 1 }))
                  else
                    pure (.inl (s + 1, { st with repairFailures := st.repairFailures + 1 }))
      else pure (.inr st)) (0, st)

/-- The local variables of `walk_dir`, with the tables. -/
structure WalkState where
  it : DirIter
  entryIdx : Nat
  buildingLfn : Bool
  seqExpected : Nat
  sumExpected : UInt8
  lfnStart : Nat
  walk : Walk

def FsckStats.addOrphanLfn (st : FsckStats) : FsckStats :=
  { st with orphanLfnEntries := st.orphanLfnEntries + 1 }

def FsckStats.addInvalid (st : FsckStats) : FsckStats :=
  { st with invalidEntries := st.invalidEntries + 1 }

/-- A repair that failed: count it and ask for read-only. -/
def Walk.failUnless (ok : Bool) (w : Walk) : Walk :=
  if ok then w
  else { w with
    stats := { w.stats with repairFailures := w.stats.repairFailures + 1 }
    needReadonly := true }

/-- Delete the entry before the iterator and go on with the next one. -/
def walkDelete (st : WalkState) (w : Walk) : Prog Drv WalkState := do
  let ok ← fsckDeleteEntry st.it
  pure { st with entryIdx := st.entryIdx + 1, walk := w.failUnless ok }

/-- `walk_dir` on a piece of a long name; `st.it` is already past it. -/
def walkLfn (st : WalkState) (e : DirEntry) : Prog Drv WalkState :=
  if e.isLast then
    pure { st with
      buildingLfn := true
      seqExpected := e.seq
      sumExpected := e.checksum
      lfnStart := st.entryIdx
      entryIdx := st.entryIdx + 1 }
  else
    let w := { st.walk with stats := st.walk.stats.addOrphanLfn }
    if !st.buildingLfn then walkDelete st w
    else if e.seq + 1 ≠ st.seqExpected ∨ e.checksum ≠ st.sumExpected then
      -- a gap in the numbers, or another checksum
      walkDelete { st with buildingLfn := false, seqExpected := 0 } w
    else pure { st with seqExpected := e.seq, entryIdx := st.entryIdx + 1 }

/-- `walk_dir` on a short entry, first part: an incomplete long name before it,
or one with another checksum, is deleted. -/
def walkEndRun (dirCluster : Nat) (st : WalkState) (e : DirEntry) :
    Prog Drv WalkState := do
  if st.buildingLfn then
    if st.seqExpected ≠ 1 ∨ lfnChecksum e.name ≠ st.sumExpected then
      fsckDeleteEntriesRange st.lfnStart (st.entryIdx - 1) dirCluster
      pure { st with
        buildingLfn := false
        seqExpected := 0
        walk := { st.walk with stats := st.walk.stats.addOrphanLfn } }
    else pure { st with buildingLfn := false, seqExpected := 0 }
  else pure st

/-- `walk_dir` on a short entry, second part: validate it, mark its chain,
detach it where the chain is cross-linked, and descend with `walkSub`. -/
def walkShort (walkSub : Nat → Walk → Prog Drv Walk) (dirCluster total : Nat)
    (st : WalkState) (e : DirEntry) : Prog Drv WalkState := do
  let skip := { st with entryIdx := st.entryIdx + 1 }
  if e.attr &&& 0xC0 != 0 then
    walkDelete st { st.walk with stats := st.walk.stats.addInvalid }
  else if e.attr &&& 0x08 != 0 then pure skip
  else if e.cluster = 1 ∨ (2 ≤ e.cluster ∧ u32 (total + 2) ≤ e.cluster) then
    walkDelete st { st.walk with stats := st.walk.stats.addInvalid }
  else if e.isDot then pure skip
  else
    let w ←
      if 2 ≤ e.cluster then do
        let before := st.walk.stats.crosslinkRepaired
        let w ← fsckMarkChain e.cluster dirCluster st.entryIdx total st.walk
        if before < w.stats.crosslinkRepaired then
          let ok ← fsckZeroEntryCluster dirCluster st.entryIdx
          pure (w.failUnless ok)
        else pure w
      else pure st.walk
    let w ← if e.isDir && decide (2 ≤ e.cluster) then walkSub e.cluster w else pure w
    pure { skip with walk := w }

/-- One round of the scan of `walk_dir`. -/
def walkStep (walkSub : Nat → Walk → Prog Drv Walk) (dirCluster total : Nat)
    (st : WalkState) : Prog Drv (WalkState ⊕ Walk) := do
  match ← fsckDirIterNext st.it with
  | none => pure (.inr st.walk)
  | some (e, it) =>
      let st := { st with it }
      if e.first = 0 then pure (.inr st.walk)
      else if e.first = 0xE5 then
        pure (.inl { st with
          buildingLfn := false
          seqExpected := 0
          entryIdx := st.entryIdx + 1 })
      else if e.isLfn then
        let st ← walkLfn st e
        pure (.inl st)
      else
        let st ← walkEndRun dirCluster st e
        let st ← walkShort walkSub dirCluster total st e
        pure (.inl st)

/-- `walk_dir`; the first argument is `33 - depth`, so 0 is the cut-off. -/
def walkDir : Nat → Nat → Walk → Prog Drv Walk
  | 0, _, w => pure w
  | levels + 1, dirCluster, w => do
      let c ← getStore
      let total := c.vol.totalClusters
      if dirCluster < 2 then pure w
      else
        let w ← fsckMarkChain dirCluster dirCluster 0 total w
        loop (walkStep (walkDir levels) dirCluster total)
          ⟨fsckDirIterInit c.vol dirCluster, 0, false, 0, 0, 0, w⟩

/-- `fat32_mkdir` and `fat32_stat` on `/lost+found`: its cluster, or 0. -/
def ensureLostFound : Prog Drv Nat := do
  let _ ← fat32Mkdir lostFoundPath
  let (err, de) ← fat32Stat lostFoundPath
  match de with
  | some d => pure (if err = 0 then d.cluster else 0)
  | none => pure 0

/-- Mark the chain of `/lost+found`, with the guard `guard2`. -/
def markLostFound (total start : Nat) (bmp : Nat → Bool) : Prog Drv (Nat → Bool) :=
  loop (fun (p : Nat × Nat × (Nat → Bool)) => do
    let (c, guard, bmp) := p
    if 2 ≤ c ∧ c < u32 (total + 2) ∧ guard < total then
      let bmp' := Function.update bmp (c - 2) true
      let next ← fatGet c
      if 0x0FFFFFF8 ≤ next ∨ next = 0 then pure (.inr bmp')
      else pure (.inl (next, guard + 1, bmp'))
    else pure (.inr bmp)) (start, 0, bmp)

/-- Mark a rescued chain; this loop has no guard. -/
def markRescued (total start : Nat) (bmp : Nat → Bool) : Prog Drv (Nat → Bool) :=
  loop (fun (p : Nat × (Nat → Bool)) => do
    let (c, bmp) := p
    if 2 ≤ c ∧ c < u32 (total + 2) then
      let bmp' := Function.update bmp (c - 2) true
      let next ← fatGet c
      if 0x0FFFFFF8 ≤ next ∨ next = 0 then pure (.inr bmp')
      else pure (.inl (next, bmp'))
    else pure (.inr bmp)) (start, bmp)

structure OrphanState where
  lfCluster : Nat
  lfSeq : Nat
  lfCreated : Bool
  walk : Walk

/-- Make sure of `/lost+found`, once per check. -/
def openLostFound (total : Nat) (st : OrphanState) : Prog Drv OrphanState := do
  if st.lfCreated then pure st
  else
    let lf ← ensureLostFound
    let bmp ← if lf ≠ 0 then markLostFound total lf st.walk.bmp else pure st.walk.bmp
    pure { st with lfCluster := lf, lfCreated := true, walk := { st.walk with bmp } }

/-- Move the orphaned chain of `c` to `/lost+found`, or free it. -/
def rescueOrFree (total c : Nat) (st : OrphanState) : Prog Drv OrphanState := do
  if st.lfCluster ≠ 0 then
    let seq := st.lfSeq
    let st := { st with lfSeq := u32 (seq + 1) }
    if ← fsckAdoptChain (rescuePath seq) c then
      let bmp ← markRescued total c st.walk.bmp
      pure { st with walk := { st.walk with
        bmp
        stats := { st.walk.stats with
          orphanClustersRescued := st.walk.stats.orphanClustersRescued + 1 } } }
    else
      fatFreeChain c
      pure { st with walk := { st.walk with
        stats := { st.walk.stats with
          repairFailures := st.walk.stats.repairFailures + 1 } } }
  else
    fatFreeChain c
    pure st

/-- Whether an unreachable cluster counts as the head of its chain, told from
the entry of the cluster with the number before it. -/
def isChainHead (c prevVal : Nat) (bmp : Nat → Bool) : Bool :=
  prevVal == 0 || decide (0x0FFFFFF7 ≤ prevVal) || !bmp (c - 1 - 2)

/-- The orphan scan at cluster `c`. -/
def orphanStep (total c : Nat) (st : OrphanState) : Prog Drv OrphanState := do
  let fatVal ← fatGet c
  if fatVal = 0 ∨ fatVal = 0x0FFFFFF7 then pure st
  else if st.walk.bmp (c - 2) then pure st
  else
    let prevVal ← if 3 ≤ c then fatGet (c - 1) else pure 0
    if !isChainHead c prevVal st.walk.bmp then pure st
    else
      let st := { st with walk := { st.walk with
        stats := { st.walk.stats with
          orphanClusters := st.walk.stats.orphanClusters + 1 } } }
      let st ← openLostFound total st
      rescueOrFree total c st

/-- The orphan scan over `n` clusters from `c` on. -/
def orphanScan (total : Nat) : Nat → Nat → OrphanState → Prog Drv OrphanState
  | 0, _, st => pure st
  | n + 1, c, st => do
      let st ← orphanStep total c st
      orphanScan total n (c + 1) st

/-- The summary: the volume goes read-only when a repair failed. -/
def fsckSummary (w : Walk) : Prog Drv FsckStats := do
  if w.needReadonly || decide (0 < w.stats.repairFailures) then
    modifyStore fun c => { c with volReadonly := true }
    pure w.stats
  else pure w.stats

/-- The boot-time check; the answer is its counters. -/
def chimerafsFsck : Prog Drv FsckStats := do
  let c ← getStore
  let v := c.vol
  let st ← checkFatMismatch FsckStats.init
  let w : Walk := ⟨fun _ => false, fun _ => (0, 0), st, false⟩
  if ← kmalloc (u32 (v.totalClusters + 7) / 8) then
    if ← kmalloc (u32 (v.totalClusters * 12)) then
      let w ← walkDir 33 v.rootCluster w
      let st ← orphanScan v.totalClusters (u32 (v.totalClusters + 2) - 2) 2
        ⟨0, 0, false, w⟩
      fsckSummary st.walk
    else fsckSummary w
  else fsckSummary w

end Chimaera.Fat32
