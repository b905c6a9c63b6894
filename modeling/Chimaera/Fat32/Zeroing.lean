/-
The sectors that `fat_alloc` zeroes past the cache.  Beside each program of the driver that may
allocate a cluster stands the one that logs them, with the address that the cache holds.
-/
import Chimaera.Fat32.Fsck
import Chimaera.Logged

namespace Chimaera.Fat32

open Prog Logged

/-- A sector is zeroed while the cache holds the one at `held`. -/
structure ZeroWrite where
  held : Nat
  lba : Nat
deriving DecidableEq, Repr

/-- The two are different sectors of the drive, which gets 28 bits of an address. -/
def ZeroWrite.Apart (z : ZeroWrite) : Prop := z.held % 268435456 ≠ z.lba % 268435456

instance : DecidablePred ZeroWrite.Apart := fun z =>
  inferInstanceAs (Decidable (z.held % 268435456 ≠ z.lba % 268435456))

def zeroSectorsLogged (lba count : Nat) : Logged Drv ZeroWrite Unit := do
  let _ ← Logged.forUntil (α := Unit) (fun s => do
    let held ← lift (asks Drv.secCacheLba)
    if ← lift (ataWrite (u32 (lba + s)) (Block.zero 512)) then
      tell [⟨held, u32 (lba + s)⟩]
      pure none
    else pure none) count 0

def fatAllocLogged (prev : Nat) : Logged Drv ZeroWrite Nat := do
  let c ← lift getStore
  let found ← Logged.forUntil (fun k => do
    if (← lift (fatGet k)) = 0 then
      let _ ← lift (fatSet k 0x0FFFFFFF)
      let _ ← if prev = 0 then pure true else lift (fatSet prev k)
      zeroSectorsLogged (c.vol.clusterToLba k) c.vol.secPerClus
      pure (some k)
    else pure none) (u32 (c.vol.totalClusters + 2) - 2) 2
  pure (found.getD 0)

def findSpaceLogged (dirCluster need : Nat) : Logged Drv ZeroWrite (Option DirPos) := do
  let c ← lift getStore
  let pos := dirPosInit c.vol dirCluster
  match ← lift (scanDir (freeRunStep need) ⟨0, pos⟩ pos) with
  | .stop runStart => pure (some runStart)
  | .ioError _ => pure none
  | .endOfDir st last => do
      let fresh ← fatAllocLogged last.cluster
      if fresh = 0 then pure none
      else pure (some (if st.freeRun = 0 then dirPosInit c.vol fresh else st.runStart))

def dirAddEntryLogged (dirCluster : Nat) (name : CStr) (attr : UInt8)
    (firstCluster fileSize : Nat) : Logged Drv ZeroWrite (Option DirPos) := do
  let name83 ← lift (make83Unique dirCluster name)
  match ← findSpaceLogged dirCluster (lfnCount name + 1) with
  | none => pure none
  | some start => do
      let pos ← lift (writeRun name (lfnChecksum name83) (lfnCount name) (lfnCount name) start)
      let _ ← lift (dirWriteEntry pos (shortEntry name83 attr firstCluster fileSize))
      pure (some pos)

def openExistingLogged (fd : Nat) (write : Bool) (p : PathInfo) : Logged Drv ZeroWrite Int := do
  let cluster := p.entry.cluster
  let f : Fd :=
    ⟨true, write, cluster, p.dirCluster, p.pos.lba, p.pos.off, p.entry.size, 0, cluster⟩
  lift (putFd fd f)
  if write then
    let _ ← if 2 ≤ cluster then lift (fatFreeChain cluster) else pure ()
    let fresh ← fatAllocLogged 0
    if fresh = 0 then pure Err.full.code
    else
      lift (putFd fd { f with cluster := fresh, curCluster := fresh, size := 0, pos := 0 })
      let _ ← lift (dirWriteEntry p.pos (DirEntry.setSize (DirEntry.setCluster p.entry fresh) 0))
      pure fd
  else pure fd

def openCreateLogged (fd : Nat) (path : CStr) : Logged Drv ZeroWrite Int := do
  let (parent, name) ← lift (pathResolveParent path)
  if parent = 0 then pure Err.notFound.code
  else
    let fresh ← fatAllocLogged 0
    if fresh = 0 then pure Err.full.code
    else
      match ← dirAddEntryLogged parent name 0x20 fresh 0 with
      | none =>
          lift (fatFreeChain fresh)
          pure Err.full.code
      | some pos =>
          lift (putFd fd ⟨true, true, fresh, parent, pos.lba, pos.off, 0, 0, fresh⟩)
          pure fd

def fat32OpenLogged (path : CStr) (write : Bool) : Logged Drv ZeroWrite Int := do
  let c ← lift getStore
  if !c.volMounted then pure Err.noDev.code
  else if write && c.volReadonly then pure Err.io.code
  else
    match c.freeFd with
    | none => pure Err.noMem.code
    | some fd => do
        match ← lift (pathStat path) with
        | some p =>
            if p.entry.isDir then pure Err.isDir.code
            else openExistingLogged fd write p
        | none =>
            if write then openCreateLogged fd path else pure Err.notFound.code

def writeNextLogged (cur : Nat) : Logged Drv ZeroWrite Nat := do
  let next ← lift (fatGet cur)
  if 0x0FFFFFF8 ≤ next ∨ next < 2 then fatAllocLogged cur else pure next

def writeStepLogged (fd : Nat) (buf : List UInt8) (written : Nat) :
    Logged Drv ZeroWrite (Nat ⊕ Nat) := do
  let c ← lift getStore
  let f := c.fds fd
  if buf.length ≤ written then pure (.inr written)
  else if f.pos % c.vol.clusterSize = 0 ∧ 0 < f.pos then
    let cur ← writeNextLogged f.curCluster
    if cur = 0 then pure (.inr written)
    else lift (writeChunk fd buf written c.vol { f with curCluster := cur })
  else lift (writeChunk fd buf written c.vol f)

def fat32WriteLogged (fd : Int) (buf : List UInt8) : Logged Drv ZeroWrite Int := do
  let c ← lift getStore
  if !c.fdOpen fd || !(c.fds fd.toNat).write then pure Err.notFound.code
  else
    let written ← Logged.loop (writeStepLogged fd.toNat buf) 0
    pure (i32 written)

def fat32MkdirLogged (path : CStr) : Logged Drv ZeroWrite Int := do
  let c ← lift getStore
  if !c.volMounted then pure Err.noDev.code
  else
    match ← lift (pathStat path) with
    | some _ => pure Err.exists_.code
    | none => do
        let (parent, name) ← lift (pathResolveParent path)
        if parent = 0 ∨ name = [] then pure Err.notFound.code
        else
          let fresh ← fatAllocLogged 0
          if fresh = 0 then pure Err.full.code
          else
            let parentClus := if parent = c.vol.rootCluster then 0 else parent
            if ← lift (secRead (c.vol.clusterToLba fresh)) then
              lift (secUpdate fun b => (b.patch 0 (dotEntry dotName fresh).toList).patch 32
                (dotEntry dotdotName parentClus).toList)
              let _ ← lift secFlush
              match ← dirAddEntryLogged parent name 0x10 fresh 0 with
              | none =>
                  lift (fatFreeChain fresh)
                  pure Err.full.code
              | some _ => pure 0
            else
              lift (fatFreeChain fresh)
              pure Err.io.code

def copyStepLogged (src dst : Int) (_ : Unit) : Logged Drv ZeroWrite (Unit ⊕ Unit) := do
  let (n, bytes) ← lift (fat32Read src 512)
  if 0 < n then
    let _ ← fat32WriteLogged dst bytes
    pure (.inl ())
  else pure (.inr ())

def fat32CopyLogged (src dst : CStr) : Logged Drv ZeroWrite Int := do
  let c ← lift getStore
  if !c.volMounted then pure Err.noDev.code
  else
    let srcFd ← fat32OpenLogged src false
    if srcFd < 0 then pure Err.notFound.code
    else
      let dstFd ← fat32OpenLogged dst true
      if dstFd < 0 then
        lift (fat32Close srcFd)
        pure Err.full.code
      else
        Logged.loop (copyStepLogged srcFd dstFd) ()
        lift (fat32Close srcFd)
        lift (fat32Close dstFd)
        pure 0

def fat32RenameLogged (src dst : CStr) : Logged Drv ZeroWrite Int := do
  let c ← lift getStore
  if !c.volMounted then pure Err.noDev.code
  else
    let err ← fat32CopyLogged src dst
    if err ≠ 0 then pure err else lift (fat32Unlink src)

def fat32WriteFileLogged (path : CStr) (data : List UInt8) : Logged Drv ZeroWrite Int := do
  let fd ← fat32OpenLogged path true
  if fd < 0 then pure fd
  else
    let n ← fat32WriteLogged fd data
    lift (fat32Close fd)
    pure (if n < 0 then Err.io.code else 0)

def fat32AppendFileLogged (path : CStr) (data : List UInt8) : Logged Drv ZeroWrite Int := do
  let sz ← lift (fat32Filesize path)
  if sz < 0 then fat32WriteFileLogged path data
  else
    let oldSz := sz.toNat
    if ← lift (kmalloc (u32 (oldSz + data.length + 1))) then
      let fd ← fat32OpenLogged path false
      let old ←
        if 0 ≤ fd then do
          let (_, bytes) ← lift (fat32Read fd oldSz)
          lift (fat32Close fd)
          pure bytes
        else pure []
      let buf := old ++ List.replicate (oldSz - old.length) 0 ++ data
      fat32WriteFileLogged path (buf.take (u32 (oldSz + data.length)))
    else pure Err.noMem.code

def fat32ReadFileLogged (path : CStr) : Logged Drv ZeroWrite (Option (List UInt8)) := do
  let sz ← lift (fat32Filesize path)
  if sz < 0 then pure none
  else if ← lift (kmalloc (u32 (sz.toNat + 1))) then
    let fd ← fat32OpenLogged path false
    if fd < 0 then pure none
    else
      let (n, bytes) ← lift (fat32Read fd sz.toNat)
      lift (fat32Close fd)
      pure (if n < 0 then none else some bytes)
  else pure none

def fsckAdoptChainLogged (path : CStr) (first : Nat) : Logged Drv ZeroWrite Bool := do
  let c ← lift getStore
  let (parent, name) ← lift (pathResolveParent path)
  if parent = 0 ∨ name = [] then pure false
  else
    let len ← lift (adoptLength c.vol.clusterSize c.vol.totalClusters first)
    let _ ← lift (make83Unique parent name)
    let pos ← dirAddEntryLogged parent name 0x20 first len
    pure pos.isSome

def ensureLostFoundLogged : Logged Drv ZeroWrite Nat := do
  let _ ← fat32MkdirLogged lostFoundPath
  let (err, de) ← lift (fat32Stat lostFoundPath)
  match de with
  | some d => pure (if err = 0 then d.cluster else 0)
  | none => pure 0

def openLostFoundLogged (total : Nat) (st : OrphanState) : Logged Drv ZeroWrite OrphanState := do
  if st.lfCreated then pure st
  else
    let lf ← ensureLostFoundLogged
    let bmp ← if lf ≠ 0 then lift (markLostFound total lf st.walk.bmp) else pure st.walk.bmp
    pure { st with lfCluster := lf, lfCreated := true, walk := { st.walk with bmp } }

def rescueOrFreeLogged (total c : Nat) (st : OrphanState) : Logged Drv ZeroWrite OrphanState := do
  if st.lfCluster ≠ 0 then
    let seq := st.lfSeq
    let st := { st with lfSeq := u32 (seq + 1) }
    if ← fsckAdoptChainLogged (rescuePath seq) c then
      let bmp ← lift (markRescued total c st.walk.bmp)
      pure { st with walk := { st.walk with
        bmp
        stats := { st.walk.stats with
          orphanClustersRescued := st.walk.stats.orphanClustersRescued + 1 } } }
    else
      lift (fatFreeChain c)
      pure { st with walk := { st.walk with
        stats := { st.walk.stats with
          repairFailures := st.walk.stats.repairFailures + 1 } } }
  else
    lift (fatFreeChain c)
    pure st

def orphanStepLogged (total c : Nat) (st : OrphanState) : Logged Drv ZeroWrite OrphanState := do
  let fatVal ← lift (fatGet c)
  if fatVal = 0 ∨ fatVal = 0x0FFFFFF7 then pure st
  else if st.walk.bmp (c - 2) then pure st
  else
    let prevVal ← if 3 ≤ c then lift (fatGet (c - 1)) else pure 0
    if !isChainHead c prevVal st.walk.bmp then pure st
    else
      let st := { st with walk := { st.walk with
        stats := { st.walk.stats with
          orphanClusters := st.walk.stats.orphanClusters + 1 } } }
      let st ← openLostFoundLogged total st
      rescueOrFreeLogged total c st

def orphanScanLogged (total : Nat) : Nat → Nat → OrphanState → Logged Drv ZeroWrite OrphanState
  | 0, _, st => pure st
  | n + 1, c, st => do
      let st ← orphanStepLogged total c st
      orphanScanLogged total n (c + 1) st

def chimerafsFsckLogged : Logged Drv ZeroWrite FsckStats := do
  let c ← lift getStore
  let v := c.vol
  let st ← lift (checkFatMismatch FsckStats.init)
  let w : Walk := ⟨fun _ => false, fun _ => (0, 0), st, false⟩
  if ← lift (kmalloc (u32 (v.totalClusters + 7) / 8)) then
    if ← lift (kmalloc (u32 (v.totalClusters * 12))) then
      let w ← lift (walkDir 33 v.rootCluster w)
      let st ← orphanScanLogged v.totalClusters (u32 (v.totalClusters + 2) - 2) 2
        ⟨0, 0, false, w⟩
      lift (fsckSummary st.walk)
    else lift (fsckSummary w)
  else lift (fsckSummary w)

section Erasure

variable {path src dst name : CStr} {data buf : List UInt8} {prev dir fd need total c : Nat}

theorem erase_zeroSectors (lba count : Nat) :
    (zeroSectorsLogged lba count).erase = zeroSectors lba count := by
  refine erase_bind_eq (erase_forUntil_eq (fun s => ?_) _ _) fun _ => erase_pure
  refine erase_asks_eq fun held => erase_bind_eq erase_lift fun ok => ?_
  split
  · exact erase_tell_eq erase_pure
  · exact erase_pure

theorem erase_fatAlloc : (fatAllocLogged prev).erase = fatAlloc prev := by
  refine erase_bind_eq erase_lift fun c => erase_bind_eq (erase_forUntil_eq (fun k => ?_) _ _)
    fun _ => erase_pure
  refine erase_bind_eq erase_lift fun x => ?_
  split
  · refine erase_bind_eq erase_lift fun _ => ?_
    dsimp only
    split
    · exact erase_bind_eq erase_pure fun _ => erase_bind_eq (erase_zeroSectors _ _) fun _ =>
        erase_pure
    · exact erase_bind_eq erase_lift fun _ => erase_bind_eq (erase_zeroSectors _ _) fun _ =>
        erase_pure
  · exact erase_pure

theorem erase_findSpace : (findSpaceLogged dir need).erase = findSpace dir need := by
  refine erase_bind_eq erase_lift fun c => erase_bind_eq erase_lift fun r => ?_
  cases r with
  | stop runStart => exact erase_pure
  | ioError st => exact erase_pure
  | endOfDir st last =>
      refine erase_bind_eq erase_fatAlloc fun fresh => ?_
      split
      · exact erase_pure
      · exact erase_pure

theorem erase_dirAddEntry {attr : UInt8} {first size : Nat} :
    (dirAddEntryLogged dir name attr first size).erase = dirAddEntry dir name attr first size := by
  refine erase_bind_eq erase_lift fun name83 => erase_bind_eq erase_findSpace fun o => ?_
  cases o with
  | none => exact erase_pure
  | some start =>
      exact erase_bind_eq erase_lift fun pos => erase_bind_eq erase_lift fun _ => erase_pure

theorem erase_openExisting {write : Bool} {p : PathInfo} :
    (openExistingLogged fd write p).erase = openExisting fd write p := by
  refine erase_bind_eq erase_lift fun _ => ?_
  split
  · dsimp only
    split
    · refine erase_bind_eq erase_lift fun _ => erase_bind_eq erase_fatAlloc fun fresh => ?_
      split
      · exact erase_pure
      · exact erase_bind_eq erase_lift fun _ => erase_bind_eq erase_lift fun _ => erase_pure
    · refine erase_bind_eq erase_fatAlloc fun fresh => ?_
      split
      · exact erase_pure
      · exact erase_bind_eq erase_lift fun _ => erase_bind_eq erase_lift fun _ => erase_pure
  · exact erase_pure

theorem erase_openCreate : (openCreateLogged fd path).erase = openCreate fd path := by
  refine erase_bind_eq erase_lift fun p => ?_
  dsimp only
  split
  · exact erase_pure
  · refine erase_bind_eq erase_fatAlloc fun fresh => ?_
    split
    · exact erase_pure
    · refine erase_bind_eq erase_dirAddEntry fun o => ?_
      cases o with
      | none => exact erase_bind_eq erase_lift fun _ => erase_pure
      | some pos => exact erase_bind_eq erase_lift fun _ => erase_pure

theorem erase_fat32Open {write : Bool} : (fat32OpenLogged path write).erase = fat32Open path write := by
  refine erase_bind_eq erase_lift fun c => ?_
  split
  · exact erase_pure
  split
  · exact erase_pure
  cases c.freeFd with
  | none => exact erase_pure
  | some fd =>
      refine erase_bind_eq erase_lift fun o => ?_
      cases o with
      | some p =>
          dsimp only
          split
          · exact erase_pure
          · exact erase_openExisting
      | none =>
          dsimp only
          split
          · exact erase_openCreate
          · exact erase_pure

theorem erase_writeNext : (writeNextLogged c).erase = writeNext c := by
  refine erase_bind_eq erase_lift fun next => ?_
  split
  · exact erase_fatAlloc
  · exact erase_pure

theorem erase_writeStep (written : Nat) :
    (writeStepLogged fd buf written).erase = writeStep fd buf written := by
  refine erase_bind_eq erase_lift fun c => ?_
  dsimp only
  split
  · exact erase_pure
  split
  · refine erase_bind_eq erase_writeNext fun cur => ?_
    split
    · exact erase_pure
    · exact erase_lift
  · exact erase_lift

theorem erase_fat32Write {fd : Int} : (fat32WriteLogged fd buf).erase = fat32Write fd buf := by
  refine erase_bind_eq erase_lift fun c => ?_
  split
  · exact erase_pure
  · exact erase_bind_eq (erase_loop_eq erase_writeStep _) fun _ => erase_pure

theorem erase_fat32Mkdir : (fat32MkdirLogged path).erase = fat32Mkdir path := by
  refine erase_bind_eq erase_lift fun c => ?_
  split
  · exact erase_pure
  refine erase_bind_eq erase_lift fun o => ?_
  cases o with
  | some p => exact erase_pure
  | none =>
      refine erase_bind_eq erase_lift fun p => ?_
      dsimp only
      split
      · exact erase_pure
      refine erase_bind_eq erase_fatAlloc fun fresh => ?_
      split
      · exact erase_pure
      refine erase_bind_eq erase_lift fun b => ?_
      split
      · refine erase_bind_eq erase_lift fun _ => erase_bind_eq erase_lift fun _ =>
          erase_bind_eq erase_dirAddEntry fun o => ?_
        cases o with
        | none => exact erase_bind_eq erase_lift fun _ => erase_pure
        | some pos => exact erase_pure
      · exact erase_bind_eq erase_lift fun _ => erase_pure

theorem erase_copyStep {src dst : Int} (u : Unit) :
    (copyStepLogged src dst u).erase = copyStep src dst u := by
  refine erase_bind_eq erase_lift fun r => ?_
  dsimp only
  split
  · exact erase_bind_eq erase_fat32Write fun _ => erase_pure
  · exact erase_pure

theorem erase_fat32Copy : (fat32CopyLogged src dst).erase = fat32Copy src dst := by
  refine erase_bind_eq erase_lift fun c => ?_
  split
  · exact erase_pure
  refine erase_bind_eq erase_fat32Open fun srcFd => ?_
  split
  · exact erase_pure
  refine erase_bind_eq erase_fat32Open fun dstFd => ?_
  split
  · exact erase_bind_eq erase_lift fun _ => erase_pure
  · exact erase_bind_eq (erase_loop_eq erase_copyStep _) fun _ => erase_bind_eq erase_lift
      fun _ => erase_bind_eq erase_lift fun _ => erase_pure

theorem erase_fat32Rename : (fat32RenameLogged src dst).erase = fat32Rename src dst := by
  refine erase_bind_eq erase_lift fun c => ?_
  split
  · exact erase_pure
  refine erase_bind_eq erase_fat32Copy fun err => ?_
  split
  · exact erase_pure
  · exact erase_lift

theorem erase_fat32WriteFile :
    (fat32WriteFileLogged path data).erase = fat32WriteFile path data := by
  refine erase_bind_eq erase_fat32Open fun fd => ?_
  split
  · exact erase_pure
  · exact erase_bind_eq erase_fat32Write fun _ => erase_bind_eq erase_lift fun _ => erase_pure

theorem erase_fat32AppendFile :
    (fat32AppendFileLogged path data).erase = fat32AppendFile path data := by
  refine erase_bind_eq erase_lift fun sz => ?_
  split
  · exact erase_fat32WriteFile
  refine erase_bind_eq erase_lift fun b => ?_
  split
  · refine erase_bind_eq erase_fat32Open fun fd => ?_
    dsimp only
    split
    · exact erase_bind_eq erase_lift fun _ => erase_bind_eq erase_lift fun _ =>
        erase_bind_eq erase_pure fun _ => erase_fat32WriteFile
    · exact erase_bind_eq erase_pure fun _ => erase_fat32WriteFile
  · exact erase_pure

theorem erase_fat32ReadFile : (fat32ReadFileLogged path).erase = fat32ReadFile path := by
  refine erase_bind_eq erase_lift fun sz => ?_
  split
  · exact erase_pure
  refine erase_bind_eq erase_lift fun b => ?_
  split
  · refine erase_bind_eq erase_fat32Open fun fd => ?_
    split
    · exact erase_pure
    · exact erase_bind_eq erase_lift fun _ => erase_bind_eq erase_lift fun _ => erase_pure
  · exact erase_pure

theorem erase_fsckAdoptChain : (fsckAdoptChainLogged path c).erase = fsckAdoptChain path c := by
  refine erase_bind_eq erase_lift fun s => erase_bind_eq erase_lift fun p => ?_
  dsimp only
  split
  · exact erase_pure
  · exact erase_bind_eq erase_lift fun _ => erase_bind_eq erase_lift fun _ =>
      erase_bind_eq erase_dirAddEntry fun _ => erase_pure

theorem erase_ensureLostFound : ensureLostFoundLogged.erase = ensureLostFound := by
  refine erase_bind_eq erase_fat32Mkdir fun _ => erase_bind_eq erase_lift fun r => ?_
  obtain ⟨err, d | -⟩ := r
  · exact erase_pure
  · exact erase_pure

theorem erase_openLostFound {st : OrphanState} :
    (openLostFoundLogged total st).erase = openLostFound total st := by
  unfold openLostFoundLogged openLostFound
  split
  · exact erase_pure
  refine erase_bind_eq erase_ensureLostFound fun lf => ?_
  dsimp only
  split
  · exact erase_bind_eq erase_lift fun _ => erase_pure
  · exact erase_bind_eq erase_pure fun _ => erase_pure

theorem erase_rescueOrFree {st : OrphanState} :
    (rescueOrFreeLogged total c st).erase = rescueOrFree total c st := by
  unfold rescueOrFreeLogged rescueOrFree
  dsimp only
  split
  · refine erase_bind_eq erase_fsckAdoptChain fun b => ?_
    split
    · exact erase_bind_eq erase_lift fun _ => erase_pure
    · exact erase_bind_eq erase_lift fun _ => erase_pure
  · exact erase_bind_eq erase_lift fun _ => erase_pure

theorem erase_orphanStep {st : OrphanState} :
    (orphanStepLogged total c st).erase = orphanStep total c st := by
  refine erase_bind_eq erase_lift fun x => ?_
  split
  · exact erase_pure
  split
  · exact erase_pure
  dsimp only
  split
  all_goals
    refine erase_bind_eq rfl fun prevVal => ?_
    split
    · exact erase_pure
    · exact erase_bind_eq erase_openLostFound fun _ => erase_rescueOrFree

theorem erase_orphanScan {n : Nat} {st : OrphanState} :
    (orphanScanLogged total n c st).erase = orphanScan total n c st := by
  induction n generalizing c st with
  | zero => exact erase_pure
  | succ n ih => exact erase_bind_eq erase_orphanStep fun _ => ih

theorem erase_chimerafsFsck : chimerafsFsckLogged.erase = chimerafsFsck := by
  refine erase_bind_eq erase_lift fun c => erase_bind_eq erase_lift fun st =>
    erase_bind_eq erase_lift fun b => ?_
  split
  · refine erase_bind_eq erase_lift fun b' => ?_
    split
    · exact erase_bind_eq erase_lift fun _ => erase_bind_eq erase_orphanScan fun _ => erase_lift
    · exact erase_lift
  · exact erase_lift

end Erasure

end Chimaera.Fat32
