/-
`fat32_core.c`: the device, the one-sector cache, the FAT, directory scanning
and path resolution.
-/
import Chimaera.Fat32.Types

namespace Chimaera.Fat32

open Prog

def getStore : Prog Drv Store := asks Drv.toStore

def modifyStore (f : Store → Store) : Prog Drv Unit :=
  modify fun s => { s with toStore := f s.toStore }

def Store.put (c : Store) (lba : Nat) (b : Sector) : Store :=
  { c with disk := Function.update c.disk lba b, log := (lba, b) :: c.log }

/-- `ata_read(lba, 1, buf)`.  Only 28 bits of the address reach the drive. -/
def ataRead (lba : Nat) : Prog Drv (Option Sector) := do
  let s ← asks id
  if s.present then
    modify fun s => { s with ataOps := s.ataOps + 1 }
    if s.ataOk s.ataOps && decide (lba % 268435456 < s.sectors) then
      pure (some (s.disk (lba % 268435456)))
    else pure none
  else pure none

/-- `ata_write(lba, 1, buf)`. -/
def ataWrite (lba : Nat) (b : Sector) : Prog Drv Bool := do
  let s ← asks id
  if s.present then
    modify fun s => { s with ataOps := s.ataOps + 1 }
    if s.ataOk s.ataOps && decide (lba % 268435456 < s.sectors) then
      modifyStore fun c => c.put (lba % 268435456) b
      pure true
    else pure false
  else pure false

def secFlush : Prog Drv Bool := do
  let s ← asks id
  if s.secCacheDirty then
    if ← ataWrite s.secCacheLba s.secCache then
      modify fun s => { s with secCacheDirty := false }
      pure true
    else pure false
  else pure true

def secRead (lba : Nat) : Prog Drv Bool := do
  let s ← asks id
  if s.secCacheLba = lba then pure true
  else if ← secFlush then
    match ← ataRead lba with
    | some b =>
        modify fun s => { s with secCache := b, secCacheLba := lba }
        pure true
    | none => pure false
  else pure false

def cached : Prog Drv Sector := asks Drv.secCache

/-- Patch the cached sector in place and mark it dirty. -/
def secUpdate (f : Sector → Sector) : Prog Drv Unit :=
  modify fun s => { s with secCache := f s.secCache, secCacheDirty := true }

def Vol.clusterToLba (v : Vol) (cluster : Nat) : Nat :=
  u32 (v.dataLba + sub32 cluster 2 * v.secPerClus)

def Vol.fatLbaForCluster (v : Vol) (cluster : Nat) : Nat :=
  u32 (v.fatLba + u32 (cluster * 4) / 512)

def fatOffsetInSector (cluster : Nat) : Nat := u32 (cluster * 4) % 512

/-- An entry that cannot be read counts as `FAT32_BAD`. -/
def fatGet (cluster : Nat) : Prog Drv Nat := do
  let c ← getStore
  if ← secRead (c.vol.fatLbaForCluster cluster) then
    let b ← cached
    pure (b.word (fatOffsetInSector cluster) 4 % 268435456)
  else pure 0x0FFFFFF7

/-- Write the entry of copy `f` of the FAT; an answer is an early `return`. -/
def fatSetCopy (v : Vol) (cluster value f : Nat) : Prog Drv (Option Bool) := do
  if ← secRead (u32 (u32 (v.fatLba + f * v.fatSize) + u32 (cluster * 4) / 512)) then
    secUpdate fun b => b.patch (fatOffsetInSector cluster) (leBytes 4 (value % 268435456))
    if ← secFlush then pure none else pure (some false)
  else pure (some false)

def fatSet (cluster value : Nat) : Prog Drv Bool := do
  let c ← getStore
  let early ← forUntil (fatSetCopy c.vol cluster value) c.vol.numFats 0
  pure (early.getD true)

/-- Zero the sectors of a cluster, past the cache. -/
def zeroSectors (lba count : Nat) : Prog Drv Unit := do
  let _ ← forUntil (α := Unit) (fun s => do
    let _ ← ataWrite (u32 (lba + s)) (Block.zero 512)
    pure none) count 0

/-- Allocate a free cluster and link it after `prev` (0 = start of chain); the
answer 0 means that the disk is full. -/
def fatAlloc (prev : Nat) : Prog Drv Nat := do
  let c ← getStore
  let found ← forUntil (fun k => do
    if (← fatGet k) = 0 then
      let _ ← fatSet k 0x0FFFFFFF
      let _ ← if prev = 0 then pure true else fatSet prev k
      zeroSectors (c.vol.clusterToLba k) c.vol.secPerClus
      pure (some k)
    else pure none) (u32 (c.vol.totalClusters + 2) - 2) 2
  pure (found.getD 0)

def fatFreeChain (start : Nat) : Prog Drv Unit :=
  loop (fun c => do
    if 2 ≤ c ∧ c < 0x0FFFFFF8 then
      let next ← fatGet c
      let _ ← fatSet c 0
      pure (.inl next)
    else pure (.inr ())) start

def dirReadEntry (pos : DirPos) : Prog Drv (Option DirEntry) := do
  if ← secRead pos.lba then
    let b ← cached
    pure (some (b.slice pos.off 32))
  else pure none

def dirWriteEntry (pos : DirPos) (e : DirEntry) : Prog Drv Bool := do
  if ← secRead pos.lba then
    secUpdate fun b => b.patch pos.off e.toList
    secFlush
  else pure false

/-- Advance to the next directory entry; `false` at the end of the chain. -/
def dirNext (pos : DirPos) : Prog Drv (Bool × DirPos) := do
  let c ← getStore
  let v := c.vol
  let entryIdx := u32 (pos.entryIdx + 1)
  if pos.off + 32 < 512 then
    pure (true, { pos with entryIdx, off := pos.off + 32 })
  else
    let lba := u32 (pos.lba + 1)
    if sub32 lba (v.clusterToLba pos.cluster) % v.secPerClus = 0 ∧
        lba ≠ v.clusterToLba pos.cluster then
      let next ← fatGet pos.cluster
      if 0x0FFFFFF8 ≤ next ∨ next < 2 then
        pure (false, { pos with entryIdx, lba, off := 0 })
      else pure (true, ⟨next, entryIdx, v.clusterToLba next, 0⟩)
    else pure (true, { pos with entryIdx, lba, off := 0 })

def dirPosInit (v : Vol) (cluster : Nat) : DirPos :=
  ⟨cluster, 0, v.clusterToLba cluster, 0⟩

/-- How a scan of a directory ends: the step left it, an entry could not be
read, or the chain ended. -/
inductive ScanEnd (L R : Type) where
  | stop (answer : R)
  | ioError (state : L)
  | endOfDir (state : L) (pos : DirPos)

/-- The loop shared by the driver's directory scans: read the entry at `pos`,
let `step` look at it, go on to the next one. -/
def scanDir {L R : Type} (step : L → DirPos → DirEntry → L ⊕ R) (st : L)
    (pos : DirPos) : Prog Drv (ScanEnd L R) :=
  loop (fun (p : L × DirPos) => do
    match ← dirReadEntry p.2 with
    | none => pure (.inr (.ioError p.1))
    | some e => match step p.1 p.2 e with
      | .inr r => pure (.inr (.stop r))
      | .inl st' => do
          let next ← dirNext p.2
          if next.1 then pure (.inl (st', next.2))
          else pure (.inr (.endOfDir st' next.2))) (st, pos)

def fToupper (c : UInt8) : UInt8 := if 0x61 ≤ c ∧ c ≤ 0x7A then c - 32 else c

/-- The checksum that the pieces of a long name carry. -/
def lfnChecksum (name83 : List UInt8) : UInt8 :=
  name83.foldl (fun (sum b : UInt8) => (if sum &&& 1 != 0 then (0x80 : UInt8) else 0) + (sum >>> 1) + b) 0

/-- The name up to the last dot, and what follows the dot. -/
def splitDot (name : CStr) : CStr × CStr :=
  match name.reverse.span (· != 0x2E) with
  | (_, []) => (name, [])
  | (ext, _ :: stem) => (stem.reverse, ext.reverse)

/-- Upper-case characters of the stem that survive, at most `k` of them. -/
def stem83 (name : CStr) (k : Nat) : List UInt8 :=
  (((splitDot name).1.map fToupper).filter fun c => c != 0x20 && c != 0x2E).take k

/-- Pad with spaces to `k` bytes. -/
def padTo (k : Nat) (bs : List UInt8) : List UInt8 :=
  bs ++ List.replicate (k - bs.length) 0x20

/-- Build a short 8.3 name from a long name: upper case, truncated. -/
def make83 (name : CStr) : List UInt8 :=
  padTo 8 (stem83 name 8) ++ padTo 3 (((splitDot name).2.map fToupper).take 3)

/-- The decimal digits of `n`. -/
def decimal (n : Nat) : List UInt8 :=
  (Nat.toDigits 10 n).map fun c => UInt8.ofNat c.toNat

/-- The short name with the numeric tail `~n`. -/
def make83Tail (name : CStr) (n : Nat) : List UInt8 :=
  padTo 8 (stem83 name (7 - (decimal n).length) ++ 0x7E :: decimal n) ++
    (make83 name).drop 8

def dir83Exists (dirCluster : Nat) (name83 : List UInt8) : Prog Drv Bool := do
  let c ← getStore
  let r ← scanDir (fun (_ : Unit) _ e =>
    if e.first = 0 then .inr false
    else if e.first = 0xE5 ∨ e.isLfn then .inl ()
    else if e.name = name83 then .inr true
    else .inl ()) () (dirPosInit c.vol dirCluster)
  match r with
  | .stop b => pure b
  | _ => pure false

/-- A short name for `name` that is new in the directory, with a numeric tail
where the plain one collides. -/
def make83Unique (dirCluster : Nat) (name : CStr) : Prog Drv (List UInt8) := do
  if ← dir83Exists dirCluster (make83 name) then
    let found ← forUntil (fun n => do
      if ← dir83Exists dirCluster (make83Tail name n) then pure none
      else pure (some (make83Tail name n))) 9999 1
    pure (found.getD (make83 name))
  else pure (make83 name)

/-- `char lfn_buf[256]`. -/
abbrev NameBuf := Nat → UInt8

def NameBuf.str (buf : NameBuf) : CStr :=
  ((List.range 256).map buf).takeWhile (· != 0)

/-- The low bytes of the 13 characters of a long-name piece. -/
def lfnExtract (e : DirEntry) : List UInt8 :=
  (List.range 5).map (fun j => e.byte (1 + 2 * j)) ++
    (List.range 6).map (fun j => e.byte (14 + 2 * j)) ++
    (List.range 2).map (fun j => e.byte (28 + 2 * j))

/-- Copy the characters of a piece into the buffer, up to a terminator and
never past byte 254. -/
def lfnStore (buf : NameBuf) (at_ : Nat) : List UInt8 → NameBuf
  | [] => buf
  | ch :: rest =>
      if at_ < 255 then
        if ch = 0 then Function.update buf at_ ch
        else lfnStore (Function.update buf at_ ch) (at_ + 1) rest
      else buf

/-- `order & 0x1F`. -/
def DirEntry.seq (e : DirEntry) : Nat := (e.first &&& 0x1F).toNat

/-- `order & 0x40`: the piece that comes first on disk. -/
def DirEntry.isLast (e : DirEntry) : Bool := e.first &&& 0x40 != 0

/-- What a piece does to the name buffer of a scan. -/
def lfnFeed (buf : NameBuf) (e : DirEntry) : NameBuf :=
  let buf := if e.isLast then fun _ => 0 else buf
  if 1 ≤ e.seq ∧ e.seq ≤ 20 then lfnStore buf ((e.seq - 1) * 13) (lfnExtract e) else buf

/-- The local variables of `dir_find`. -/
structure FindState where
  lfnBuf : NameBuf
  lfnParts : Nat
  buildingLfn : Bool
  lfnStart : DirPos

def sameName (a b : CStr) : Bool := a.map fToupper == b.map fToupper

def dirFindStep (name : CStr) (st : FindState) (pos : DirPos) (e : DirEntry) :
    FindState ⊕ Option (DirEntry × DirPos × DirPos) :=
  if e.first = 0 then .inr none
  else if e.first = 0xE5 then .inl { st with buildingLfn := false, lfnParts := 0 }
  else if e.isLfn then
    let st' : FindState :=
      if e.isLast then { st with lfnParts := e.seq, buildingLfn := true, lfnStart := pos }
      else st
    if st'.buildingLfn then .inl { st' with lfnBuf := lfnFeed st.lfnBuf e } else .inl st'
  else
    let found := (st.buildingLfn && decide (0 < st.lfnParts) && sameName name st.lfnBuf.str) ||
      (!st.buildingLfn && decide (e.name = make83 name))
    if found then .inr (some (e, pos, if st.buildingLfn then st.lfnStart else pos))
    else .inl { st with buildingLfn := false, lfnParts := 0, lfnStart := pos }

/-- Scan a directory for a name.  The answer is the short entry, its position
and the position where its long name starts. -/
def dirFind (dirCluster : Nat) (name : CStr) :
    Prog Drv (Option (DirEntry × DirPos × DirPos)) := do
  let c ← getStore
  let pos := dirPosInit c.vol dirCluster
  let r ← scanDir (dirFindStep name) ⟨fun _ => 0, 0, false, pos⟩ pos
  match r with
  | .stop found => pure found
  | _ => pure none

/-- The first component of a path, cut to the name buffer. -/
def pathComp (p : CStr) : CStr := (p.takeWhile (· != 0x2F)).take 255

def pathRest (p : CStr) : CStr := (p.dropWhile (· != 0x2F)).drop 1

/-- The cluster that a directory entry leads to. -/
def Vol.dirTarget (v : Vol) (e : DirEntry) : Nat :=
  if e.cluster = 0 then v.rootCluster else e.cluster

/-- One round of `path_resolve_parent`: the directory reached so far and the
rest of the path. -/
def resolveStep (v : Vol) (p : Nat × CStr) :
    Prog Drv ((Nat × CStr) ⊕ (Nat × CStr)) := do
  if p.2 = [] then pure (.inr (p.1, []))
  else if pathRest p.2 = [] then pure (.inr (p.1, pathComp p.2))
  else
    match ← dirFind p.1 (pathComp p.2) with
    | none => pure (.inr (0, []))
    | some (e, _, _) =>
        if e.isDir then pure (.inl (v.dirTarget e, pathRest p.2))
        else pure (.inr (0, []))

/-- The cluster of the parent directory and the final component; cluster 0 is
an error. -/
def pathResolveParent (path : CStr) : Prog Drv (Nat × CStr) := do
  let c ← getStore
  match path with
  | 0x2F :: rest => loop (resolveStep c.vol) (c.vol.rootCluster, rest)
  | _ => pure (0, [])

/-- What `path_stat` stores through its pointers. -/
structure PathInfo where
  entry : DirEntry
  pos : DirPos
  dirCluster : Nat

def rootEntry (v : Vol) : DirEntry :=
  DirEntry.setCluster ((Block.zero 32).patch 11 [0x10]) v.rootCluster

def pathStat (path : CStr) : Prog Drv (Option PathInfo) := do
  let c ← getStore
  if path = [0x2F] then pure (some ⟨rootEntry c.vol, ⟨0, 0, 0, 0⟩, 0⟩)
  else
    let (dirCluster, name) ← pathResolveParent path
    if dirCluster = 0 ∨ name = [] then pure none
    else
      match ← dirFind dirCluster name with
      | none => pure none
      | some (e, pos, _) => pure (some ⟨e, pos, dirCluster⟩)

end Chimaera.Fat32
