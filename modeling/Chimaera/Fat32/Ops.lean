/-
`fat32_ops.c`: directory entry creation and the public file and directory
operations.
-/
import Chimaera.Fat32.Core

namespace Chimaera.Fat32

open Prog

/-- Character `ci` of a long name on disk: the byte, then a terminator, then
padding. -/
def lfnChar (name : CStr) (ci : Nat) : List UInt8 :=
  if ci < name.length then [name.getD ci 0, 0]
  else if ci = name.length then [0, 0]
  else [0xFF, 0xFF]

/-- Characters `from_`, ..., `from_ + k - 1`. -/
def lfnChars (name : CStr) (from_ k : Nat) : List UInt8 :=
  (List.range k).flatMap fun j => lfnChar name (from_ + j)

/-- Piece `i` (from 1) of the `count` pieces of a long name. -/
def lfnEntry (name : CStr) (checksum : UInt8) (count i : Nat) : DirEntry :=
  (((((Block.zero 32).patch 0
    [UInt8.ofNat i ||| (if i = count then 0x40 else 0)]).patch 11 [0x0F]).patch 13
    [checksum]).patch 1 (lfnChars name ((i - 1) * 13) 5)).patch 14
    (lfnChars name ((i - 1) * 13 + 5) 6) |>.patch 28
    (lfnChars name ((i - 1) * 13 + 11) 2)

/-- A fresh short entry, with the constant modification date. -/
def shortEntry (name83 : List UInt8) (attr : UInt8) (cluster size : Nat) : DirEntry :=
  (DirEntry.setSize (DirEntry.setCluster
    (((Block.zero 32).patch 0 (name83.take 11)).patch 11 [attr]) cluster) size).patch 24
    (leBytes 2 0x5B21)

/-- Pieces `i`, `i - 1`, ..., 1 of a long name, from `pos` on. -/
def writeRun (name : CStr) (checksum : UInt8) (count : Nat) :
    Nat → DirPos → Prog Drv DirPos
  | 0, pos => pure pos
  | i + 1, pos => do
      let _ ← dirWriteEntry pos (lfnEntry name checksum count (i + 1))
      let next ← dirNext pos
      writeRun name checksum count i next.2

structure RunState where
  freeRun : Nat
  runStart : DirPos

/-- Count the free slots in a row; stop when `need` of them are found. -/
def freeRunStep (need : Nat) (st : RunState) (pos : DirPos) (e : DirEntry) :
    RunState ⊕ DirPos :=
  if e.first = 0 ∨ e.first = 0xE5 then
    let runStart := if st.freeRun = 0 then pos else st.runStart
    if need ≤ st.freeRun + 1 then .inr runStart
    else .inl ⟨st.freeRun + 1, runStart⟩
  else .inl { st with freeRun := 0 }

/-- Where a run of `need` slots goes; the directory grows by a cluster when its
chain ends first. -/
def findSpace (dirCluster need : Nat) : Prog Drv (Option DirPos) := do
  let c ← getStore
  let pos := dirPosInit c.vol dirCluster
  match ← scanDir (freeRunStep need) ⟨0, pos⟩ pos with
  | .stop runStart => pure (some runStart)
  | .ioError _ => pure none
  | .endOfDir st last => do
      let fresh ← fatAlloc last.cluster
      if fresh = 0 then pure none
      else pure (some (if st.freeRun = 0 then dirPosInit c.vol fresh else st.runStart))

def lfnCount (name : CStr) : Nat := (name.length + 12) / 13

/-- Add an entry with its long name; the answer is the position of the short
entry. -/
def dirAddEntry (dirCluster : Nat) (name : CStr) (attr : UInt8)
    (firstCluster fileSize : Nat) : Prog Drv (Option DirPos) := do
  let name83 ← make83Unique dirCluster name
  match ← findSpace dirCluster (lfnCount name + 1) with
  | none => pure none
  | some start => do
      let pos ← writeRun name (lfnChecksum name83) (lfnCount name) (lfnCount name) start
      let _ ← dirWriteEntry pos (shortEntry name83 attr firstCluster fileSize)
      pure (some pos)

def Store.setFd (c : Store) (fd : Nat) (f : Fd) : Store :=
  { c with fds := Function.update c.fds fd f }

def putFd (fd : Nat) (f : Fd) : Prog Drv Unit := modifyStore fun c => c.setFd fd f

def Store.freeFd (c : Store) : Option Nat :=
  (List.range 16).find? fun i => !(c.fds i).isOpen

/-- `fat32_open` on an existing file: take the slot, and truncate for writing.
The slot stays taken when the disk is full. -/
def openExisting (fd : Nat) (write : Bool) (p : PathInfo) : Prog Drv Int := do
  let cluster := p.entry.cluster
  let f : Fd :=
    ⟨true, write, cluster, p.dirCluster, p.pos.lba, p.pos.off, p.entry.size, 0, cluster⟩
  putFd fd f
  if write then
    let _ ← if 2 ≤ cluster then fatFreeChain cluster else pure ()
    let fresh ← fatAlloc 0
    if fresh = 0 then pure Err.full.code
    else
      putFd fd { f with cluster := fresh, curCluster := fresh, size := 0, pos := 0 }
      let _ ← dirWriteEntry p.pos (DirEntry.setSize (DirEntry.setCluster p.entry fresh) 0)
      pure fd
  else pure fd

/-- `fat32_open` for writing on a path that names nothing. -/
def openCreate (fd : Nat) (path : CStr) : Prog Drv Int := do
  let (parent, name) ← pathResolveParent path
  if parent = 0 then pure Err.notFound.code
  else
    let fresh ← fatAlloc 0
    if fresh = 0 then pure Err.full.code
    else
      match ← dirAddEntry parent name 0x20 fresh 0 with
      | none =>
          fatFreeChain fresh
          pure Err.full.code
      | some pos =>
          putFd fd ⟨true, true, fresh, parent, pos.lba, pos.off, 0, 0, fresh⟩
          pure fd

def fat32Open (path : CStr) (write : Bool) : Prog Drv Int := do
  let c ← getStore
  if !c.volMounted then pure Err.noDev.code
  else if write && c.volReadonly then pure Err.io.code
  else
    match c.freeFd with
    | none => pure Err.noMem.code
    | some fd => do
        match ← pathStat path with
        | some p =>
            if p.entry.isDir then pure Err.isDir.code
            else openExisting fd write p
        | none =>
            if write then openCreate fd path else pure Err.notFound.code

/-- `fd < 0 || fd >= FAT32_MAX_FD || !fds[fd].open`, negated. -/
def Store.fdOpen (c : Store) (fd : Int) : Bool :=
  decide (0 ≤ fd) && decide (fd < 16) && (c.fds fd.toNat).isOpen

def Vol.clusterSize (v : Vol) : Nat := u32 (v.secPerClus * 512)

/-- One round of `fat32_read`: `out` holds the bytes read so far. -/
def readStep (fd len : Nat) (out : List UInt8) :
    Prog Drv (List UInt8 ⊕ List UInt8) := do
  let c ← getStore
  let v := c.vol
  let f := c.fds fd
  if len ≤ out.length then pure (.inr out)
  else if f.curCluster < 2 ∨ 0x0FFFFFF8 ≤ f.curCluster then pure (.inr out)
  else
    let clusOff := f.pos % v.clusterSize
    if ← secRead (u32 (v.clusterToLba f.curCluster + clusOff / 512)) then
      let b ← cached
      let canRead := min (512 - clusOff % 512) (len - out.length)
      let pos := u32 (f.pos + canRead)
      putFd fd { f with pos }
      if pos % v.clusterSize = 0 then
        let next ← fatGet f.curCluster
        putFd fd { f with pos, curCluster := next }
        pure (.inl (out ++ (b.toList.drop (clusOff % 512)).take canRead))
      else pure (.inl (out ++ (b.toList.drop (clusOff % 512)).take canRead))
    else pure (.inr out)

/-- The answer of `fat32_read` with the bytes it puts into the buffer. -/
def fat32Read (fd : Int) (len : Nat) : Prog Drv (Int × List UInt8) := do
  let c ← getStore
  if !c.fdOpen fd then pure (Err.notFound.code, [])
  else
    let f := c.fds fd.toNat
    if f.size ≤ f.pos then pure (0, [])
    else
      let out ← loop (readStep fd.toNat (min len (f.size - f.pos))) []
      pure (i32 out.length, out)

/-- The cluster behind `cur`, a new one where the chain ends; 0 when the disk is
full. -/
def writeNext (cur : Nat) : Prog Drv Nat := do
  let next ← fatGet cur
  if 0x0FFFFFF8 ≤ next ∨ next < 2 then fatAlloc cur else pure next

/-- Store what fits into the sector at the cursor of `f`. -/
def writeChunk (fd : Nat) (buf : List UInt8) (written : Nat) (v : Vol) (f : Fd) :
    Prog Drv (Nat ⊕ Nat) := do
  let clusOff := f.pos % v.clusterSize
  putFd fd f
  if ← secRead (u32 (v.clusterToLba f.curCluster + clusOff / 512)) then
    let canWrite := min (512 - clusOff % 512) (buf.length - written)
    secUpdate fun b => b.patch (clusOff % 512) ((buf.drop written).take canWrite)
    if ← secFlush then
      let pos := u32 (f.pos + canWrite)
      putFd fd { f with pos, size := max f.size pos }
      pure (.inl (written + canWrite))
    else pure (.inr written)
  else pure (.inr written)

/-- One round of `fat32_write`: `written` bytes of `buf` are stored. -/
def writeStep (fd : Nat) (buf : List UInt8) (written : Nat) :
    Prog Drv (Nat ⊕ Nat) := do
  let c ← getStore
  let f := c.fds fd
  if buf.length ≤ written then pure (.inr written)
  else if f.pos % c.vol.clusterSize = 0 ∧ 0 < f.pos then
    let cur ← writeNext f.curCluster
    if cur = 0 then pure (.inr written)
    else writeChunk fd buf written c.vol { f with curCluster := cur }
  else writeChunk fd buf written c.vol f

def fat32Write (fd : Int) (buf : List UInt8) : Prog Drv Int := do
  let c ← getStore
  if !c.fdOpen fd || !(c.fds fd.toNat).write then pure Err.notFound.code
  else
    let written ← loop (writeStep fd.toNat buf) 0
    pure (i32 written)

/-- The loop of `fat32_seek` over the chain: `true` when it got `n` links far. -/
def seekChain (fd : Nat) : Nat → Prog Drv Bool
  | 0 => pure true
  | n + 1 => do
      let c ← getStore
      let f := c.fds fd
      let next ← fatGet f.curCluster
      if 0x0FFFFFF8 ≤ next ∨ next < 2 then pure false
      else
        putFd fd { f with curCluster := next }
        seekChain fd n

def fat32Seek (fd : Int) (pos : Nat) : Prog Drv Int := do
  let c ← getStore
  if !c.fdOpen fd then pure Err.notFound.code
  else
    let f := c.fds fd.toNat
    if f.size < pos then pure Err.notFound.code
    else
      putFd fd.toNat { f with curCluster := f.cluster }
      if ← seekChain fd.toNat (pos / c.vol.clusterSize) then
        let c' ← getStore
        putFd fd.toNat { c'.fds fd.toNat with pos }
        pure 0
      else pure Err.notFound.code

def fat32Close (fd : Int) : Prog Drv Unit := do
  let c ← getStore
  if !c.fdOpen fd then pure ()
  else
    let f := c.fds fd.toNat
    if f.write then
      if ← secRead f.dirLba then
        secUpdate fun b => (((b.patch (f.dirOffset + 28) (leBytes 4 f.size)).patch
          (f.dirOffset + 20) (leBytes 2 (f.cluster / 65536))).patch
          (f.dirOffset + 26) (leBytes 2 f.cluster))
        let _ ← secFlush
        putFd fd.toNat Fd.closed
      else putFd fd.toNat Fd.closed
    else putFd fd.toNat Fd.closed

def fat32Filesize (path : CStr) : Prog Drv Int := do
  match ← pathStat path with
  | none => pure (-1)
  | some p => if p.entry.isDir then pure (-1) else pure (i32 p.entry.size)

/-- The `.` and `..` entries of a new directory. -/
def dotEntry (name83 : List UInt8) (cluster : Nat) : DirEntry :=
  DirEntry.setCluster (((Block.zero 32).patch 0 name83).patch 11 [0x10]) cluster

/-- `".          "` -/
def dotName : List UInt8 := 0x2E :: List.replicate 10 0x20

/-- `"..         "` -/
def dotdotName : List UInt8 := 0x2E :: 0x2E :: List.replicate 9 0x20

def fat32Mkdir (path : CStr) : Prog Drv Int := do
  let c ← getStore
  if !c.volMounted then pure Err.noDev.code
  else
    match ← pathStat path with
    | some _ => pure Err.exists_.code
    | none => do
        let (parent, name) ← pathResolveParent path
        if parent = 0 ∨ name = [] then pure Err.notFound.code
        else
          let fresh ← fatAlloc 0
          if fresh = 0 then pure Err.full.code
          else
            let parentClus := if parent = c.vol.rootCluster then 0 else parent
            if ← secRead (c.vol.clusterToLba fresh) then
              secUpdate fun b => (b.patch 0 (dotEntry dotName fresh).toList).patch 32
                (dotEntry dotdotName parentClus).toList
              let _ ← secFlush
              match ← dirAddEntry parent name 0x10 fresh 0 with
              | none =>
                  fatFreeChain fresh
                  pure Err.full.code
              | some _ => pure 0
            else
              fatFreeChain fresh
              pure Err.io.code

/-- `fat32_dirent_t`. -/
structure Dirent where
  name : CStr
  size : Nat
  attr : UInt8
  isDir : Bool
  cluster : Nat
deriving DecidableEq

/-- `NAME.EXT` of a short entry. -/
def DirEntry.shortName (e : DirEntry) : CStr :=
  let stem := (e.name.take 8).takeWhile (· != 0x20)
  let ext := (e.name.drop 8).takeWhile (· != 0x20)
  (if ext = [] then stem else stem ++ 0x2E :: ext).takeWhile (· != 0)

/-- `name[0] == '.' && (name[1] == ' ' || name[1] == '.')`. -/
def DirEntry.isDot (e : DirEntry) : Bool :=
  e.byte 0 == 0x2E && (e.byte 1 == 0x20 || e.byte 1 == 0x2E)

def DirEntry.dirent (e : DirEntry) (name : CStr) : Dirent :=
  ⟨name, e.size, e.attr, e.isDir, e.cluster⟩

/-- The local variables of `fat32_readdir`, with the entries handed to the
callback. -/
structure ReaddirState where
  lfnBuf : NameBuf
  buildingLfn : Bool
  out : List Dirent

def readdirStep (st : ReaddirState) (_ : DirPos) (e : DirEntry) :
    ReaddirState ⊕ List Dirent :=
  if e.first = 0 then .inr st.out
  else if e.first = 0xE5 then .inl { st with buildingLfn := false }
  else if e.isLfn then
    if st.buildingLfn || e.isLast then
      .inl { st with lfnBuf := lfnFeed st.lfnBuf e, buildingLfn := true }
    else .inl st
  else if e.isDot then .inl { st with buildingLfn := false }
  else
    let name := if st.buildingLfn && st.lfnBuf 0 != 0 then st.lfnBuf.str else e.shortName
    .inl { st with buildingLfn := false, out := st.out ++ [e.dirent name] }

/-- The entries of the directory that starts at `cluster`. -/
def readdirCluster (cluster : Nat) : Prog Drv (List Dirent) := do
  let c ← getStore
  match ← scanDir readdirStep ⟨fun _ => 0, false, []⟩ (dirPosInit c.vol cluster) with
  | .stop out => pure out
  | .ioError st => pure st.out
  | .endOfDir st _ => pure st.out

/-- The answer of `fat32_readdir` with the entries it hands to the callback. -/
def fat32Readdir (path : CStr) : Prog Drv (Int × List Dirent) := do
  let c ← getStore
  if !c.volMounted then pure (Err.noDev.code, [])
  else
    match ← pathStat path with
    | none => pure (Err.notFound.code, [])
    | some p =>
        if !p.entry.isDir then pure (Err.notDir.code, [])
        else
          let out ← readdirCluster (c.vol.dirTarget p.entry)
          pure (out.length, out)

def lastComp (path : CStr) : CStr := (path.reverse.takeWhile (· != 0x2F)).reverse

def fat32Stat (path : CStr) : Prog Drv (Int × Option Dirent) := do
  let c ← getStore
  if !c.volMounted then pure (Err.noDev.code, none)
  else
    match ← pathStat path with
    | none => pure (Err.notFound.code, none)
    | some p => pure (0, some (p.entry.dirent (lastComp path)))

/-- Mark the slots from `del` up to `last` as deleted. -/
def unlinkStep (last del : DirPos) : Prog Drv (DirPos ⊕ Unit) := do
  if ← secRead del.lba then
    secUpdate fun b => b.patch del.off [0xE5]
    let _ ← secFlush
    if del.lba = last.lba ∧ del.off = last.off then pure (.inr ())
    else
      let next ← dirNext del
      if next.1 then pure (.inl next.2) else pure (.inr ())
  else pure (.inr ())

def fat32Unlink (path : CStr) : Prog Drv Int := do
  let c ← getStore
  if !c.volMounted then pure Err.noDev.code
  else
    let (dirCluster, name) ← pathResolveParent path
    if dirCluster = 0 ∨ name = [] then pure Err.notFound.code
    else
      match ← dirFind dirCluster name with
      | none => pure Err.notFound.code
      | some (e, pos, lfnStart) =>
          if e.isDir then pure Err.isDir.code
          else
            let _ ← if 2 ≤ e.cluster then fatFreeChain e.cluster else pure ()
            loop (unlinkStep pos) lfnStart
            pure 0

/-- The copy loop: 512 bytes at a time, whatever the write answers. -/
def copyStep (src dst : Int) (_ : Unit) : Prog Drv (Unit ⊕ Unit) := do
  let (n, bytes) ← fat32Read src 512
  if 0 < n then
    let _ ← fat32Write dst bytes
    pure (.inl ())
  else pure (.inr ())

def fat32Copy (src dst : CStr) : Prog Drv Int := do
  let c ← getStore
  if !c.volMounted then pure Err.noDev.code
  else
    let srcFd ← fat32Open src false
    if srcFd < 0 then pure Err.notFound.code
    else
      let dstFd ← fat32Open dst true
      if dstFd < 0 then
        fat32Close srcFd
        pure Err.full.code
      else
        loop (copyStep srcFd dstFd) ()
        fat32Close srcFd
        fat32Close dstFd
        pure 0

def fat32Rename (src dst : CStr) : Prog Drv Int := do
  let c ← getStore
  if !c.volMounted then pure Err.noDev.code
  else
    let err ← fat32Copy src dst
    if err ≠ 0 then pure err else fat32Unlink src

/-- `kmalloc` of the bump allocator: whether the 2 MB arena has room. -/
def kmalloc (size : Nat) : Prog Drv Bool := do
  let c ← getStore
  let heapPtr := u32 (c.heapPtr + u32 (size + 3) / 4 * 4)
  if 2097152 < heapPtr then pure false
  else
    modifyStore fun c => { c with heapPtr }
    pure true

def fat32WriteFile (path : CStr) (data : List UInt8) : Prog Drv Int := do
  let fd ← fat32Open path true
  if fd < 0 then pure fd
  else
    let n ← fat32Write fd data
    fat32Close fd
    pure (if n < 0 then Err.io.code else 0)

/-- `fat32_append_file`: the old content is read into a zeroed buffer and the
whole file is written again. -/
def fat32AppendFile (path : CStr) (data : List UInt8) : Prog Drv Int := do
  let sz ← fat32Filesize path
  if sz < 0 then fat32WriteFile path data
  else
    let oldSz := sz.toNat
    if ← kmalloc (u32 (oldSz + data.length + 1)) then
      let fd ← fat32Open path false
      let old ←
        if 0 ≤ fd then do
          let (_, bytes) ← fat32Read fd oldSz
          fat32Close fd
          pure bytes
        else pure []
      let buf := old ++ List.replicate (oldSz - old.length) 0 ++ data
      fat32WriteFile path (buf.take (u32 (oldSz + data.length)))
    else pure Err.noMem.code

def fat32ReadFile (path : CStr) : Prog Drv (Option (List UInt8)) := do
  let sz ← fat32Filesize path
  if sz < 0 then pure none
  else if ← kmalloc (u32 (sz.toNat + 1)) then
    let fd ← fat32Open path false
    if fd < 0 then pure none
    else
      let (n, bytes) ← fat32Read fd sz.toNat
      fat32Close fd
      pure (if n < 0 then none else some bytes)
  else pure none

end Chimaera.Fat32
