/-
`fat32_format` and `fat32_mount`.  The messages on the screen and the serial log
are left out.
-/
import Chimaera.Fat32.Fsck

namespace Chimaera.Fat32

open Prog

def patchAll {n : Nat} (b : Block n) (fields : List (Nat × List UInt8)) : Block n :=
  fields.foldl (fun b f => b.patch f.1 f.2) b

/-- `ata_write` of one sector's content to `n` sectors; failures go unnoticed. -/
def writeAll (base n : Nat) (b : Sector) : Prog Drv Unit := do
  let _ ← forUntil (α := Unit) (fun s => do
    let _ ← ataWrite (u32 (base + s)) b
    pure none) n 0

/-- `"CHIMAERA"` -/
def oemName : List UInt8 := [0x43, 0x48, 0x49, 0x4D, 0x41, 0x45, 0x52, 0x41]

/-- `"FAT32"` -/
def fat32Type : List UInt8 := [0x46, 0x41, 0x54, 0x33, 0x32]

/-- The fields of `fat32_bpb_t` that `fat32_format` stores, with the signature. -/
def bpbFields (lbaStart totalSectors fatSize : Nat) : List (Nat × List UInt8) :=
  [(0, [0xEB, 0x58, 0x90]),
    (3, oemName),
    (11, leBytes 2 512),               -- bytes_per_sector
    (13, [8]),                         -- sectors_per_cluster
    (14, leBytes 2 32),                -- reserved_sectors
    (16, [2]),                         -- num_fats
    (17, leBytes 2 0),                 -- root_entry_count
    (19, leBytes 2 0),                 -- total_sectors_16
    (21, [0xF8]),                      -- media_type
    (22, leBytes 2 0),                 -- fat_size_16
    (24, leBytes 2 63),                -- sectors_per_track
    (26, leBytes 2 255),               -- num_heads
    (28, leBytes 4 lbaStart),          -- hidden_sectors
    (32, leBytes 4 totalSectors),      -- total_sectors_32
    (36, leBytes 4 fatSize),           -- fat_size_32
    (40, leBytes 2 0),                 -- ext_flags
    (42, leBytes 2 0),                 -- fs_version
    (44, leBytes 4 2),                 -- root_cluster
    (48, leBytes 2 1),                 -- fs_info
    (50, leBytes 2 6),                 -- backup_boot_sector
    (64, [0x80]),                      -- drive_number
    (66, [0x29]),                      -- boot_sig
    (67, leBytes 4 0xC0FFEE42),        -- volume_id
    (71, oemName ++ [0x20, 0x20, 0x20]),
    (82, fat32Type ++ [0x20, 0x20, 0x20]),
    (510, [0x55, 0xAA])]

/-- The size of a FAT that `fat32_format` chooses for a volume. -/
def formatFatSize (totalSectors : Nat) : Nat :=
  let totalClusters := sub32 totalSectors 32 / 8
  let fatSize := u32 (u32 (totalClusters * 4) + 511) / 512
  u32 (fatSize + 7) / 8 * 8

def fat32Format (lbaStart totalSectors : Nat) : Prog Drv Bool := do
  let fatSize := formatFatSize totalSectors
  let boot := patchAll (Block.zero 512) (bpbFields lbaStart totalSectors fatSize)
  if ← ataWrite lbaStart boot then
    let fatLba := u32 (lbaStart + 32)
    writeAll fatLba fatSize (Block.zero 512)
    writeAll (u32 (fatLba + fatSize)) fatSize (Block.zero 512)
    let _ ← ataWrite fatLba fatHead
    let _ ← ataWrite (u32 (fatLba + fatSize)) fatHead
    writeAll (u32 (fatLba + u32 (2 * fatSize))) 8 (Block.zero 512)
    pure true
  else pure false

def Block.signed (b : Sector) : Bool := b.byte 510 == 0x55 && b.byte 511 == 0xAA

/-- `bpb->fs_type` starts with `"FAT32"`. -/
def Block.isFat32 (b : Sector) : Bool := (b.slice 82 5 : Block 5).toList == fat32Type

/-- `lba_start` of the first FAT32 partition of a boot record, or 0. -/
def Block.partition (mbr : Sector) : Nat :=
  match (List.range 4).find? fun i =>
      mbr.byte (446 + 16 * i + 4) == 0x0B || mbr.byte (446 + 16 * i + 4) == 0x0C with
  | some i => mbr.word (446 + 16 * i + 8) 4
  | none => 0

/-- Format the volume where its first sector is `bad`, and read that again. -/
def reformatIf (bad : Bool) (lba total : Nat) (b : Sector) : Prog Drv (Option Sector) := do
  if bad then
    if ← fat32Format lba total then ataRead lba else pure none
  else pure (some b)

/-- The part of `fat32_mount` that ends up with a boot sector, and its
address. -/
def mountBoot : Prog Drv (Option (Nat × Sector)) := do
  let s ← asks id
  let total := u32 s.sectors
  if !s.present then pure none
  else
    match ← ataRead 0 with
    | none => pure none
    | some mbr => do
        match ← reformatIf (!Block.signed mbr) 0 (if total = 0 then 131072 else total) mbr with
        | none => pure none
        | some mbr => do
            let lba := Block.partition mbr
            match ← ataRead lba with
            | none => pure none
            | some boot => do
                match ← reformatIf (!Block.signed boot) lba (sub32 total lba) boot with
                | none => pure none
                | some boot => do
                    match ← reformatIf (!Block.isFat32 boot) lba (sub32 total lba) boot with
                    | none => pure none
                    | some boot => pure (some (lba, boot))

/-- `bpb->total_sectors_32`, or the 16-bit field where that is zero. -/
def Block.totalSectors (boot : Sector) : Nat :=
  if boot.word 32 4 ≠ 0 then boot.word 32 4 else boot.word 19 2

/-- The `vol_*` parameters that `fat32_mount` takes over from a boot sector. -/
def Block.vol (boot : Sector) (lba : Nat) : Vol :=
  let fatLba := u32 (lba + boot.word 14 2)
  let dataLba := u32 (fatLba + u32 ((boot.byte 16).toNat * boot.word 36 4))
  { lbaStart := lba
    secPerClus := (boot.byte 13).toNat
    numFats := (boot.byte 16).toNat
    fatSize := boot.word 36 4
    rootCluster := boot.word 44 4
    fatLba
    dataLba
    totalClusters := sub32 (Block.totalSectors boot) (sub32 dataLba lba) / (boot.byte 13).toNat }

/-- The mirror repair of `fat32_mount`: copy diverging sectors of the first FAT
to the second, up to the first one that cannot be read. -/
def mountMirror (v : Vol) : Prog Drv Unit := do
  let _ ← forUntil (α := Unit) (fun s => do
    match ← ataRead (u32 (v.fatLba + s)) with
    | none => pure (some ())
    | some fat1 =>
        match ← ataRead (u32 (u32 (v.fatLba + v.fatSize) + s)) with
        | none => pure (some ())
        | some fat2 =>
            if fat1 = fat2 then pure none
            else
              let _ ← ataWrite (u32 (u32 (v.fatLba + v.fatSize) + s)) fat1
              pure none) v.fatSize 0

def dropCache : Prog Drv Unit :=
  modify fun s => { s with secCacheLba := 0xFFFFFFFF, secCacheDirty := false }

/-- How `fat32_mount` ends: with `false`, with the exception of a division by
zero, or with `true`; then `bytesPerSec` is `vol_bytes_per_sec`, which nothing
reads, and `check` holds the counters of the checker. -/
inductive MountEnd where
  | failed
  | divideError
  | mounted (bytesPerSec : Nat) (check : FsckStats)
deriving DecidableEq

/-- The part of `fat32_mount` that follows the division. -/
def mountVol (v : Vol) : Prog Drv FsckStats := do
  modifyStore fun c => { c with vol := v, fds := fun _ => Fd.closed }
  if 2 ≤ v.numFats then
    mountMirror v
    dropCache
  modifyStore fun c => { c with volMounted := true }
  let check ← chimerafsFsck
  modifyStore fun c => { c with volMounted := true }
  pure check

def fat32Mount : Prog Drv MountEnd := do
  match ← mountBoot with
  | none => pure .failed
  | some (lba, boot) =>
      -- `data_sec / vol_sec_per_clus`
      if boot.byte 13 = 0 then pure .divideError
      else do
        let check ← mountVol (Block.vol boot lba)
        pure (.mounted (boot.word 11 2) check)

end Chimaera.Fat32
