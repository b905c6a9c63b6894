/-
The data of the FAT32 driver (`fat32_internal.h`, `fat32.h`): the volume
parameters, directory entries, descriptors and the driver's variables.

`uint32_t` values are natural numbers; `u32` and `sub32` mark the operations
that can wrap.  The macros of the header appear as literals: a sector has 512
bytes, a directory entry 32, a link of `0x0FFFFFF8` (`FAT32_EOC`) or more ends
a chain, `0` is `FAT32_FREE`, `0x0FFFFFF7` is `FAT32_BAD`, a name buffer has 256
bytes (`FAT32_MAX_NAME`) and there are 16 descriptors (`FAT32_MAX_FD`).
-/
import Chimaera.Prog
import Chimaera.Bytes

namespace Chimaera.Fat32

def u32 (n : Nat) : Nat := n % 4294967296

def sub32 (a b : Nat) : Nat := (a + (4294967296 - b % 4294967296)) % 4294967296

/-- The `int` with the bits of the 32-bit number `n`. -/
def i32 (n : Nat) : Int := if n < 2147483648 then n else (n : Int) - 4294967296

theorem u32_of_lt {n : Nat} (h : n < 4294967296) : u32 n = n := Nat.mod_eq_of_lt h

theorem sub32_of_le {a b : Nat} (h : b ≤ a) (ha : a < 4294967296) :
    sub32 a b = a - b := by
  unfold sub32
  omega

theorem i32_of_lt {n : Nat} (h : n < 2147483648) : i32 n = n := if_pos h

abbrev Sector := Block 512

/-- The first sector of a fresh FAT: two reserved entries and the root's. -/
def fatHead : Sector :=
  (((Block.zero 512).patch 0 (leBytes 4 0x0FFFFFF8)).patch 4 (leBytes 4 0x0FFFFFFF)).patch 8
    (leBytes 4 0x0FFFFFFF)

/-- A raw 32-byte directory entry: short (`fat32_dir_entry_t`) or a piece of a
long name (`fat32_lfn_entry_t`), told apart by the attribute byte. -/
abbrev DirEntry := Block 32

abbrev CStr := List UInt8

namespace DirEntry

/-- `name[8]` and `ext[3]` together. -/
def name (e : DirEntry) : List UInt8 := (e.slice 0 11).toList

/-- The first byte of `name`, or `order` of a long-name piece. -/
def first (e : DirEntry) : UInt8 := e.byte 0

def attr (e : DirEntry) : UInt8 := e.byte 11

/-- `checksum` of a long-name piece. -/
def checksum (e : DirEntry) : UInt8 := e.byte 13

/-- `((uint32_t)fst_clus_hi << 16) | fst_clus_lo`. -/
def cluster (e : DirEntry) : Nat := e.word 20 2 * 65536 + e.word 26 2

/-- `file_size`. -/
def size (e : DirEntry) : Nat := e.word 28 4

/-- `attr & FAT32_ATTR_DIR`. -/
def isDir (e : DirEntry) : Bool := e.attr &&& 0x10 != 0

/-- `attr == FAT32_ATTR_LFN`. -/
def isLfn (e : DirEntry) : Bool := e.attr == 0x0F

/-- Store `fst_clus_hi` and `fst_clus_lo`. -/
def setCluster (e : DirEntry) (cluster : Nat) : DirEntry :=
  (e.patch 20 (leBytes 2 (cluster / 65536))).patch 26 (leBytes 2 cluster)

/-- Store `file_size`. -/
def setSize (e : DirEntry) (size : Nat) : DirEntry := e.patch 28 (leBytes 4 size)

end DirEntry

/-- The `vol_*` parameters that `fat32_mount` reads from the boot sector. -/
structure Vol where
  lbaStart : Nat
  secPerClus : Nat
  numFats : Nat
  fatSize : Nat
  rootCluster : Nat
  fatLba : Nat
  dataLba : Nat
  totalClusters : Nat
deriving DecidableEq, Repr

/-- `dir_pos_t`: a position in a directory. -/
structure DirPos where
  cluster : Nat
  entryIdx : Nat
  lba : Nat
  off : Nat
deriving DecidableEq, Repr

/-- `fat32_fd_t`: a slot of the descriptor table. -/
structure Fd where
  isOpen : Bool
  write : Bool
  cluster : Nat
  dirCluster : Nat
  dirLba : Nat
  dirOffset : Nat
  size : Nat
  pos : Nat
  curCluster : Nat
deriving DecidableEq, Repr

def Fd.closed : Fd := ⟨false, false, 0, 0, 0, 0, 0, 0, 0⟩

/-- The driver's variables other than the sector cache, with the disk.  `log`
records the sector writes that the device carried out, newest first. -/
structure Store where
  disk : Nat → Sector
  sectors : Nat
  log : List (Nat × Sector)
  vol : Vol
  volMounted : Bool
  volReadonly : Bool
  fds : Nat → Fd
  heapPtr : Nat

/-- The whole driver state: the variables, the one-sector cache, and the
device's behaviour (`ataOk n` tells whether its transfer number `n` succeeds). -/
structure Drv extends Store where
  present : Bool
  ataOk : Nat → Bool
  ataOps : Nat
  secCache : Sector
  secCacheLba : Nat
  secCacheDirty : Bool

/-- `fat32_err_t`. -/
inductive Err where
  | notFound | exists_ | full | io | notDir | isDir | noMem | noDev | notEmpty
deriving DecidableEq, Repr

/-- The negative `int` of an error. -/
def Err.code : Err → Int
  | .notFound => -1
  | .exists_ => -2
  | .full => -3
  | .io => -4
  | .notDir => -5
  | .isDir => -6
  | .noMem => -7
  | .noDev => -8
  | .notEmpty => -9

theorem Err.code_neg (e : Err) : e.code < 0 := by
  cases e <;> decide

end Chimaera.Fat32
