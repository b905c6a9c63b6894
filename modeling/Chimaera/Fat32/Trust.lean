/-
`fat32_mount` takes the geometry of a volume from its boot sector.  What the
boot sector has to say for that geometry to be a sound one.
-/
import Chimaera.Fat32.Geometry
import Chimaera.Fat32.Mount
import Chimaera.Fat32.Preserve

namespace Chimaera.Fat32

open Prog

/-- The geometry that `boot`, at address `lba`, gives to a volume is a sound one
on a device of `sectors` sectors, computed without a wrap-around, and the tables
of the checker have an element for every cluster. -/
structure Vol.Checked (v : Vol) (lba : Nat) (boot : Sector) (sectors : Nat) : Prop where
  spc : v.secPerClus ≠ 0
  sector : boot.word 11 2 = 512
  root : v.InRange v.rootCluster
  dataLba : v.dataLba = lba + boot.word 14 2 + v.numFats * v.fatSize
  total : v.dataLba ≤ lba + Block.totalSectors boot
  slot : ∀ c, v.InRange c → v.fatLbaForCluster c = v.fatLba + c * 4 / 512 ∧
    c * 4 / 512 < v.fatSize
  data : ∀ c j, v.InRange c → j < v.secPerClus →
    u32 (v.clusterToLba c + j) = v.dataLba + (c - 2) * v.secPerClus + j ∧
      v.dataLba + (c - 2) * v.secPerClus + j < sectors
  bitmap : ∀ c, v.InRange c → (c - 2) / 8 < u32 (v.totalClusters + 7) / 8
  refs : ∀ c, v.InRange c → (c - 2 + 1) * 12 ≤ u32 (v.totalClusters * 12)

/-- Number of sectors before the data area that a boot sector declares. -/
def Block.dataStart (boot : Sector) : Nat :=
  boot.word 14 2 + (boot.byte 16).toNat * boot.word 36 4

def Block.clusters (boot : Sector) : Nat :=
  (Block.totalSectors boot - Block.dataStart boot) / (boot.byte 13).toNat

/-- The numbers in a boot sector describe a volume that lies on the device and
whose FATs are long enough. -/
structure Block.Fits (boot : Sector) (lba sectors : Nat) : Prop where
  spc : (boot.byte 13).toNat ≠ 0
  sector : boot.word 11 2 = 512
  start : Block.dataStart boot ≤ Block.totalSectors boot
  root : 2 ≤ boot.word 44 4 ∧ boot.word 44 4 < Block.clusters boot + 2
  fat : (Block.clusters boot + 2) * 4 ≤ boot.word 36 4 * 512
  fits : lba + Block.dataStart boot + Block.clusters boot * (boot.byte 13).toNat ≤ sectors
  addresses : lba + Block.dataStart boot + Block.clusters boot * (boot.byte 13).toNat ≤ 4294967296
  tables : Block.clusters boot * 12 < 4294967296

variable {boot : Sector} {lba sectors : Nat}

theorem Block.totalSectors_lt : Block.totalSectors boot < 4294967296 := by
  have h₁ : boot.word 32 4 < 4294967296 := boot.word_lt 32 4
  have h₂ : boot.word 19 2 < 65536 := boot.word_lt 19 2
  unfold Block.totalSectors
  split
  · exact h₁
  · omega

/-- Where the start of the data area does not wrap, neither does what precedes
it, and the number of clusters is the declared one. -/
theorem Block.vol_of_start (hstart : Block.dataStart boot ≤ Block.totalSectors boot)
    (haddr : lba + Block.dataStart boot < 4294967296) :
    (Block.vol boot lba).fatLba = lba + boot.word 14 2 ∧
      (Block.vol boot lba).dataLba = lba + Block.dataStart boot ∧
      (Block.vol boot lba).totalClusters = Block.clusters boot := by
  have htotal := @Block.totalSectors_lt boot
  unfold Block.dataStart at *
  have hfat : u32 (lba + boot.word 14 2) = lba + boot.word 14 2 := u32_of_lt (by omega)
  have hmul : u32 ((boot.byte 16).toNat * boot.word 36 4) =
      (boot.byte 16).toNat * boot.word 36 4 := u32_of_lt (by omega)
  have hdata : (Block.vol boot lba).dataLba =
      lba + (boot.word 14 2 + (boot.byte 16).toNat * boot.word 36 4) := by
    change u32 (u32 (lba + boot.word 14 2) +
      u32 ((boot.byte 16).toNat * boot.word 36 4)) = _
    rw [hfat, hmul, u32_of_lt (by omega), Nat.add_assoc]
  refine ⟨hfat, hdata, ?_⟩
  change sub32 (Block.totalSectors boot) (sub32 (Block.vol boot lba).dataLba lba) / _ = _
  have hsub : sub32 (Block.vol boot lba).dataLba lba =
      boot.word 14 2 + (boot.byte 16).toNat * boot.word 36 4 := by
    rw [hdata, sub32_of_le (by omega) (by omega), Nat.add_sub_cancel_left]
  rw [hsub, sub32_of_le hstart htotal]
  rfl

/-- A sound boot sector gives a sound geometry. -/
theorem Block.Fits.checked (h : Block.Fits boot lba sectors) :
    (Block.vol boot lba).Checked lba boot sectors := by
  have hspc := h.spc
  have hroot := h.root
  have hfat := h.fat
  have hfits := h.fits
  have haddr := h.addresses
  have htab := h.tables
  have hpos : Block.clusters boot * 1 ≤ Block.clusters boot * (boot.byte 13).toNat :=
    Nat.mul_le_mul_left _ (Nat.one_le_iff_ne_zero.mpr hspc)
  obtain ⟨hfatLba, hdata, htotal⟩ := @Block.vol_of_start _ lba h.start (by omega)
  have hrange : ∀ c, (Block.vol boot lba).InRange c ↔ 2 ≤ c ∧ c < Block.clusters boot + 2 := by
    intro c
    rw [Vol.InRange, htotal]
  have hfatSize : (Block.vol boot lba).fatSize = boot.word 36 4 := rfl
  have hsecPer : (Block.vol boot lba).secPerClus = (boot.byte 13).toNat := rfl
  have hsector : ∀ c j, (Block.vol boot lba).InRange c → j < (boot.byte 13).toNat →
      lba + Block.dataStart boot + (c - 2) * (boot.byte 13).toNat + j <
        lba + Block.dataStart boot + Block.clusters boot * (boot.byte 13).toNat := by
    intro c j hc hj
    rw [hrange] at hc
    have hmul : (c - 2 + 1) * (boot.byte 13).toNat ≤
        Block.clusters boot * (boot.byte 13).toNat := Nat.mul_le_mul_right _ (by omega)
    rw [Nat.succ_mul] at hmul
    omega
  constructor
  · exact hspc
  · exact h.sector
  · rw [hrange]
    exact hroot
  · rw [hdata]
    exact (Nat.add_assoc ..).symm
  · rw [hdata]
    have := h.start
    omega
  · intro c hc
    rw [hrange] at hc
    have hlt : c * 4 / 512 < boot.word 36 4 := by omega
    refine ⟨?_, hlt⟩
    have hle : lba + boot.word 14 2 ≤ lba + Block.dataStart boot := by
      unfold Block.dataStart
      omega
    rw [Vol.fatLbaForCluster, hfatLba, u32_of_lt (n := c * 4) (by omega), u32_of_lt (by omega)]
  · intro c j hc hj
    have hlt := hsector c j hc hj
    rw [hdata, hsecPer]
    refine ⟨?_, by omega⟩
    rw [hrange] at hc
    have hin : (Block.vol boot lba).clusterToLba c =
        lba + Block.dataStart boot + (c - 2) * (boot.byte 13).toNat := by
      rw [Vol.clusterToLba, hdata, hsecPer, sub32_of_le hc.1 (by omega), u32_of_lt (by omega)]
    rw [hin, u32_of_lt (by omega)]
  · intro c hc
    rw [hrange] at hc
    rw [htotal, u32_of_lt (by omega)]
    omega
  · intro c hc
    rw [hrange] at hc
    rw [htotal, u32_of_lt htab]
    omega

/-- A sound geometry comes from a sound boot sector. -/
theorem Vol.Checked.fits (h : (Block.vol boot lba).Checked lba boot sectors) :
    Block.Fits boot lba sectors := by
  have hspc : (boot.byte 13).toNat ≠ 0 := h.spc
  have hstart : lba + Block.dataStart boot ≤ lba + Block.totalSectors boot := by
    have := h.total
    rw [h.dataLba, Nat.add_assoc] at this
    exact this
  have hlt : (Block.vol boot lba).dataLba < 4294967296 := Nat.mod_lt _ (by decide)
  have hdata' : (Block.vol boot lba).dataLba = lba + Block.dataStart boot := by
    rw [h.dataLba, Nat.add_assoc]
    rfl
  obtain ⟨-, hdata, htotal⟩ := @Block.vol_of_start boot lba (by omega) (by omega)
  have hrange : ∀ c, (Block.vol boot lba).InRange c ↔ 2 ≤ c ∧ c < Block.clusters boot + 2 := by
    intro c
    rw [Vol.InRange, htotal]
  have hroot := (hrange _).mp h.root
  have hpos : 1 ≤ Block.clusters boot := by omega
  have hlast : (Block.vol boot lba).InRange (Block.clusters boot + 1) := by
    rw [hrange]
    omega
  have hsecPer : (Block.vol boot lba).secPerClus = (boot.byte 13).toNat := rfl
  have hend : lba + Block.dataStart boot +
      (Block.clusters boot + 1 - 2) * (boot.byte 13).toNat + ((boot.byte 13).toNat - 1) + 1 =
      lba + Block.dataStart boot + Block.clusters boot * (boot.byte 13).toNat := by
    obtain ⟨k, hk⟩ := Nat.exists_eq_add_of_le' hpos
    have hmul : (k + 1) * (boot.byte 13).toNat =
        k * (boot.byte 13).toNat + (boot.byte 13).toNat := Nat.succ_mul ..
    have hidx : k + 1 + 1 - 2 = k := by omega
    rw [hk, hidx]
    omega
  obtain ⟨hword, hsec⟩ := h.data _ ((boot.byte 13).toNat - 1) hlast (by rw [hsecPer]; omega)
  rw [hdata, hsecPer] at hword hsec
  constructor
  · exact hspc
  · exact h.sector
  · omega
  · exact hroot
  · have hfat : (Block.clusters boot + 1) * 4 / 512 < boot.word 36 4 := (h.slot _ hlast).2
    omega
  · omega
  · have := Nat.mod_lt ((Block.vol boot lba).clusterToLba (Block.clusters boot + 1) +
      ((boot.byte 13).toNat - 1)) (show 0 < 4294967296 by decide)
    unfold u32 at hword
    omega
  · have := h.refs _ hlast
    rw [htotal] at this
    unfold u32 at this
    omega

theorem Vol.checked_iff :
    (Block.vol boot lba).Checked lba boot sectors ↔ Block.Fits boot lba sectors :=
  ⟨Vol.Checked.fits, Block.Fits.checked⟩

/-- The parameters of the volume and the size of the device survive. -/
theorem checks_vol (v : Vol) (n : Nat) : Checks fun s => s.vol = v ∧ s.sectors = n := by
  have hreads : Reads fun s => s.vol = v ∧ s.sectors = n :=
    ⟨fun _ h => h, fun _ _ h _ _ => h, fun _ h _ => h⟩
  have hpatches : Patches fun s => s.vol = v ∧ s.sectors = n := ⟨hreads, fun _ _ h => h⟩
  have hdrives : Drives (fun _ => True) fun s => s.vol = v ∧ s.sectors = n :=
    ⟨⟨hpatches, fun _ _ h _ => h⟩, fun _ _ _ h => h, fun _ _ h => h⟩
  exact ⟨⟨hdrives, fun _ h => h⟩, fun _ _ _ h => h⟩

theorem mountMirror_preserves {I : Drv → Prop} (h : Checks I) {v : Vol} :
    Preserves I (mountMirror v) := by
  refine (Preserves.forUntil (fun i => h.transfers.ataRead.bind fun o => ?_) _ _).bind fun _ =>
    Preserves.pure
  split
  · exact Preserves.pure
  · refine h.transfers.ataRead.bind fun o' => ?_
    split
    · exact Preserves.pure
    · split
      · exact Preserves.pure
      · exact h.transfers.ataWrite.bind fun _ => Preserves.pure

theorem mountVol_vol {v : Vol} {s s' : Drv} {st : FsckStats} (h : (mountVol v).Runs s st s') :
    s'.vol = v ∧ s'.sectors = s.sectors := by
  have hchecks := checks_vol v s.sectors
  have hrest : Preserves (fun s' => s'.vol = v ∧ s'.sectors = s.sectors) (do
      modifyStore fun c => { c with volMounted := true }
      let check ← chimerafsFsck
      modifyStore fun c => { c with volMounted := true }
      pure check) :=
    (preserves_modifyStore fun _ hs => hs).bind fun _ => hchecks.chimerafsFsck.bind fun _ =>
      (preserves_modifyStore fun _ hs => hs).bind fun _ => Preserves.pure
  obtain ⟨a, s₁, h₁, hrun⟩ := runs_bind.mp h
  obtain rfl := runs_modify.mp h₁
  refine Preserves.ite (I := fun s' => s'.vol = v ∧ s'.sectors = s.sectors) (fun _ => ?_)
    (fun _ => hrest) _ _ _ ⟨rfl, rfl⟩ hrun
  have hdrop : Preserves (fun s' => s'.vol = v ∧ s'.sectors = s.sectors) dropCache :=
    Preserves.modify fun _ hs => hs
  exact (mountMirror_preserves hchecks).bind fun _ => hdrop.bind fun _ => hrest

/-- `fat32_mount` fails, or ends up with a boot sector.  Where that has a number
of sectors per cluster other than zero, nothing is divided by zero, the mount
succeeds, and the geometry is sound exactly when the numbers in the boot sector
fit the device. -/
theorem mount_geometry {s s' : Drv} {r : MountEnd} (h : fat32Mount.Runs s r s') :
    r = .failed ∨ ∃ lba boot s₁, mountBoot.Runs s (some (lba, boot)) s₁ ∧
      ((boot.byte 13).toNat ≠ 0 → (∃ check, r = .mounted (boot.word 11 2) check) ∧
        (s'.vol.Checked lba boot s'.sectors ↔ Block.Fits boot lba s'.sectors)) := by
  obtain ⟨o, s₁, h₁, hrun⟩ := runs_bind.mp h
  cases o with
  | none =>
      obtain ⟨rfl, -⟩ := runs_pure.mp hrun
      exact Or.inl rfl
  | some p =>
      obtain ⟨lba, boot⟩ := p
      refine Or.inr ⟨lba, boot, s₁, h₁, fun hspc => ?_⟩
      have hne : boot.byte 13 ≠ 0 := by
        intro h0
        exact hspc (by rw [h0]; rfl)
      change (if boot.byte 13 = 0 then pure .divideError else do
        let check ← mountVol (Block.vol boot lba)
        pure (.mounted (boot.word 11 2) check) : Prog Drv MountEnd).Runs s₁ r s' at hrun
      rw [if_neg hne] at hrun
      obtain ⟨check, s₂, h₂, hend⟩ := runs_bind.mp hrun
      obtain ⟨rfl, rfl⟩ := runs_pure.mp hend
      refine ⟨⟨check, rfl⟩, ?_⟩
      rw [(mountVol_vol h₂).1]
      exact Vol.checked_iff

/-- A driver before the mount, for a disk of `n` sectors. -/
def unmounted (n : Nat) (disk : Nat → Sector) : Drv where
  disk := disk
  sectors := n
  log := []
  vol := ⟨0, 0, 0, 0, 2, 0, 0, 0⟩
  volMounted := false
  volReadonly := false
  fds _ := Fd.closed
  heapPtr := 0
  present := true
  ataOk _ := true
  ataOps := 0
  secCache := Block.zero 512
  secCacheLba := 0xFFFFFFFF
  secCacheDirty := false

/-- The boot sector of a volume of one cluster of one sector, with one FAT. -/
def smallBoot : Sector :=
  patchAll (Block.zero 512) [(11, leBytes 2 512), (13, [1]), (14, leBytes 2 1), (16, [1]),
    (32, leBytes 4 3), (36, leBytes 4 1), (44, leBytes 4 2), (82, fat32Type), (510, [0x55, 0xAA])]

theorem mount_geometry_small : ∃ s' : Drv, MountEnd.mounted 512 FsckStats.init = .failed ∨
    ∃ lba boot s₁, mountBoot.Runs (unmounted 3 fun lba =>
        if lba = 0 then smallBoot else Block.zero 512) (some (lba, boot)) s₁ ∧
      ((boot.byte 13).toNat ≠ 0 →
        (∃ check, MountEnd.mounted 512 FsckStats.init = .mounted (boot.word 11 2) check) ∧
          (s'.vol.Checked lba boot s'.sectors ↔ Block.Fits boot lba s'.sectors)) := by
  have hrun : (fat32Mount.run 5 (unmounted 3 fun lba =>
      if lba = 0 then smallBoot else Block.zero 512)).map Prod.fst =
      some (.mounted 512 FsckStats.init) := by
    decide +kernel
  obtain ⟨s', hs'⟩ := answers_of_run hrun
  exact ⟨s', mount_geometry hs'⟩

/-- The signature and the type string, but no sectors per cluster. -/
def badBoot : Sector := patchAll (Block.zero 512) [(82, fat32Type), (510, [0x55, 0xAA])]

theorem mount_divides_by_zero :
    ¬ ∀ s r s', s.present = true → fat32Mount.Runs s r s' → r ≠ .divideError := by
  intro hclaim
  have hrun : (fat32Mount.run 1 (unmounted 64 fun lba =>
      if lba = 0 then badBoot else Block.zero 512)).map Prod.fst = some .divideError := by
    decide +kernel
  obtain ⟨s', hs'⟩ := answers_of_run hrun
  exact hclaim _ _ s' rfl hs' rfl

end Chimaera.Fat32
