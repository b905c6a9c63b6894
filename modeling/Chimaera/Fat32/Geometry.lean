/-
The layout of a volume on the device: where the FAT entries and the sectors of
a cluster lie, and what the driver's FAT operations do to the disk when the
geometry is sound.
-/
import Chimaera.Fat32.Cache

namespace Chimaera.Fat32

open Prog

/-- A row and a column below the row length are told by the index. -/
theorem mul_add_inj {n a b c d : Nat} (hb : b < n) (hd : d < n)
    (h : a * n + b = c * n + d) : a = c ∧ b = d := by
  have hdiv : ∀ x y : Nat, y < n → (x * n + y) / n = x := by
    intro x y hy
    rw [Nat.mul_comm, Nat.mul_add_div (by omega), Nat.div_eq_of_lt hy, Nat.add_zero]
  have ha : a = c := by
    rw [← hdiv a b hb, ← hdiv c d hd, h]
  subst ha
  omega

/-- The geometry of a volume that lies on a device of `sectors` sectors. -/
structure Vol.Sound (v : Vol) (sectors : Nat) : Prop where
  spc_pos : 1 ≤ v.secPerClus
  spc_le : v.secPerClus ≤ 128
  fats : 1 ≤ v.numFats
  fat : (v.totalClusters + 2) * 4 ≤ v.fatSize * 512
  data : v.fatLba + v.numFats * v.fatSize ≤ v.dataLba
  fits : v.dataLba + v.totalClusters * v.secPerClus ≤ sectors
  lba28 : sectors ≤ 268435456
  root : 2 ≤ v.rootCluster ∧ v.rootCluster < v.totalClusters + 2

namespace Vol

def InRange (v : Vol) (k : Nat) : Prop := 2 ≤ k ∧ k < v.totalClusters + 2

instance (v : Vol) (k : Nat) : Decidable (v.InRange k) :=
  inferInstanceAs (Decidable (_ ∧ _))

/-- The FAT has an entry `k`. -/
def HasEntry (v : Vol) (k : Nat) : Prop := k * 4 < 4294967296 ∧ k * 4 / 512 < v.fatSize

/-- The sector of copy `f` of the FAT that holds entry `k`. -/
def fatSec (v : Vol) (f k : Nat) : Nat := v.fatLba + f * v.fatSize + k * 4 / 512

/-- Sector `j` of cluster `k`. -/
def secLba (v : Vol) (k j : Nat) : Nat := v.dataLba + (k - 2) * v.secPerClus + j

namespace HasEntry

variable {v : Vol} {k k' f f' : Nat}

theorem u32_eq (hk : v.HasEntry k) : u32 (k * 4) = k * 4 :=
  u32_of_lt hk.1

theorem fatOffset_eq (hk : v.HasEntry k) : fatOffsetInSector k = k * 4 % 512 := by
  rw [fatOffsetInSector, hk.u32_eq]

theorem fatSec_inj (hk : v.HasEntry k) (hk' : v.HasEntry k')
    (heq : v.fatSec f k = v.fatSec f' k') : f = f' ∧ k * 4 / 512 = k' * 4 / 512 := by
  unfold fatSec at heq
  exact mul_add_inj hk.2 hk'.2 (by omega)

end HasEntry

namespace Sound

variable {v : Vol} {n k k' j j' f f' : Nat}

theorem total_le (h : v.Sound n) : v.totalClusters + 2 ≤ 0x0FFFFFF7 := by
  have hf : v.fatSize ≤ v.numFats * v.fatSize := Nat.le_mul_of_pos_left _ h.fats
  have ht : v.totalClusters ≤ v.totalClusters * v.secPerClus :=
    Nat.le_mul_of_pos_right _ h.spc_pos
  have := h.fat
  have := h.data
  have := h.fits
  have := h.lba28
  omega

/-- The number of a cluster is no end mark. -/
theorem not_eoc (h : v.Sound n) (hk : v.InRange k) : ¬ 0x0FFFFFF8 ≤ k := by
  have := h.total_le
  have := hk.2
  omega

theorem copy_le (h : v.Sound n) (hf : f < v.numFats) :
    v.fatLba + f * v.fatSize + v.fatSize ≤ v.dataLba := by
  have hmul : (f + 1) * v.fatSize ≤ v.numFats * v.fatSize := Nat.mul_le_mul_right _ hf
  have := h.data
  rw [Nat.succ_mul] at hmul
  omega

theorem entry_lt (h : v.Sound n) (hk : v.InRange k) : k * 4 / 512 < v.fatSize := by
  have := h.fat
  have := hk.2
  omega

/-- Every cluster has an entry. -/
theorem hasEntry (h : v.Sound n) (hk : v.InRange k) : v.HasEntry k := by
  have := h.total_le
  have := hk.2
  exact ⟨by omega, h.entry_lt hk⟩

theorem fatSec_lt (h : v.Sound n) (hf : f < v.numFats) (hk : v.HasEntry k) :
    v.fatSec f k < v.dataLba := by
  have := h.copy_le hf
  have := hk.2
  unfold fatSec
  omega

theorem dataLba_le (h : v.Sound n) : v.dataLba ≤ n := by
  have := h.fits
  omega

theorem fatSec_lt_sectors (h : v.Sound n) (hf : f < v.numFats) (hk : v.HasEntry k) :
    v.fatSec f k < n :=
  lt_of_lt_of_le (h.fatSec_lt hf hk) h.dataLba_le

theorem secLba_lt (h : v.Sound n) (hk : v.InRange k) (hj : j < v.secPerClus) :
    v.secLba k j < n := by
  have hmul : (k - 2 + 1) * v.secPerClus ≤ v.totalClusters * v.secPerClus :=
    Nat.mul_le_mul_right _ (by have := hk.1; have := hk.2; omega)
  have := h.fits
  rw [Nat.succ_mul] at hmul
  unfold secLba
  omega

theorem secLba_ne_fatSec (h : v.Sound n) (hf : f < v.numFats) (hk' : v.HasEntry k') :
    v.secLba k j ≠ v.fatSec f k' := by
  have := h.fatSec_lt hf hk'
  unfold secLba
  omega

theorem secLba_inj (hk : v.InRange k) (hk' : v.InRange k')
    (hj : j < v.secPerClus) (hj' : j' < v.secPerClus)
    (heq : v.secLba k j = v.secLba k' j') : k = k' ∧ j = j' := by
  unfold secLba at heq
  have hsum := mul_add_inj hj hj' (a := k - 2) (c := k' - 2) (by omega)
  have := hk.1
  have := hk'.1
  omega

/-- The driver's address arithmetic does not wrap. -/
theorem clusterToLba_eq (h : v.Sound n) (hk : v.InRange k) :
    v.clusterToLba k = v.secLba k 0 := by
  have hlt := h.secLba_lt hk h.spc_pos
  have := h.lba28
  have := h.total_le
  have := hk.2
  rw [clusterToLba, sub32_of_le hk.1 (by omega), u32_of_lt]
  · rfl
  · unfold secLba at hlt
    omega

theorem u32_secLba (h : v.Sound n) (hk : v.InRange k) (hj : j < v.secPerClus) :
    u32 (v.secLba k j) = v.secLba k j := by
  have := h.secLba_lt hk hj
  have := h.lba28
  exact u32_of_lt (by omega)

theorem fatLbaForCluster_eq (h : v.Sound n) (hk : v.HasEntry k) :
    v.fatLbaForCluster k = v.fatSec 0 k := by
  have hlt := h.fatSec_lt_sectors h.fats hk
  have := h.lba28
  rw [fatLbaForCluster, hk.u32_eq, fatSec, Nat.zero_mul, Nat.add_zero, u32_of_lt]
  rw [fatSec, Nat.zero_mul] at hlt
  omega

theorem fatCopy_eq (h : v.Sound n) (hf : f < v.numFats) (hk : v.HasEntry k) :
    u32 (u32 (v.fatLba + f * v.fatSize) + u32 (k * 4) / 512) = v.fatSec f k := by
  have hlt := h.fatSec_lt_sectors hf hk
  have := h.lba28
  unfold fatSec at hlt ⊢
  rw [hk.u32_eq, u32_of_lt (n := v.fatLba + f * v.fatSize) (by omega), u32_of_lt (by omega)]

theorem clusterSize_eq (h : v.Sound n) : v.clusterSize = v.secPerClus * 512 := by
  have := h.spc_le
  exact u32_of_lt (by omega)

end Sound

end Vol

namespace Store

variable {c : Store} {k k' j x : Nat}

/-- All of entry `k` of copy `f` of the FAT. -/
def entry (c : Store) (f k : Nat) : Nat := (c.disk (c.vol.fatSec f k)).word (k * 4 % 512) 4

/-- Entry `k` of the first FAT. -/
def fat (c : Store) (k : Nat) : Nat :=
  (c.disk (c.vol.fatSec 0 k)).word (k * 4 % 512) 4 % 268435456

/-- Sector `j` of cluster `k`. -/
def sec (c : Store) (k j : Nat) : Sector := c.disk (c.vol.secLba k j)

def Mirrored (c : Store) : Prop :=
  ∀ f s, f < c.vol.numFats → s < c.vol.fatSize →
    c.disk (c.vol.fatLba + f * c.vol.fatSize + s) = c.disk (c.vol.fatLba + s)

/-- Write `x` into entry `k` of the `n` copies of the FAT from copy `f` on. -/
def setCopies (k x : Nat) : Nat → Nat → Store → Store
  | 0, _, c => c
  | n + 1, f, c => setCopies k x n (f + 1) (c.put (c.vol.fatSec f k)
      ((c.disk (c.vol.fatSec f k)).patch (k * 4 % 512) (leBytes 4 x)))

def setFat (c : Store) (k x : Nat) : Store := c.setCopies k x c.vol.numFats 0

def setSec (c : Store) (k j : Nat) (b : Sector) : Store := c.put (c.vol.secLba k j) b

/-- Zero the `n` sectors from `lba` on. -/
def zeroFrom (c : Store) (lba : Nat) : Nat → Nat → Store
  | 0, _ => c
  | n + 1, s => (c.put (lba + s) (Block.zero 512)).zeroFrom lba n (s + 1)

/-- Link cluster `k` behind `prev`. -/
def hook (c : Store) (prev k : Nat) : Store :=
  if prev = 0 then c.setFat k 0x0FFFFFFF else (c.setFat k 0x0FFFFFFF).setFat prev k

/-- Cluster `k`, zeroed, as a chain of its own or behind `prev`. -/
def alloc (c : Store) (prev k : Nat) : Store :=
  (c.hook prev k).zeroFrom (c.vol.secLba k 0) c.vol.secPerClus 0

/-- The smallest cluster whose entry is `FAT32_FREE`. -/
structure FirstFree (c : Store) (k : Nat) : Prop where
  range : c.vol.InRange k
  free : c.fat k = 0
  first : ∀ l, c.vol.InRange l → l < k → c.fat l ≠ 0

@[simp] theorem vol_put (lba : Nat) (b : Sector) : (c.put lba b).vol = c.vol := rfl

@[simp] theorem sectors_put (lba : Nat) (b : Sector) : (c.put lba b).sectors = c.sectors := rfl

theorem disk_put (lba lba' : Nat) (b : Sector) :
    (c.put lba b).disk lba' = if lba' = lba then b else c.disk lba' := by
  simp [put, Function.update_apply]

/-- The variables other than the disk are those of `c`. -/
structure SameVars (c c' : Store) : Prop where
  vol : c'.vol = c.vol
  sectors : c'.sectors = c.sectors
  mounted : c'.volMounted = c.volMounted
  readonly : c'.volReadonly = c.volReadonly
  fds : c'.fds = c.fds
  heapPtr : c'.heapPtr = c.heapPtr

theorem SameVars.refl (c : Store) : SameVars c c := ⟨rfl, rfl, rfl, rfl, rfl, rfl⟩

theorem SameVars.trans {c c' c'' : Store} (h : SameVars c c') (h' : SameVars c' c'') :
    SameVars c c'' :=
  ⟨h'.vol.trans h.vol, h'.sectors.trans h.sectors, h'.mounted.trans h.mounted,
    h'.readonly.trans h.readonly, h'.fds.trans h.fds, h'.heapPtr.trans h.heapPtr⟩

theorem sameVars_put (lba : Nat) (b : Sector) : SameVars c (c.put lba b) :=
  ⟨rfl, rfl, rfl, rfl, rfl, rfl⟩

theorem sameVars_setCopies (n f : Nat) : SameVars c (c.setCopies k x n f) := by
  induction n generalizing c f with
  | zero => exact SameVars.refl c
  | succ n ih => exact (sameVars_put _ _).trans (ih _)

theorem sameVars_setFat : SameVars c (c.setFat k x) := sameVars_setCopies _ _

theorem sameVars_hook {prev : Nat} : SameVars c (c.hook prev k) := by
  unfold hook
  split
  · exact sameVars_setFat
  · exact sameVars_setFat.trans sameVars_setFat

theorem sameVars_zeroFrom (lba n s : Nat) : SameVars c (c.zeroFrom lba n s) := by
  induction n generalizing c s with
  | zero => exact SameVars.refl c
  | succ n ih => exact (sameVars_put _ _).trans (ih _)

/-- Sectors that hold entry `k` of no copy keep their content. -/
theorem disk_setCopies_other {n f lba : Nat}
    (h : ∀ g, f ≤ g → g < f + n → lba ≠ c.vol.fatSec g k) :
    (c.setCopies k x n f).disk lba = c.disk lba := by
  induction n generalizing c f with
  | zero => rfl
  | succ n ih =>
      rw [setCopies]
      refine (ih (c := c.put _ _) fun g hg hlt => h g (by omega) (by omega)).trans ?_
      rw [disk_put, if_neg (h f (Nat.le_refl f) (by omega))]

theorem disk_setCopies_same (hk : c.vol.HasEntry k) {n f g : Nat} (hg : f ≤ g) (hlt : g < f + n) :
    (c.setCopies k x n f).disk (c.vol.fatSec g k) =
      (c.disk (c.vol.fatSec g k)).patch (k * 4 % 512) (leBytes 4 x) := by
  induction n generalizing c f with
  | zero => omega
  | succ n ih =>
      rw [setCopies]
      rcases Nat.eq_or_lt_of_le hg with rfl | hlt'
      · rw [disk_setCopies_other, disk_put, if_pos rfl]
        intro g hg' _ heq
        have := (hk.fatSec_inj hk heq).1
        omega
      · have hne : c.vol.fatSec g k ≠ c.vol.fatSec f k := by
          intro heq
          have := (hk.fatSec_inj hk heq).1
          omega
        have := ih (c := c.put (c.vol.fatSec f k)
          ((c.disk (c.vol.fatSec f k)).patch (k * 4 % 512) (leBytes 4 x)))
          hk hlt' (by omega)
        rw [vol_put] at this
        rw [this, disk_put, if_neg hne]

theorem disk_setFat_other {lba : Nat} (h : ∀ f, f < c.vol.numFats → lba ≠ c.vol.fatSec f k) :
    (c.setFat k x).disk lba = c.disk lba :=
  disk_setCopies_other fun f _ hlt => h f (by omega)

theorem disk_setFat_same (hk : c.vol.HasEntry k) {f : Nat}
    (hf : f < c.vol.numFats) : (c.setFat k x).disk (c.vol.fatSec f k) =
      (c.disk (c.vol.fatSec f k)).patch (k * 4 % 512) (leBytes 4 x) :=
  disk_setCopies_same hk (Nat.zero_le f) (by omega)

/-- Only the entry itself changes, in the copies that are written. -/
theorem entry_setCopies (hk : c.vol.HasEntry k) (hk' : c.vol.HasEntry k') (hx : x < 4294967296)
    {n f g : Nat} : (c.setCopies k x n f).entry g k' =
      if k' = k ∧ f ≤ g ∧ g < f + n then x else c.entry g k' := by
  rw [entry, entry, (sameVars_setCopies n f).vol]
  by_cases hin : (f ≤ g ∧ g < f + n) ∧ c.vol.fatSec g k' = c.vol.fatSec g k
  · have hdiv := (hk'.fatSec_inj hk hin.2).2
    rw [hin.2, disk_setCopies_same hk hin.1.1 hin.1.2]
    by_cases heq : k' = k
    · subst heq
      rw [if_pos ⟨rfl, hin.1⟩, Block.word_patch_same _ (by omega)]
      omega
    · rw [if_neg (fun h => heq h.1), Block.word_patch_disjoint _ (by rw [length_leBytes]; omega)]
  · rw [if_neg (fun h => hin ⟨h.2, by rw [h.1]⟩), disk_setCopies_other]
    intro f' hf' hlt heq
    obtain ⟨rfl, -⟩ := hk'.fatSec_inj hk heq
    exact hin ⟨⟨hf', hlt⟩, heq⟩

theorem entry_setFat (hk : c.vol.HasEntry k) (hk' : c.vol.HasEntry k') (hx : x < 4294967296)
    {f : Nat} (hf : f < c.vol.numFats) :
    (c.setFat k x).entry f k' = if k' = k then x else c.entry f k' :=
  (entry_setCopies hk hk' hx).trans (if_congr (and_iff_left ⟨Nat.zero_le f, by omega⟩) rfl rfl)

/-- The first of the copies decides. -/
theorem fat_setCopies (hs : c.vol.Sound c.sectors) (hk : c.vol.InRange k)
    (hk' : c.vol.InRange k') (hx : x < 268435456) {n : Nat} :
    (c.setCopies k x n 0).fat k' = if k' = k ∧ 0 < n then x else c.fat k' := by
  have hentry := entry_setCopies (c := c) (x := x) (n := n) (f := 0) (g := 0)
    (hs.hasEntry hk) (hs.hasEntry hk') (by omega)
  change (c.setCopies k x n 0).entry 0 k' % 268435456 = if _ then _ else c.entry 0 k' % 268435456
  simp only [Nat.le_refl, Nat.zero_add, true_and] at hentry
  rw [hentry]
  split
  · exact Nat.mod_eq_of_lt hx
  · rfl

theorem fat_setFat (hs : c.vol.Sound c.sectors) (hk : c.vol.InRange k)
    (hk' : c.vol.InRange k') (hx : x < 268435456) :
    (c.setFat k x).fat k' = if k' = k then x else c.fat k' :=
  (fat_setCopies hs hk hk' hx).trans (if_congr (and_iff_left hs.fats) rfl rfl)

theorem sec_setFat (hs : c.vol.Sound c.sectors) (hk : c.vol.InRange k) (k' j : Nat) :
    (c.setFat k x).sec k' j = c.sec k' j := by
  rw [sec, sec, sameVars_setFat.vol, disk_setFat_other]
  exact fun f hf => hs.secLba_ne_fatSec hf (hs.hasEntry hk)

theorem mirrored_setFat (hs : c.vol.Sound c.sectors) (hk : c.vol.InRange k)
    (hm : c.Mirrored) : (c.setFat k x).Mirrored := by
  intro f s hf hlt
  rw [sameVars_setFat.vol] at *
  have hbase : ∀ g, g < c.vol.numFats →
      (c.setFat k x).disk (c.vol.fatLba + g * c.vol.fatSize + s) =
        if s = k * 4 / 512 then
          (c.disk (c.vol.fatLba + s)).patch (k * 4 % 512) (leBytes 4 x)
        else c.disk (c.vol.fatLba + s) := by
    intro g hg
    by_cases hsec : s = k * 4 / 512
    · rw [if_pos hsec, ← hm g s hg hlt, hsec]
      exact disk_setFat_same (hs.hasEntry hk) hg
    · rw [if_neg hsec, ← hm g s hg hlt]
      apply disk_setFat_other
      intro g' _ heq
      have hent := hs.entry_lt hk
      unfold Vol.fatSec at heq
      exact hsec (mul_add_inj hlt hent (a := g) (c := g') (by omega)).2
  have hzero := hbase 0 hs.fats
  rw [Nat.zero_mul, Nat.add_zero] at hzero
  rw [hbase f hf, hzero]

theorem fat_put_data {lba : Nat} {b : Sector} (hs : c.vol.Sound c.sectors)
    (hlba : c.vol.dataLba ≤ lba) (hk : c.vol.InRange k) : (c.put lba b).fat k = c.fat k := by
  have := hs.fatSec_lt hs.fats (hs.hasEntry hk)
  rw [fat, fat, vol_put, disk_put, if_neg (by omega)]

theorem mirrored_put_data {lba : Nat} {b : Sector} (hs : c.vol.Sound c.sectors)
    (hlba : c.vol.dataLba ≤ lba) (hm : c.Mirrored) : (c.put lba b).Mirrored := by
  intro f s hf hlt
  rw [vol_put] at *
  have hcopy := hs.copy_le hf
  have hfirst := hs.copy_le hs.fats
  rw [Nat.zero_mul] at hfirst
  rw [disk_put, disk_put, if_neg (by omega), if_neg (by omega)]
  exact hm f s hf hlt

end Store

section Rules

variable {β : Type} {R : β → Store → Prop} {c : Store} {k x : Nat}

theorem On.fatGet (hs : c.vol.Sound c.sectors) (hk : c.vol.InRange k)
    {f : Nat → Prog Drv β} (h : On (f (c.fat k)) R c) : On (fatGet k >>= f) R c := by
  have hent := hs.hasEntry hk
  have hlt := hs.fatSec_lt_sectors hs.fats hent
  rw [Fat32.fatGet, bind_assoc]
  apply On.getStore
  rw [hs.fatLbaForCluster_eq hent, bind_assoc]
  apply On.secRead hlt
  rw [if_pos rfl, bind_assoc]
  apply OnAt.cached hlt
  rw [hent.fatOffset_eq, pure_bind]
  exact OnAt.of_on h

theorem On.fatSetCopies (hs : c.vol.Sound c.sectors) (hk : c.vol.HasEntry k) {n g : Nat}
    (hg : g + (n + 1) = c.vol.numFats) {f : Option Bool → Prog Drv β}
    (h : OnAt (c.vol.fatSec (c.vol.numFats - 1) k) (f none) R
      (c.setCopies k (x % 268435456) (n + 1) g)) :
    On (forUntil (fatSetCopy c.vol k x) (n + 1) g >>= f) R c := by
  induction n generalizing c g with
  | zero =>
      have hlt := hs.fatSec_lt_sectors (f := g) (by omega) hk
      rw [forUntil, fatSetCopy, hs.fatCopy_eq (by omega) hk, bind_assoc, bind_assoc]
      apply On.secRead hlt
      rw [if_pos rfl, bind_assoc, bind_assoc]
      apply OnAt.update_flush_at hlt
      have hlast : c.vol.numFats - 1 = g := by omega
      rw [hlast] at h
      simpa [hk.fatOffset_eq, forUntil, Store.setCopies] using h
  | succ n ih =>
      have hlt := hs.fatSec_lt_sectors (f := g) (by omega) hk
      rw [forUntil, fatSetCopy, hs.fatCopy_eq (by omega) hk, bind_assoc, bind_assoc]
      apply On.secRead hlt
      rw [if_pos rfl, bind_assoc, bind_assoc]
      apply OnAt.update_flush hlt
      simp only [if_true, pure_bind, hk.fatOffset_eq]
      exact ih (c := c.put (c.vol.fatSec g k) ((c.disk (c.vol.fatSec g k)).patch (k * 4 % 512)
        (leBytes 4 (x % 268435456)))) hs hk (by simp only [Store.vol_put]; omega)
        (by simpa [Store.setCopies] using h)

/-- An entry is written to every copy; the sector of the last one stays in the
cache. -/
theorem On.fatSet (hs : c.vol.Sound c.sectors) (hk : c.vol.HasEntry k)
    {f : Bool → Prog Drv β} (h : OnAt (c.vol.fatSec (c.vol.numFats - 1) k) (f true) R
      (c.setFat k (x % 268435456))) : On (fatSet k x >>= f) R c := by
  rw [Fat32.fatSet, bind_assoc]
  apply On.getStore
  rw [bind_assoc]
  obtain ⟨n, hn⟩ : ∃ n, c.vol.numFats = n + 1 := ⟨c.vol.numFats - 1, by
    have := hs.fats
    omega⟩
  rw [hn]
  refine On.fatSetCopies hs hk (by omega) ?_
  rw [← hn]
  simpa [Store.setFat] using h

/-- Zeroing past the cache, where the cache holds another sector. -/
theorem OnAt.zeroSectors {lba at_ n s : Nat}
    (hlt : ∀ i, s ≤ i → i < s + n → lba + i < c.sectors ∧ lba + i ≠ at_)
    (h28 : c.sectors ≤ 268435456) {f : Unit → Prog Drv β}
    (h : OnAt at_ (f ()) R (c.zeroFrom lba n s)) :
    OnAt at_ (do
      let _ ← forUntil (α := Unit) (fun s => do
        let _ ← Fat32.ataWrite (u32 (lba + s)) (Block.zero 512)
        pure none) n s
      f ()) R c := by
  induction n generalizing c s with
  | zero => simpa [forUntil, Store.zeroFrom] using h
  | succ n ih =>
      obtain ⟨hin, hne⟩ := hlt s (Nat.le_refl s) (by omega)
      rw [forUntil]
      simp only [bind_assoc, pure_bind]
      rw [u32_of_lt (by omega)]
      apply OnAt.ataWrite hin hne
      exact ih (fun i hi hi' => hlt i (by omega) (by omega)) h28 h

/-- Zero a cluster right after an entry was set. -/
theorem On.fatSet_zeroSectors {v : Vol} {z : Nat} (hv : c.vol = v) (hs : v.Sound c.sectors)
    (hk : v.HasEntry k) (hz : v.InRange z) {f : Unit → Prog Drv β}
    (h : On (f ()) R
      ((c.setFat k (x % 268435456)).zeroFrom (v.secLba z 0) v.secPerClus 0)) :
    On (Fat32.fatSet k x >>= fun _ =>
      zeroSectors (v.clusterToLba z) v.secPerClus >>= f) R c := by
  subst hv
  apply On.fatSet hs hk
  rw [zeroSectors, hs.clusterToLba_eq hz, bind_assoc]
  simp only [pure_bind]
  apply OnAt.zeroSectors
  · intro i _ hi
    have hsec : c.vol.secLba z 0 + i = c.vol.secLba z i := by
      unfold Vol.secLba
      omega
    rw [hsec, Store.sameVars_setFat.sectors]
    exact ⟨hs.secLba_lt hz (by omega), hs.secLba_ne_fatSec (by have := hs.fats; omega) hk⟩
  · rw [Store.sameVars_setFat.sectors]
    exact hs.lba28
  · exact OnAt.of_on h

/-- The round of `fat_alloc` that meets a free cluster. -/
theorem On.allocRound {prev : Nat} (hs : c.vol.Sound c.sectors) (hk : c.vol.InRange k)
    (hprev : prev = 0 ∨ c.vol.HasEntry prev) {f : Unit → Prog Drv β}
    (h : On (f ()) R (c.alloc prev k)) :
    On (Fat32.fatSet k 0x0FFFFFFF >>= fun _ =>
      if prev = 0 then zeroSectors (c.vol.clusterToLba k) c.vol.secPerClus >>= f
      else Fat32.fatSet prev k >>= fun _ =>
        zeroSectors (c.vol.clusterToLba k) c.vol.secPerClus >>= f) R c := by
  have hent := hs.hasEntry hk
  have hsmall : k % 268435456 = k := by
    have := hs.total_le
    have := hk.2
    exact Nat.mod_eq_of_lt (by omega)
  unfold Store.alloc Store.hook at h
  by_cases hp : prev = 0
  · simp only [hp, if_true] at h ⊢
    exact On.fatSet_zeroSectors rfl hs hent hk h
  · simp only [hp, if_false] at h ⊢
    apply On.fatSet hs hent
    apply OnAt.of_on
    refine On.fatSet_zeroSectors Store.sameVars_setFat.vol ?_ (hprev.resolve_left hp) hk ?_
    · rw [Store.sameVars_setFat.sectors]
      exact hs
    · rw [hsmall]
      exact h

/-- Search the first free cluster from `i` on. -/
theorem On.allocFrom {prev n i : Nat} (hs : c.vol.Sound c.sectors)
    (hprev : prev = 0 ∨ c.vol.HasEntry prev) (hi : 2 ≤ i) (hn : i + n = c.vol.totalClusters + 2)
    (hbefore : ∀ l, c.vol.InRange l → l < i → c.fat l ≠ 0) {f : Option Nat → Prog Drv β}
    (hfull : (∀ k, c.vol.InRange k → c.fat k ≠ 0) → On (f none) R c)
    (hfree : ∀ k, c.FirstFree k → On (f (some k)) R (c.alloc prev k)) :
    On (forUntil (fun k => do
      if (← Fat32.fatGet k) = 0 then
        let _ ← Fat32.fatSet k 0x0FFFFFFF
        let _ ← if prev = 0 then Pure.pure true else Fat32.fatSet prev k
        zeroSectors (c.vol.clusterToLba k) c.vol.secPerClus
        Pure.pure (some k)
      else Pure.pure none) n i >>= f) R c := by
  induction n generalizing i with
  | zero =>
      rw [forUntil, pure_bind]
      exact hfull fun k hk => hbefore k hk (by have := hk.2; omega)
  | succ n ih =>
      have hr : c.vol.InRange i := ⟨hi, by omega⟩
      rw [forUntil, bind_assoc, bind_assoc]
      apply On.fatGet hs hr
      by_cases h0 : c.fat i = 0
      · have hgo := On.allocRound (f := fun _ => f (some i)) hs hr hprev
          (hfree i ⟨hr, h0, hbefore⟩)
        by_cases hp : prev = 0
        · simp only [h0, hp, if_true, bind_assoc, pure_bind] at hgo ⊢
          exact hgo
        · simp only [h0, hp, if_true, if_false, bind_assoc, pure_bind] at hgo ⊢
          exact hgo
      · simp only [h0, if_false, pure_bind]
        refine ih (by omega) (by omega) fun l hl hlt => ?_
        rcases Nat.lt_succ_iff_lt_or_eq.mp hlt with hlt | rfl
        · exact hbefore l hl hlt
        · exact h0

/-- `fat_alloc` answers the smallest free cluster, or 0 when there is none. -/
theorem On.fatAlloc {prev : Nat} (hs : c.vol.Sound c.sectors)
    (hprev : prev = 0 ∨ c.vol.HasEntry prev) {f : Nat → Prog Drv β}
    (hfull : (∀ k, c.vol.InRange k → c.fat k ≠ 0) → On (f 0) R c)
    (hfree : ∀ k, c.FirstFree k → On (f k) R (c.alloc prev k)) :
    On (Fat32.fatAlloc prev >>= f) R c := by
  rw [Fat32.fatAlloc, bind_assoc]
  apply On.getStore
  have htot : u32 (c.vol.totalClusters + 2) - 2 = c.vol.totalClusters := by
    have := hs.total_le
    rw [u32_of_lt (by omega)]
    omega
  rw [htot, bind_assoc]
  apply On.allocFrom hs hprev (Nat.le_refl 2) (by omega)
  · intro l hl hlt
    have := hl.1
    omega
  · exact hfull
  · exact hfree

end Rules

end Chimaera.Fat32
