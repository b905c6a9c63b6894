/-
A disk without a boot signature is formatted when it is mounted, and what comes
out is an empty consistent volume.
-/
import Chimaera.Fat32.Empty
import Chimaera.Fat32.Trust
import Chimaera.Fat32.Update

namespace Chimaera.Fat32

open Prog Store

variable {α β : Type}

section Fields

variable {n : Nat} {b : Block n} {pre post : List (Nat × List UInt8)} {f : Nat × List UInt8}
  {off k v i : Nat}

theorem patchAll_append : patchAll b (pre ++ post) = patchAll (patchAll b pre) post :=
  List.foldl_append

/-- Fields behind a byte or before it do not matter. -/
theorem byte_patchAll_of_outside (h : ∀ f ∈ post, i < f.1 ∨ f.1 + f.2.length ≤ i) :
    (patchAll b post).byte i = b.byte i := by
  induction post generalizing b with
  | nil => rfl
  | cons f post ih =>
      rw [List.forall_mem_cons] at h
      exact (ih h.2).trans (Block.byte_patch_of_outside b h.1)

/-- The last field that covers a byte determines it. -/
theorem byte_patchAll (hn : i < n) (hin : f.1 ≤ i ∧ i < f.1 + f.2.length)
    (hpost : ∀ f ∈ post, i < f.1 ∨ f.1 + f.2.length ≤ i) :
    (patchAll b (pre ++ f :: post)).byte i = f.2.getD (i - f.1) 0 := by
  rw [patchAll_append]
  refine (byte_patchAll_of_outside (b := (patchAll b pre).patch f.1 f.2) hpost).trans ?_
  rw [Block.byte_patch _ _ _ hn, if_pos hin]

theorem word_patchAll (hn : off + k ≤ n)
    (hpost : ∀ f ∈ post, off + k ≤ f.1 ∨ f.1 + f.2.length ≤ off) :
    (patchAll b (pre ++ (off, leBytes k v) :: post)).word off k = v % 256 ^ k := by
  rw [← Block.word_patch_same (patchAll b pre) (v := v) hn, patchAll_append]
  apply Block.word_congr
  intro j hj
  refine byte_patchAll_of_outside (b := (patchAll b pre).patch off (leBytes k v)) fun f hf => ?_
  have := hpost f hf
  omega

end Fields

section BootSector

variable {lba total fatSize : Nat}

/-- The boot sector that `fat32_format` writes. -/
def formatBoot (lba total fatSize : Nat) : Sector :=
  patchAll (Block.zero 512) (bpbFields lba total fatSize)

theorem formatBoot_word {i off k v : Nat} (hn : off + k ≤ 512)
    (hfield : (bpbFields lba total fatSize).drop i =
      (off, leBytes k v) :: (bpbFields lba total fatSize).drop (i + 1))
    (hpost : ∀ f ∈ (bpbFields lba total fatSize).drop (i + 1),
      off + k ≤ f.1 ∨ f.1 + f.2.length ≤ off) :
    (formatBoot lba total fatSize).word off k = v % 256 ^ k := by
  rw [formatBoot, ← List.take_append_drop i (bpbFields lba total fatSize), hfield]
  exact word_patchAll hn hpost

theorem formatBoot_byte {i : Nat} {f : Nat × List UInt8} {o : Nat} (hn : o < 512)
    (hfield : (bpbFields lba total fatSize).drop i =
      f :: (bpbFields lba total fatSize).drop (i + 1))
    (hin : f.1 ≤ o ∧ o < f.1 + f.2.length)
    (hpost : ∀ f ∈ (bpbFields lba total fatSize).drop (i + 1),
      o < f.1 ∨ f.1 + f.2.length ≤ o) :
    (formatBoot lba total fatSize).byte o = f.2.getD (o - f.1) 0 := by
  rw [formatBoot, ← List.take_append_drop i (bpbFields lba total fatSize), hfield]
  exact byte_patchAll hn hin hpost

theorem formatBoot_bytesPerSec : (formatBoot lba total fatSize).word 11 2 = 512 :=
  formatBoot_word (i := 2) (by decide) rfl (by simp [bpbFields, oemName, fat32Type])

theorem formatBoot_secPerClus : (formatBoot lba total fatSize).byte 13 = 8 :=
  formatBoot_byte (i := 3) (by decide) rfl (by simp) (by simp [bpbFields, oemName, fat32Type])

theorem formatBoot_reserved : (formatBoot lba total fatSize).word 14 2 = 32 :=
  formatBoot_word (i := 4) (by decide) rfl (by simp [bpbFields, oemName, fat32Type])

theorem formatBoot_numFats : (formatBoot lba total fatSize).byte 16 = 2 :=
  formatBoot_byte (i := 5) (by decide) rfl (by simp) (by simp [bpbFields, oemName, fat32Type])

theorem formatBoot_total (h : total < 4294967296) :
    (formatBoot lba total fatSize).word 32 4 = total := by
  rw [formatBoot_word (i := 13) (v := total) (by decide) rfl
    (by simp [bpbFields, oemName, fat32Type])]
  exact Nat.mod_eq_of_lt h

theorem formatBoot_fatSize (h : fatSize < 4294967296) :
    (formatBoot lba total fatSize).word 36 4 = fatSize := by
  rw [formatBoot_word (i := 14) (v := fatSize) (by decide) rfl
    (by simp [bpbFields, oemName, fat32Type])]
  exact Nat.mod_eq_of_lt h

theorem formatBoot_root : (formatBoot lba total fatSize).word 44 4 = 2 :=
  formatBoot_word (i := 17) (by decide) rfl (by simp [bpbFields, oemName, fat32Type])

theorem formatBoot_signed : Block.signed (formatBoot lba total fatSize) = true := by
  have h₁ : (formatBoot lba total fatSize).byte 510 = 0x55 :=
    formatBoot_byte (i := 25) (by decide) rfl (by simp) (by simp [bpbFields])
  have h₂ : (formatBoot lba total fatSize).byte 511 = 0xAA :=
    formatBoot_byte (i := 25) (by decide) rfl (by simp) (by simp [bpbFields])
  rw [Block.signed, h₁, h₂]
  rfl

theorem formatBoot_isFat32 : Block.isFat32 (formatBoot lba total fatSize) = true := by
  rw [Block.isFat32, beq_iff_eq]
  apply List.ext_getElem (by simp [fat32Type])
  intro j hj hlt
  have hj5 : j < 5 := by simpa using hj
  have hbyte := @formatBoot_byte lba total fatSize 24
    (f := (82, fat32Type ++ [0x20, 0x20, 0x20])) (o := 82 + j) (by omega) rfl
    (by simp [fat32Type]; omega) (by simp [bpbFields]; omega)
  rw [Nat.add_sub_cancel_left, List.getD_append _ _ _ _ hlt, List.getD_eq_getElem _ _ hlt] at hbyte
  rw [← hbyte, ← Block.byte_slice _ 82 hj5, ← Block.getD_toList, List.getD_eq_getElem _ _ hj]

/-- No partition is declared, so the volume starts at the first sector. -/
theorem formatBoot_partition : Block.partition (formatBoot lba total fatSize) = 0 := by
  have hbyte : ∀ i < 4, (formatBoot lba total fatSize).byte (446 + 16 * i + 4) = 0 := by
    intro i hi
    rw [formatBoot, byte_patchAll_of_outside, Block.byte_zero]
    simp [bpbFields, oemName, fat32Type]
    omega
  have hnone : ((List.range 4).find? fun i =>
      (formatBoot lba total fatSize).byte (446 + 16 * i + 4) == 0x0B ||
        (formatBoot lba total fatSize).byte (446 + 16 * i + 4) == 0x0C) = none := by
    rw [List.find?_eq_none]
    intro i hi
    rw [hbyte i (List.mem_range.mp hi)]
    decide
  rw [Block.partition, hnone]

end BootSector

structure Drv.Works (s : Drv) : Prop where
  present : s.present = true
  working : ∀ n, s.ataOk n = true
  lba28 : s.sectors ≤ 268435456

/-- Run `x` over a working device whatever the cache holds. -/
def OnRaw (x : Prog Drv α) (Q : α → Store → Prop) (c : Store) : Prop :=
  ∀ s : Drv, s.Works → s.toStore = c → x.wp (fun a s' => s'.Works ∧ Q a s'.toStore) s

section Rules

variable {Q : α → Store → Prop} {R : β → Store → Prop} {c : Store} {lba : Nat}

theorem OnRaw.pure {a : α} (h : Q a c) : OnRaw (pure a) Q c := by
  rintro s hs rfl
  exact wp_pure.mpr ⟨hs, h⟩

theorem OnRaw.ataRead (hlba : lba < c.sectors) {f : Option Sector → Prog Drv β}
    (h : OnRaw (f (some (c.disk lba))) R c) : OnRaw (ataRead lba >>= f) R c := by
  rintro s hs rfl
  have hmod : lba % 268435456 = lba := Nat.mod_eq_of_lt (lt_of_lt_of_le hlba hs.lba28)
  simp only [Fat32.ataRead, wp_bind, wp_asks, id_eq, if_true, hs.present, wp_modify,
    hs.working, hmod, hlba, decide_true, Bool.and_self, wp_pure]
  exact h _ ⟨rfl, hs.working, hs.lba28⟩ rfl

theorem OnRaw.ataWrite (hlba : lba < c.sectors) {b : Sector} {f : Bool → Prog Drv β}
    (h : OnRaw (f true) R (c.put lba b)) : OnRaw (ataWrite lba b >>= f) R c := by
  rintro s hs rfl
  have hmod : lba % 268435456 = lba := Nat.mod_eq_of_lt (lt_of_lt_of_le hlba hs.lba28)
  simp only [Fat32.ataWrite, Fat32.modifyStore, wp_bind, wp_asks, id_eq, if_true, hs.present,
    wp_modify, hs.working, hmod, hlba, decide_true, Bool.and_self, wp_pure]
  exact h _ ⟨rfl, hs.working, hs.lba28⟩ rfl

/-- Once the cache is dropped, the driver is ready. -/
theorem On.after_dropCache {f : Unit → Prog Drv β} (h : On (f ()) R c) {s : Drv} (hs : s.Works)
    (hc : s.toStore = c) :
    (dropCache >>= f).wp (fun a s' => s'.Ready ∧ R a s'.toStore) s := by
  subst hc
  rw [dropCache, wp_bind, wp_modify]
  exact h { s with secCacheLba := 0xFFFFFFFF, secCacheDirty := false }
    ⟨hs.present, hs.working, rfl, Or.inl rfl, hs.lba28⟩ rfl

/-- Write one sector over and over. -/
theorem OnRaw.writeAll {base n : Nat} {b : Sector} (hlt : base + n ≤ c.sectors)
    (h28 : c.sectors ≤ 268435456) {f : Unit → Prog Drv β}
    (h : ∀ c', SameVars c c' →
      (∀ l, c'.disk l = if base ≤ l ∧ l < base + n then b else c.disk l) →
      OnRaw (f ()) R c') : OnRaw (writeAll base n b >>= f) R c := by
  suffices hrounds : ∀ k i c', i + k = n → SameVars c c' →
      (∀ l, c'.disk l = if base ≤ l ∧ l < base + i then b else c.disk l) →
      OnRaw (do
        let _ ← forUntil (α := Unit) (fun s => do
          let _ ← Fat32.ataWrite (u32 (base + s)) b
          Pure.pure none) k i
        f ()) R c' by
    have := hrounds n 0 c (by omega) (SameVars.refl c) fun l => by rw [if_neg (by omega)]
    simpa [Fat32.writeAll] using this
  intro k
  induction k with
  | zero =>
      intro i c' hi hv hd
      obtain rfl : i = n := by omega
      simpa [forUntil] using h c' hv hd
  | succ k ih =>
      intro i c' hi hv hd
      rw [forUntil]
      simp only [bind_assoc, pure_bind]
      have hsec : c'.sectors = c.sectors := hv.sectors
      rw [u32_of_lt (by omega)]
      apply OnRaw.ataWrite (by omega)
      refine ih (i + 1) _ (by omega) (hv.trans (sameVars_put _ _)) fun l => ?_
      rw [disk_put, hd]
      by_cases hl : l = base + i
      · rw [if_pos hl, if_pos (by omega)]
      · rw [if_neg hl]
        by_cases hin : base ≤ l ∧ l < base + i
        · rw [if_pos hin, if_pos (by omega)]
        · rw [if_neg hin, if_neg (by omega)]

end Rules

section Geometry

variable {total : Nat}

/-- The FATs are long enough, and leave room for a cluster. -/
theorem formatFatSize_spec (hlo : 56 ≤ total) (hhi : total < 268435456) :
    8 ≤ formatFatSize total ∧ 32 + 2 * formatFatSize total + 8 ≤ total ∧
      ((total - (32 + 2 * formatFatSize total)) / 8 + 2) * 4 ≤ formatFatSize total * 512 := by
  unfold formatFatSize
  rw [sub32_of_le (by omega) (by omega)]
  simp only [u32]
  omega

end Geometry

/-- The disk that `fat32_format` leaves behind. -/
def formatDisk (total : Nat) (disk : Nat → Sector) : Nat → Sector := fun l =>
  if l = 0 then formatBoot 0 total (formatFatSize total)
  else if l = 32 ∨ l = 32 + formatFatSize total then fatHead
  else if 32 ≤ l ∧ l < 32 + 2 * formatFatSize total + 8 then Block.zero 512
  else disk l

theorem OnRaw.fat32Format {c : Store} {R : β → Store → Prop} (hlo : 56 ≤ c.sectors)
    (hhi : c.sectors < 268435456) {f : Bool → Prog Drv β}
    (h : ∀ c', SameVars c c' → c'.disk = formatDisk c.sectors c.disk → OnRaw (f true) R c') :
    OnRaw (fat32Format 0 c.sectors >>= f) R c := by
  obtain ⟨h8, hroom, -⟩ := formatFatSize_spec hlo hhi
  rw [Fat32.fat32Format, bind_assoc]
  unfold formatDisk at h
  generalize hF : formatFatSize c.sectors = F at h h8 hroom ⊢
  apply OnRaw.ataWrite (by omega)
  rw [if_pos rfl]
  have h₀ : u32 (0 + 32) = 32 := rfl
  have h₁ : u32 (32 + F) = 32 + F := u32_of_lt (by omega)
  have h₂ : u32 (32 + u32 (2 * F)) = 32 + 2 * F := by
    rw [u32_of_lt (n := 2 * F) (by omega), u32_of_lt (by omega)]
  simp only [h₀, h₁, h₂, bind_assoc, pure_bind]
  have hv₀ := sameVars_put (c := c) 0 (patchAll (Block.zero 512) (bpbFields 0 c.sectors F))
  have hd₀ := fun l => disk_put (c := c) 0 l (patchAll (Block.zero 512) (bpbFields 0 c.sectors F))
  generalize c.put 0 (patchAll (Block.zero 512) (bpbFields 0 c.sectors F)) = c₀ at hv₀ hd₀ ⊢
  have hs₀ := hv₀.sectors
  apply OnRaw.writeAll (by omega) (by omega)
  intro c₁ hv₁ hd₁
  have hs₁ := hv₁.sectors
  apply OnRaw.writeAll (by omega) (by omega)
  intro c₂ hv₂ hd₂
  have hs₂ := hv₂.sectors
  apply OnRaw.ataWrite (by omega)
  apply OnRaw.ataWrite (by rw [sectors_put]; omega)
  have hv₄ := (sameVars_put (c := c₂) 32 fatHead).trans
    (sameVars_put (c := c₂.put 32 fatHead) (32 + F) fatHead)
  have hd₄ : ∀ l, ((c₂.put 32 fatHead).put (32 + F) fatHead).disk l =
      if l = 32 + F then fatHead else if l = 32 then fatHead else c₂.disk l := by
    intro l
    rw [disk_put, disk_put]
  generalize (c₂.put 32 fatHead).put (32 + F) fatHead = c₄ at hv₄ hd₄ ⊢
  have hs₄ := hv₄.sectors
  apply OnRaw.writeAll (by omega) (by omega)
  intro c₅ hv₅ hd₅
  apply h c₅ (((hv₀.trans hv₁).trans hv₂).trans (hv₄.trans hv₅))
  funext l
  rw [hd₅, hd₄, hd₂, hd₁, hd₀]
  rw [formatBoot]
  split_ifs <;> first | rfl | omega

def formatVol (total : Nat) : Vol where
  lbaStart := 0
  secPerClus := 8
  numFats := 2
  fatSize := formatFatSize total
  rootCluster := 2
  fatLba := 32
  dataLba := 32 + 2 * formatFatSize total
  totalClusters := (total - (32 + 2 * formatFatSize total)) / 8

theorem vol_formatBoot {total : Nat} (hlo : 56 ≤ total) (hhi : total < 268435456) :
    Block.vol (formatBoot 0 total (formatFatSize total)) 0 = formatVol total := by
  obtain ⟨-, hroom, -⟩ := formatFatSize_spec hlo hhi
  have h₁ : (formatBoot 0 total (formatFatSize total)).word 36 4 = formatFatSize total :=
    formatBoot_fatSize (by omega)
  have h₂ : Block.totalSectors (formatBoot 0 total (formatFatSize total)) = total := by
    rw [Block.totalSectors, formatBoot_total (by omega), if_pos (by omega)]
  have h₃ : Block.dataStart (formatBoot 0 total (formatFatSize total)) =
      32 + 2 * formatFatSize total := by
    rw [Block.dataStart, formatBoot_reserved, formatBoot_numFats, h₁]
    rfl
  obtain ⟨h₄, h₅, h₆⟩ := @Block.vol_of_start (formatBoot 0 total (formatFatSize total)) 0
    (by omega) (by omega)
  rw [formatBoot_reserved] at h₄
  rw [h₃] at h₅
  rw [Block.clusters, h₂, h₃, formatBoot_secPerClus] at h₆
  have hspc : (Block.vol (formatBoot 0 total (formatFatSize total)) 0).secPerClus = 8 := by
    change ((formatBoot 0 total (formatFatSize total)).byte 13).toNat = 8
    rw [formatBoot_secPerClus]
    rfl
  have hfats : (Block.vol (formatBoot 0 total (formatFatSize total)) 0).numFats = 2 := by
    change ((formatBoot 0 total (formatFatSize total)).byte 16).toNat = 2
    rw [formatBoot_numFats]
    rfl
  have hsize : (Block.vol (formatBoot 0 total (formatFatSize total)) 0).fatSize =
      formatFatSize total := h₁
  have hroot : (Block.vol (formatBoot 0 total (formatFatSize total)) 0).rootCluster = 2 :=
    formatBoot_root
  have hstart : (Block.vol (formatBoot 0 total (formatFatSize total)) 0).lbaStart = 0 := rfl
  generalize Block.vol (formatBoot 0 total (formatFatSize total)) 0 = v at *
  cases v
  simp only at hspc hfats hsize hroot hstart h₄ h₅ h₆
  subst hspc hfats hsize hroot hstart h₄ h₅ h₆
  simp only [formatVol, Vol.mk.injEq]
  simp

/-- A formatted disk is a blank volume. -/
theorem blank_formatDisk {c : Store} {disk : Nat → Sector} (hlo : 56 ≤ c.sectors)
    (hhi : c.sectors < 268435456) (hvol : c.vol = formatVol c.sectors)
    (hdisk : c.disk = formatDisk c.sectors disk) : c.Blank := by
  obtain ⟨h8, hroom, hfat⟩ := formatFatSize_spec hlo hhi
  constructor
  · rw [hvol]
    constructor
    · exact Nat.succ_pos 7
    · exact (by decide : 8 ≤ 128)
    · exact Nat.succ_pos 1
    · exact hfat
    · exact Nat.le_refl _
    · simp only [formatVol]
      omega
    · omega
    · simp only [formatVol]
      omega
  · rw [hvol]
    rfl
  · intro f s hf hs
    rw [hvol] at hf hs ⊢
    simp only [formatVol] at hf hs ⊢
    rw [hdisk, formatDisk]
    generalize formatFatSize c.sectors = F at *
    obtain rfl | rfl : f = 0 ∨ f = 1 := by omega
    · by_cases h0 : s = 0
      · rw [if_neg (by omega), if_pos (by omega), if_pos h0]
      · rw [if_neg (by omega), if_neg (by omega), if_pos (by omega), if_neg h0]
    · by_cases h0 : s = 0
      · rw [if_neg (by omega), if_pos (by omega), if_pos h0]
      · rw [if_neg (by omega), if_neg (by omega), if_pos (by omega), if_neg h0]
  · intro j hj
    rw [Store.sec, Vol.secLba]
    rw [hvol] at hj ⊢
    simp only [formatVol] at hj ⊢
    rw [hdisk, formatDisk]
    generalize formatFatSize c.sectors = F at *
    rw [if_neg (by omega), if_neg (by omega), if_pos (by omega)]

section Check

variable {Q : α → Store → Prop} {R : β → View → Prop} {w : View} {c : Store}

/-- The two sectors that a comparison of the FATs reads are equal, and on the
device. -/
theorem mirror_sectors (hs : c.vol.Sound c.sectors) (hm : c.Mirrored) (h2 : 2 ≤ c.vol.numFats)
    {i : Nat} (hi : i < c.vol.fatSize) :
    u32 (c.vol.fatLba + i) < c.sectors ∧
      u32 (u32 (c.vol.fatLba + c.vol.fatSize) + i) < c.sectors ∧
      c.disk (u32 (u32 (c.vol.fatLba + c.vol.fatSize) + i)) = c.disk (u32 (c.vol.fatLba + i)) := by
  have h₁ := hs.copy_le (f := 1) (by omega)
  have h₂ := hs.dataLba_le
  have h₃ := hs.lba28
  have heq := hm 1 i (by omega) hi
  rw [Nat.one_mul] at h₁ heq
  rw [u32_of_lt (n := c.vol.fatLba + i) (by omega),
    u32_of_lt (n := c.vol.fatLba + c.vol.fatSize) (by omega), u32_of_lt (by omega)]
  exact ⟨by omega, by omega, heq⟩

/-- A loop whose round `i` takes the store `C i` to the next one. -/
theorem OnRaw.forUntil_steps {α : Type} {R : β → Store → Prop} {body : Nat → Prog Drv (Option α)}
    {f : Option α → Prog Drv β} {b : Nat} {C : Nat → Store}
    (hbody : ∀ i < b, ∀ g : Option α → Prog Drv β, OnRaw (g none) R (C (i + 1)) →
      OnRaw (body i >>= g) R (C i))
    (h : OnRaw (f none) R (C b)) :
    ∀ n i, i + n = b → OnRaw (Prog.forUntil body n i >>= f) R (C i) := by
  intro n
  induction n with
  | zero =>
      intro i hi
      rw [Prog.forUntil, pure_bind]
      obtain rfl : i = b := hi
      exact h
  | succ n ih =>
      intro i hi
      rw [Prog.forUntil, bind_assoc]
      exact hbody i (by omega) _ (ih (i + 1) (by omega))

/-- A loop that keeps the store in every round. -/
theorem OnRaw.forUntil {α : Type} {R : β → Store → Prop} {body : Nat → Prog Drv (Option α)}
    {f : Option α → Prog Drv β} {b : Nat}
    (hbody : ∀ i < b, ∀ g : Option α → Prog Drv β, OnRaw (g none) R c →
      OnRaw (body i >>= g) R c)
    (h : OnRaw (f none) R c) : ∀ n i, i + n = b → OnRaw (Prog.forUntil body n i >>= f) R c :=
  OnRaw.forUntil_steps (C := fun _ => c) hbody h

theorem OnRaw.mountMirror {R : β → Store → Prop} (hs : c.vol.Sound c.sectors) (hm : c.Mirrored)
    (h2 : 2 ≤ c.vol.numFats) {f : Unit → Prog Drv β} (h : OnRaw (f ()) R c) :
    OnRaw (mountMirror c.vol >>= f) R c := by
  rw [Fat32.mountMirror, bind_assoc]
  simp only [pure_bind]
  refine OnRaw.forUntil (b := c.vol.fatSize) (fun i hi g hg => ?_) h _ 0 (by omega)
  obtain ⟨h₁, h₃, heq⟩ := mirror_sectors hs hm h2 hi
  rw [bind_assoc]
  apply OnRaw.ataRead h₁
  simp only [bind_assoc]
  apply OnRaw.ataRead h₃
  simp only [heq, if_true, pure_bind]
  exact hg

/-- On equal FATs the comparison finds nothing and writes nothing. -/
theorem On.checkFatMismatch {st : FsckStats} (hs : c.vol.Sound c.sectors) (hm : c.Mirrored) :
    On (Fat32.checkFatMismatch st) (fun st' c' => st' = st ∧ c' = c) c := by
  rw [Fat32.checkFatMismatch]
  apply On.getStore
  simp only
  by_cases h2 : c.vol.numFats < 2
  · rw [if_pos h2]
    exact On.pure ⟨rfl, rfl⟩
  rw [if_neg h2]
  refine On.loop_of_measure (fun p c' => p.2 = st ∧ c' = c ∧ p.1 ≤ c.vol.fatSize)
    (fun p _ => c.vol.fatSize - p.1) ?_ ⟨rfl, rfl, Nat.zero_le _⟩
  rintro ⟨i, st'⟩ c' ⟨rfl, rfl, hi⟩
  simp only
  by_cases hlt : i < c'.vol.fatSize
  · obtain ⟨h₁, h₃, heq⟩ := mirror_sectors hs hm (by omega) hlt
    rw [if_pos hlt]
    apply On.ataRead h₁
    apply On.ataRead h₃
    simp only [heq, if_true]
    exact On.pure ⟨⟨rfl, rfl, hlt⟩, by omega⟩
  · rw [if_neg hlt]
    exact On.pure ⟨rfl, rfl⟩

theorem Holds.checkFatMismatch {st : FsckStats} {f : FsckStats → Prog Drv β}
    (h : Holds (f st) R w) : Holds (checkFatMismatch st >>= f) R w := by
  intro c hc
  apply On.bind
  refine (On.checkFatMismatch hc.sound hc.mirrored).mono ?_
  rintro st' c' ⟨rfl, rfl⟩
  exact h c' hc

/-- The tables after the root directory of an empty volume has been walked. -/
def emptyWalk (v : Vol) (w₀ : Walk) : Walk :=
  { w₀ with
    bmp := Function.update w₀.bmp (v.rootCluster - 2) true
    refs := Function.update w₀.refs (v.rootCluster - 2) (v.rootCluster, 0) }

theorem Holds.walkDir_empty (h : w.Empty) {levels : Nat} {w₀ : Walk}
    (hbmp : w₀.bmp (w.vol.rootCluster - 2) = false) {f : Walk → Prog Drv β}
    (hf : Holds (f (emptyWalk w.vol w₀)) R w) :
    Holds (walkDir (levels + 1) w.vol.rootCluster w₀ >>= f) R w := by
  refine Holds.of_sound fun n hn => ?_
  have hr := h.root
  have htotal := hn.total_le
  rw [Fat32.walkDir, bind_assoc]
  apply Holds.getStore
  intro c hc
  rw [hc.vol]
  simp only
  rw [if_neg (by have := hr.1; omega), bind_assoc, fsckMarkChain]
  apply Holds.bind
  apply Holds.loop
  rw [markStep]
  simp only [hbmp, Bool.false_eq_true, if_false]
  rw [if_pos ⟨hr.1, by rw [u32_of_lt (by omega)]; exact hr.2, by have := hr.1; have := hr.2; omega⟩]
  apply Holds.fatGet hr
  rw [if_pos (Or.inl h.eoc)]
  apply Holds.pure
  simp only
  apply Holds.bind
  apply Holds.loop
  rw [walkStep, fsckDirIterNext, bind_assoc]
  apply Holds.getStore
  intro c' hc'
  simp only [bind_assoc]
  refine Holds.secRead (k := w.vol.rootCluster) (j := 0) ?_ hr hn.spc_pos ?_
  · exact hn.clusterToLba_eq hr
  rw [if_pos rfl]
  simp only [bind_assoc]
  apply HoldsAt.cached hr hn.spc_pos
  have hoff : (fsckDirIterInit w.vol w.vol.rootCluster).off = 0 := rfl
  rw [hoff, if_pos (by decide), pure_bind, h.zero]
  simp only
  have hfirst : DirEntry.first ((Block.zero 512).slice 0 32) = 0 := by
    rw [DirEntry.first, Block.byte_slice _ _ (by omega), Block.byte_zero]
  rw [if_pos hfirst]
  exact HoldsAt.of_holds (Holds.pure hf)

theorem Holds.orphanScan_empty (h : w.Empty) {total : Nat} {st : OrphanState}
    (hbmp : st.walk.bmp (w.vol.rootCluster - 2) = true) {n k : Nat} (hk : 2 ≤ k)
    (hn : k + n = w.vol.totalClusters + 2) {f : OrphanState → Prog Drv β}
    (hf : Holds (f st) R w) : Holds (orphanScan total n k st >>= f) R w := by
  induction n generalizing k with
  | zero =>
      rw [orphanScan, pure_bind]
      exact hf
  | succ n ih =>
      have hr : w.vol.InRange k := ⟨hk, by omega⟩
      rw [orphanScan, bind_assoc, orphanStep, bind_assoc]
      apply Holds.fatGet hr
      by_cases hroot : k = w.vol.rootCluster
      · have heoc := h.eoc
        rw [← hroot] at hbmp heoc
        rw [if_neg (by omega), if_pos hbmp, pure_bind]
        exact ih (by omega) (by omega)
      · rw [if_pos (Or.inl (h.free k hr hroot)), pure_bind]
        exact ih (by omega) (by omega)

theorem View.Empty.of_eq {w' : View} (h : w.Empty) (hv : w'.vol = w.vol) (hf : w'.fat = w.fat)
    (hs : w'.sec = w.sec) : w'.Empty := by
  constructor
  · rw [hv]
    exact h.root
  · rw [hv, hf]
    exact h.eoc
  · rw [hv, hf]
    exact h.free
  · rw [hv, hs]
    exact h.zero

/-- The checker finds nothing wrong with an empty volume and leaves it empty. -/
theorem Holds.chimerafsFsck_empty (h : w.Empty) {f : FsckStats → Prog Drv β}
    (hf : ∀ w', w'.vol = w.vol → w'.Empty → Holds (f FsckStats.init) R w') :
    Holds (chimerafsFsck >>= f) R w := by
  refine Holds.of_sound fun n hn => ?_
  have htotal := hn.total_le
  rw [chimerafsFsck, bind_assoc]
  apply Holds.getStore
  intro c hc
  rw [hc.vol]
  simp only [bind_assoc]
  apply Holds.checkFatMismatch
  have hsummary : ∀ w₀ : Walk, w₀.stats = FsckStats.init → w₀.needReadonly = false →
      ∀ w' : View, w'.vol = w.vol → w'.Empty → Holds (fsckSummary w₀ >>= f) R w' := by
    intro w₀ hst hro w' hv' he'
    rw [fsckSummary, hst, hro]
    exact hf w' hv' he'
  apply Holds.kmalloc
  intro b w₁ hv₁ hf₁ hs₁
  have he₁ := h.of_eq hv₁ hf₁ hs₁
  cases b with
  | false =>
      simp only [Bool.false_eq_true, if_false]
      exact hsummary _ rfl rfl w₁ hv₁ he₁
  | true =>
      simp only [if_true, bind_assoc]
      apply Holds.kmalloc
      intro b' w₂ hv₂ hf₂ hs₂
      have he₂ := he₁.of_eq hv₂ hf₂ hs₂
      have hv : w₂.vol = w.vol := hv₂.trans hv₁
      cases b' with
      | false =>
          simp only [Bool.false_eq_true, if_false]
          exact hsummary _ rfl rfl w₂ hv he₂
      | true =>
          simp only [if_true, bind_assoc]
          rw [← hv]
          rw [← hv] at htotal
          apply Holds.walkDir_empty he₂ rfl
          rw [u32_of_lt (by omega)]
          apply Holds.orphanScan_empty he₂
          · simp [emptyWalk]
          · omega
          · omega
          · exact hsummary _ rfl rfl w₂ hv he₂

end Check

section MountEmpty

variable {c : Store}

theorem OnRaw.mountBoot (hlo : 56 ≤ c.sectors) (hhi : c.sectors < 268435456)
    (hsig : Block.signed (c.disk 0) = false) :
    OnRaw mountBoot (fun o c' => o = some (0, formatBoot 0 c.sectors (formatFatSize c.sectors)) ∧
      SameVars c c' ∧ c'.disk = formatDisk c.sectors c.disk) c := by
  rintro s hs rfl
  have htotal : u32 s.sectors = s.sectors := u32_of_lt (by omega)
  rw [Fat32.mountBoot, wp_bind, wp_asks]
  simp only [id_eq, hs.present, Bool.not_true, Bool.false_eq_true, if_false, htotal]
  rw [if_neg (show ¬ s.sectors = 0 by omega)]
  refine (?_ : OnRaw _ (fun o c' =>
    o = some (0, formatBoot 0 s.sectors (formatFatSize s.sectors)) ∧
      SameVars s.toStore c' ∧ c'.disk = formatDisk s.sectors s.disk) s.toStore) s hs rfl
  apply OnRaw.ataRead (by omega)
  simp only [hsig, Bool.not_false, reformatIf, if_true, bind_assoc]
  apply OnRaw.fat32Format hlo hhi
  intro c₁ hv hd
  have hsec := hv.sectors
  rw [if_pos rfl]
  apply OnRaw.ataRead (by omega)
  have hboot : c₁.disk 0 = formatBoot 0 s.sectors (formatFatSize s.sectors) := by
    rw [hd]
    rfl
  simp only [hboot, formatBoot_partition]
  apply OnRaw.ataRead (by omega)
  simp only [hboot, formatBoot_signed, formatBoot_isFat32, Bool.not_true, Bool.false_eq_true,
    if_false, pure_bind]
  exact OnRaw.pure ⟨rfl, hv, hd⟩

/-- The end of the mount, once the cache is dropped. -/
theorem On.mountEnd {v : Vol} (hb : c.Blank) (hv : c.vol = v) :
    On (do
      Fat32.modifyStore fun c => { c with volMounted := true }
      let check ← chimerafsFsck
      Fat32.modifyStore fun c => { c with volMounted := true }
      Pure.pure check) (fun st c' => ∃ w, c'.Shows w ∧ st = FsckStats.init ∧ w.mounted = true ∧
        w.vol = v ∧ w.Empty) c := by
  refine On.modifyStore rfl rfl ?_
  have hb' : Store.Blank { c with volMounted := true } := ⟨hb.sound, hb.root, hb.fat, hb.data⟩
  refine Holds.chimerafsFsck_empty hb'.empty ?_ _ hb'.shows
  intro w' hv' he' c' hc'
  refine On.modifyStore rfl rfl (On.pure ⟨{ w' with mounted := true }, ?_, rfl, rfl,
    hv'.trans hv, he'.of_eq rfl rfl rfl⟩)
  refine ⟨?_, hc'.sound, hc'.mirrored⟩
  cases hc'.view
  rfl

/-- What follows the division, on a blank volume. -/
theorem mountVol_blank {s : Drv} (hs : s.Works) {v : Vol} (h2 : 2 ≤ v.numFats)
    (hb : Store.Blank { s.toStore with vol := v, fds := fun _ => Fd.closed }) :
    (mountVol v).wp (fun st s' => s'.Ready ∧ ∃ w, s'.toStore.Shows w ∧ st = FsckStats.init ∧
      w.mounted = true ∧ w.vol = v ∧ w.Empty) s := by
  have hmirror : OnRaw (mountMirror v) (fun _ c' =>
      c' = { s.toStore with vol := v, fds := fun _ => Fd.closed })
      { s.toStore with vol := v, fds := fun _ => Fd.closed } := by
    have h := OnRaw.mountMirror hb.sound hb.mirrored h2 (f := fun _ => Pure.pure ())
      (OnRaw.pure (Q := fun _ c' =>
        c' = { s.toStore with vol := v, fds := fun _ => Fd.closed }) rfl)
    rwa [bind_pure_unit] at h
  rw [mountVol, Fat32.modifyStore, wp_bind, wp_modify]
  simp only [if_pos h2]
  rw [wp_bind]
  refine (hmirror { s with toStore := { s.toStore with vol := v, fds := fun _ => Fd.closed } }
    ⟨hs.present, hs.working, hs.lba28⟩ rfl).mono ?_
  rintro - s₁ ⟨hs₁, hc₁⟩
  refine On.after_dropCache (R := fun st c' => ∃ w, c'.Shows w ∧ st = FsckStats.init ∧
    w.mounted = true ∧ w.vol = v ∧ w.Empty) ?_ hs₁ hc₁
  exact On.mountEnd hb rfl

/-- Mounting a disk that has no boot signature formats it; the mount succeeds,
the checker counts no error, and the volume is empty. -/
theorem fat32Mount_unsigned {s : Drv} (hs : s.Works) (hlo : 56 ≤ s.sectors)
    (hhi : s.sectors < 268435456) (hsig : Block.signed (s.disk 0) = false) :
    fat32Mount.wp (fun r s' => r = .mounted 512 FsckStats.init ∧ s'.Ready ∧
      s'.sectors = s.sectors ∧ ∃ w, s'.toStore.Shows w ∧ w.mounted = true ∧
        w.vol = formatVol s.sectors ∧ w.Empty) s := by
  rw [fat32Mount, wp_bind]
  refine (OnRaw.mountBoot hlo hhi hsig s hs rfl).mono ?_
  rintro o s₁ ⟨hs₁, rfl, hv₁, hd₁⟩
  have hsec₁ : s₁.sectors = s.sectors := hv₁.sectors
  simp only [formatBoot_secPerClus]
  rw [if_neg (by decide), vol_formatBoot hlo hhi, formatBoot_bytesPerSec, wp_bind]
  have hb : Store.Blank { s₁.toStore with
      vol := formatVol s.sectors, fds := fun _ => Fd.closed } :=
    @blank_formatDisk _ s.disk (by rw [hsec₁]; exact hlo) (by rw [hsec₁]; exact hhi)
      (by rw [hsec₁]) (by rw [hsec₁]; exact hd₁)
  obtain ⟨st, s', hr, hready, w, hw, rfl, hm, hv, he⟩ := mountVol_blank hs₁ (Nat.le_refl 2) hb
  have hsec' := (mountVol_vol hr).2
  exact hr.wp (wp_pure.mpr ⟨rfl, hready, hsec'.trans hsec₁, w, hw, hm, hv, he⟩)

end MountEmpty

/-- An empty root directory lists nothing. -/
theorem Holds.readdir_empty {w : View} (h : w.Empty) (hm : w.mounted = true) :
    Holds (Fat32.fat32Readdir [0x2F]) (fun r _ => r = (0, [])) w := by
  refine Holds.of_sound fun n hn => ?_
  have hlay := h.layout
  have htarget : w.vol.dirTarget (rootEntry w.vol) = w.vol.rootCluster := by
    have htotal := hn.total_le
    have hlt := h.root.2
    rw [Vol.dirTarget, rootEntry, DirEntry.cluster_setCluster _ (by omega)]
    split
    · rfl
    · rfl
  rw [Fat32.fat32Readdir]
  apply Holds.getStore
  intro c hc
  rw [hc.mounted, hm]
  simp only [Bool.not_true, Bool.false_eq_true, if_false]
  apply Holds.pathStat hlay
  rw [statPath, if_pos rfl]
  simp only [DirEntry.isDir_rootEntry, Bool.not_true, Bool.false_eq_true, if_false]
  rw [hc.vol, htarget]
  have hlists : w.Lists w.vol.rootCluster [w.vol.rootCluster] (Listing.blank w.vol.perCluster) :=
    hlay.lists (d := ⟨w.vol.rootCluster, Listing.blank w.vol.perCluster⟩) (by simp)
  apply Holds.readdirCluster hlists
  exact Holds.pure rfl

/-- A disk of 56 to 2^28 - 1 sectors without a boot signature is formatted and
mounted, with a sound geometry and at least one cluster; the FATs are equal, the
root directory is one cluster and lists nothing, all other clusters are free,
and the checker counts no error. -/
theorem format_then_mount {s : Drv} (hs : s.present = true ∧ ∀ n, s.ataOk n = true)
    (hlo : 56 ≤ s.sectors) (hhi : s.sectors < 268435456)
    (hsig : Block.signed (s.disk 0) = false) :
    fat32Mount.wp (fun r s' => r = .mounted 512 FsckStats.init ∧
      s'.vol.secPerClus = 8 ∧ s'.vol.numFats = 2 ∧ 1 ≤ s'.vol.totalClusters ∧
      (∀ k, s'.vol.InRange k → k * 4 / 512 < s'.vol.fatSize ∧ ∀ j < 8,
        s'.vol.dataLba ≤ s'.vol.secLba k j ∧ s'.vol.secLba k j < s.sectors) ∧
      s'.vol.fatLba + 2 * s'.vol.fatSize ≤ s'.vol.dataLba ∧
      (∀ i < s'.vol.fatSize, s'.disk (s'.vol.fatLba + s'.vol.fatSize + i) =
        s'.disk (s'.vol.fatLba + i)) ∧
      s'.vol.rootCluster = 2 ∧ 0x0FFFFFF8 ≤ s'.fat 2 ∧
      (∀ k, s'.vol.InRange k → k ≠ 2 → s'.fat k = 0) ∧
      (fat32Readdir [0x2F]).wp (fun r _ => r = (0, [])) s' ∧ s'.Ready ∧ s'.Consistent) s := by
  refine (fat32Mount_unsigned ⟨hs.1, hs.2, Nat.le_of_lt hhi⟩ hlo hhi hsig).mono ?_
  rintro r s' ⟨rfl, hready, hsec, w, hw, hm, hv, he⟩
  obtain ⟨-, hroom, -⟩ := formatFatSize_spec hlo hhi
  have hvol : s'.vol = formatVol s.sectors := hw.vol.trans hv
  have hsound := hw.sound
  have hroot := he.root
  have hlists := he.layout
  rw [hv] at hroot
  refine ⟨rfl, ?_, ?_, ?_, fun k hk => ⟨hsound.entry_lt hk, fun j hj => ⟨?_, ?_⟩⟩, ?_, fun i hi => ?_,
    ?_, ?_, fun k hk hne => ?_, ?_, hready, w, hw, _, _, hlists⟩
  · rw [hvol]
    rfl
  · rw [hvol]
    rfl
  · rw [hvol]
    simp only [formatVol]
    omega
  · unfold Vol.secLba
    omega
  · rw [← hsec]
    exact hsound.secLba_lt hk (by rw [hvol]; exact hj)
  · have := hsound.data
    rw [hvol] at this ⊢
    exact this
  · have hfats : 1 < s'.vol.numFats := by
      rw [hvol]
      exact Nat.lt_succ_self 1
    have := hw.mirrored 1 i hfats hi
    rwa [Nat.one_mul] at this
  · rw [hvol]
    rfl
  · have heoc := he.eoc
    rw [hv] at heoc
    rw [hw.fat (hv ▸ hroot)]
    exact heoc
  · have hk' : w.vol.InRange k := hw.vol ▸ hk
    rw [hw.fat hk', he.free k hk' (by rw [hv]; exact hne)]
  · exact ((Holds.readdir_empty he hm).wp hready hw).mono fun a _ h => h.2.choose_spec.2

/-- The smallest disk, all zeros. -/
theorem format_then_mount_zeroed :
    fat32Mount.wp (fun r s' => r = .mounted 512 FsckStats.init ∧ s'.Ready ∧ s'.Consistent)
      (unmounted 56 fun _ => Block.zero 512) := by
  have h := format_then_mount (s := unmounted 56 fun _ => Block.zero 512) ⟨rfl, fun _ => rfl⟩
    (Nat.le_refl 56) (by simp [unmounted]) (by simp [Block.signed, unmounted])
  refine h.mono ?_
  rintro r s' ⟨hr, -, -, -, -, -, -, -, -, -, -, hready, hcons⟩
  exact ⟨hr, hready, hcons⟩

end Chimaera.Fat32
