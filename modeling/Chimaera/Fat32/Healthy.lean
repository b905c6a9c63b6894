/-
The boot-time check and a new mount on a volume that is in order: no error is counted, the
files are those of before, and no sector is written but those of a damaged second FAT.
-/
import Chimaera.Fat32.Files
import Chimaera.Fat32.Format
import Chimaera.Fat32.Walking

namespace Chimaera.Fat32

open Prog

variable {c : Store} {v : View} {D : List Dir} {ch : Nat → List Nat} {w : Fat32.Walk} {s : Drv}

/-- `kmalloc` moves the end of the heap and nothing else. -/
theorem On.kmalloc {n : Nat} :
    On (Fat32.kmalloc n) (fun _ c' => ∃ p, c' = { c with heapPtr := p }) c := by
  rw [Fat32.kmalloc]
  apply On.getStore
  dsimp only
  by_cases hfull : 2097152 < u32 (c.heapPtr + u32 (n + 3) / 4 * 4)
  · rw [if_pos hfull]
    exact On.pure ⟨c.heapPtr, rfl⟩
  · rw [if_neg hfull]
    refine On.modifyStore rfl rfl ?_
    exact On.pure ⟨_, rfl⟩

/-- The orphan scan passes over clusters that are free, bad or marked. -/
theorem On.orphanScan_marked (hs : c.vol.Sound c.sectors) (st : OrphanState)
    (hmarked : ∀ k, c.vol.InRange k → c.fat k ≠ 0 → c.fat k ≠ 0x0FFFFFF7 →
      st.walk.bmp (k - 2) = true) {n k : Nat} (hk : 2 ≤ k) (hn : k + n = c.vol.totalClusters + 2) :
    On (orphanScan c.vol.totalClusters n k st) (fun st' c' => st' = st ∧ c' = c) c := by
  induction n generalizing k with
  | zero => exact On.pure ⟨rfl, rfl⟩
  | succ n ih =>
      have hr : c.vol.InRange k := ⟨hk, by omega⟩
      rw [orphanScan, orphanStep, bind_assoc]
      apply On.fatGet hs hr
      by_cases hfree : c.fat k = 0 ∨ c.fat k = 0x0FFFFFF7
      · rw [if_pos hfree, pure_bind]
        exact ih (by omega) (by omega)
      · rw [not_or] at hfree
        rw [if_neg (not_or.mpr hfree), if_pos (hmarked k hr hfree.1 hfree.2), pure_bind]
        exact ih (by omega) (by omega)

/-- Only the disk and the geometry count. -/
theorem Store.Shallow.congr {c' : Store} (hdisk : c'.disk = c.disk) (hvol : c'.vol = c.vol)
    (hsec : c'.sectors = c.sectors) {n a : Nat} (h : c.Shallow ch D n a) :
    c'.Shallow ch D n a := by
  induction n generalizing a with
  | zero => exact h
  | succ n ih =>
      intro d hd ha
      obtain ⟨hend, hsub⟩ := h d hd ha
      refine ⟨fun hfull => ?_, fun run e he hdir h0 => ih (hsub run e he hdir h0)⟩
      have hbehind := hend hfull
      unfold Store.EndsBehind at hbehind ⊢
      rw [hdisk, hvol, hsec]
      exact hbehind

/-- Over a consistent tree that the walk covers, the check changes nothing but the end of the
heap, and counts nothing. -/
theorem On.chimerafsFsck_shallow (hc : c.Shows v) (h : v.Layout ch D [])
    (hv : ∀ d ∈ D, ∀ it ∈ d.listing.items, it.Valid c.vol.totalClusters)
    (hdeep : c.Shallow ch D 33 c.vol.rootCluster) :
    On chimerafsFsck (fun st c' => st = FsckStats.init ∧ ∃ p, c' = { c with heapPtr := p }) c := by
  have htotal := hc.sound.total_le
  have hsummary : ∀ (w : Fat32.Walk) (c' : Store), w.stats = FsckStats.init →
      w.needReadonly = false → (∃ p, c' = { c with heapPtr := p }) → On (fsckSummary w)
        (fun st c' => st = FsckStats.init ∧ ∃ p, c' = { c with heapPtr := p }) c' := by
    intro w c' hst hro hheap
    rw [fsckSummary, hst, hro]
    exact On.pure ⟨rfl, hheap⟩
  rw [chimerafsFsck]
  apply On.getStore
  apply On.bind
  refine (On.checkFatMismatch hc.sound hc.mirrored).mono ?_
  rintro st c' ⟨rfl, rfl⟩
  apply On.bind
  refine On.kmalloc.mono ?_
  rintro b₁ c₁ ⟨p₁, rfl⟩
  cases b₁ with
  | false => exact hsummary .unmarked _ rfl rfl ⟨p₁, rfl⟩
  | true =>
      rw [if_pos rfl]
      apply On.bind
      refine On.kmalloc.mono ?_
      rintro b₂ c₂ ⟨p₂, rfl⟩
      cases b₂ with
      | false => exact hsummary .unmarked _ rfl rfl ⟨p₂, rfl⟩
      | true =>
          rw [if_pos rfl]
          obtain ⟨d, hd, hroot⟩ := h.tree.root
          have hvol : c'.vol = v.vol := hc.vol
          have hc₂ : Store.Shows { c' with heapPtr := p₂ } { v with heapPtr := p₂ } := by
            refine ⟨?_, hc.sound, hc.mirrored⟩
            cases hc.view
            rfl
          have h₂ : View.Layout { v with heapPtr := p₂ } ch D [] := h.of_eq rfl rfl rfl
          apply On.bind
          have hwalk := On.walkDir_marks (w := .unmarked) (n := 33) hc₂ h₂ hv hd
            (by rw [hroot, ← hvol]; exact hdeep.congr rfl rfl rfl) (fun h0 => absurd h0 (by decide))
            (fun _ _ => rfl)
          rw [hroot, ← hvol] at hwalk
          refine hwalk.mono ?_
          rintro w c₃ ⟨rfl, hw⟩
          apply On.bind
          have hscan := On.orphanScan_marked (c := { c' with heapPtr := p₂ })
            (n := c'.vol.totalClusters) hc.sound ⟨0, 0, false, w⟩ (fun k hk h0 h7 => ?_)
            (Nat.le_refl 2) (Nat.add_comm _ _)
          · rw [u32_of_lt (by omega), Nat.add_sub_cancel]
            refine hscan.mono ?_
            rintro st c₄ ⟨rfl, rfl⟩
            exact hsummary _ _ hw.stats hw.needReadonly ⟨p₂, rfl⟩
          · have hcov := h₂.chains.covered k (hvol ▸ hk) (by rwa [← hc₂.fat (hvol ▸ hk)])
              (by rwa [← hc₂.fat (hvol ▸ hk)])
            rw [List.append_nil] at hcov
            have hmem := h₂.mem_or_covered hcov
            rw [hw.bmp, Nat.sub_add_cancel hk.1]
            rw [hvol]
            exact Or.inr hmem

/-- The check of a volume that is in order writes no sector, counts no error and does not turn
the volume read-only. -/
theorem chimerafsFsck_intact (hs : s.Ready) (hc : s.toStore.Shows v) (h : v.Layout ch D [])
    (hv : ∀ d ∈ D, ∀ it ∈ d.listing.items, it.Valid s.vol.totalClusters)
    (hdeep : s.toStore.Shallow ch D 33 s.vol.rootCluster) :
    ∃ t p, chimerafsFsck.Runs s FsckStats.init t ∧ t.Ready ∧
      t.toStore = { s.toStore with heapPtr := p } := by
  obtain ⟨st, t, hrun, ht, rfl, p, hp⟩ := On.chimerafsFsck_shallow hc h hv hdeep s hs rfl
  exact ⟨t, p, hrun, ht, hp⟩

/-- A sub-directory and a file of two clusters with a long name. -/
theorem chimerafsFsck_intact_stocked : ∃ t p, chimerafsFsck.Runs stocked FsckStats.init t ∧
    t.Ready ∧ t.toStore = { stocked.toStore with heapPtr := p } := by
  refine chimerafsFsck_intact stocked_ready stocked_shows stocked_layout ?_ ?_
  · intro d hd it hit
    rcases List.mem_pair.mp hd with rfl | rfl
    · rcases List.mem_pair.mp hit with rfl | rfl
      · exact ⟨⟨by decide, by decide, by decide⟩, fun h => absurd h (by decide)⟩
      · exact ⟨⟨by decide, by decide, by decide⟩, fun h => absurd h (by decide)⟩
    · simp only [Listing.stockedSub, List.mem_cons, List.not_mem_nil, or_false] at hit
      rcases hit with rfl | rfl | rfl
      · exact ⟨by decide, by decide, by decide⟩
      · exact ⟨by decide, by decide, by decide⟩
      · exact ⟨⟨by decide, by decide, by decide⟩, fun _ => by decide⟩
  · have htail : ∀ d ∈ stockedDirs, d.listing.tail ≠ [] := by
      intro d hd
      rcases List.mem_pair.mp hd with rfl | rfl
      · simp [Listing.stockedRoot]
      · simp [Listing.stockedSub]
    intro d hd ha
    refine ⟨fun hfull => absurd hfull (htail d hd), fun run e he hdir _ => ?_⟩
    obtain rfl : e = subEntry := by
      rcases mem_stocked hd he with ⟨-, ⟨-, rfl⟩ | ⟨-, rfl⟩⟩ | ⟨-, -, rfl⟩
      · rfl
      · exact absurd hdir (by decide)
      · exact absurd hdir (by decide)
    intro d' hd' ha'
    refine ⟨fun hfull => absurd hfull (htail d' hd'), fun run' e' he' hdir' _ => ?_⟩
    rcases mem_stocked hd' he' with ⟨h2, -⟩ | ⟨-, -, rfl⟩
    · rw [ha'] at h2
      exact absurd h2 (by decide)
    · exact absurd hdir' (by decide)

/-- The boot sectors on the disk describe the volume `v`. -/
structure Store.Boots (c : Store) (v : Vol) : Prop where
  signed : Block.signed (c.disk 0) = true
  lt : Block.partition (c.disk 0) < c.sectors
  boot : Block.signed (c.disk (Block.partition (c.disk 0))) = true
  type : Block.isFat32 (c.disk (Block.partition (c.disk 0))) = true
  vol : Block.vol (c.disk (Block.partition (c.disk 0))) (Block.partition (c.disk 0)) = v

theorem OnRaw.mountBoot_signed {u : Vol} (h : c.Boots u) :
    OnRaw Fat32.mountBoot (fun o c' => c' = c ∧ ∃ lba boot, o = some (lba, boot) ∧
      Block.vol boot lba = u) c := by
  rintro s hs rfl
  have hpos : 0 < s.sectors := lt_of_le_of_lt (Nat.zero_le _) h.lt
  rw [Fat32.mountBoot, wp_bind, wp_asks]
  simp only [id_eq, hs.present, Bool.not_true, Bool.false_eq_true, if_false]
  refine (?_ : OnRaw _ (fun o c' => c' = s.toStore ∧ ∃ lba boot, o = some (lba, boot) ∧
      Block.vol boot lba = u) s.toStore) s hs rfl
  apply OnRaw.ataRead hpos
  simp only [h.signed, Bool.not_true, reformatIf, Bool.false_eq_true, if_false, pure_bind]
  apply OnRaw.ataRead h.lt
  simp only [h.boot, h.type, Bool.not_true, Bool.false_eq_true, if_false, pure_bind]
  exact OnRaw.pure ⟨rfl, _, _, rfl, h.vol⟩

/-- The first `n` sectors of the first FAT, copied over those of the second that differ. -/
def Store.heal (c : Store) : Nat → Store
  | 0 => c
  | n + 1 =>
      if c.disk (c.vol.fatLba + n) = c.disk (c.vol.fatLba + c.vol.fatSize + n) then c.heal n
      else (c.heal n).put (c.vol.fatLba + c.vol.fatSize + n) (c.disk (c.vol.fatLba + n))

/-- Nothing but the disk and the log changes. -/
theorem Store.heal_eq (n : Nat) :
    c.heal n = { c with disk := (c.heal n).disk, log := (c.heal n).log } := by
  induction n with
  | zero => rfl
  | succ n ih =>
      rw [Store.heal]
      split
      · exact ih
      · rw [Store.put, ih]

theorem Store.heal_mounted (n : Nat) {b : Bool} :
    { c.heal n with volMounted := b } = Store.heal { c with volMounted := b } n := by
  induction n with
  | zero => rfl
  | succ n ih =>
      have hn : (Store.heal { c with volMounted := b } n).disk = (c.heal n).disk ∧
          (Store.heal { c with volMounted := b } n).log = (c.heal n).log := by
        rw [← ih]
        exact ⟨rfl, rfl⟩
      rw [Store.heal, Store.heal]
      split
      · exact ih
      · rw [← ih]
        rfl

theorem Store.disk_heal {n : Nat} (hn : n ≤ c.vol.fatSize) (lba : Nat) : (c.heal n).disk lba =
    if c.vol.fatLba + c.vol.fatSize ≤ lba ∧ lba < c.vol.fatLba + c.vol.fatSize + n then
      c.disk (lba - c.vol.fatSize)
    else c.disk lba := by
  induction n with
  | zero => rw [if_neg (by omega), Store.heal]
  | succ n ih =>
      have ih' := ih (by omega)
      by_cases hlba : lba = c.vol.fatLba + c.vol.fatSize + n
      · subst hlba
        have hback : c.vol.fatLba + c.vol.fatSize + n - c.vol.fatSize = c.vol.fatLba + n := by
          omega
        rw [if_pos (by omega), hback, Store.heal]
        split
        · next heq =>
          rw [ih', if_neg (by omega)]
          exact heq.symm
        · exact Function.update_self _ _ _
      · have hsame : (c.heal (n + 1)).disk lba = (c.heal n).disk lba := by
          rw [Store.heal]
          split
          · rfl
          · exact Function.update_of_ne hlba _ _
        rw [hsame, ih']
        exact if_congr (by omega) rfl rfl

/-- Only sectors of the second FAT are written, each with what it lacks of the first. -/
theorem Store.log_heal {n : Nat} (hn : n ≤ c.vol.fatSize) : ∃ l, (c.heal n).log = l ++ c.log ∧
    ∀ p ∈ l, ∃ i < n, p.1 = c.vol.fatLba + c.vol.fatSize + i ∧
      p.2 = c.disk (c.vol.fatLba + i) ∧ c.disk p.1 ≠ p.2 := by
  induction n with
  | zero => exact ⟨[], rfl, by simp⟩
  | succ n ih =>
      obtain ⟨l, hl, hmem⟩ := ih (by omega)
      have hold : ∀ p ∈ l, ∃ i < n + 1, p.1 = c.vol.fatLba + c.vol.fatSize + i ∧
          p.2 = c.disk (c.vol.fatLba + i) ∧ c.disk p.1 ≠ p.2 := by
        intro p hp
        obtain ⟨i, hi, hrest⟩ := hmem p hp
        exact ⟨i, by omega, hrest⟩
      rw [Store.heal]
      split
      · exact ⟨l, hl, hold⟩
      · next hne =>
        refine ⟨(c.vol.fatLba + c.vol.fatSize + n, c.disk (c.vol.fatLba + n)) :: l, ?_, ?_⟩
        · rw [Store.put, hl]
          rfl
        · intro p hp
          rcases List.mem_cons.mp hp with rfl | hp
          · exact ⟨n, by omega, rfl, rfl, Ne.symm hne⟩
          · exact hold p hp

/-- The mirror repair of `fat32_mount`. -/
theorem OnRaw.mountMirror_heals {β : Type} {R : β → Store → Prop} (hs : c.vol.Sound c.sectors)
    (h2 : 2 ≤ c.vol.numFats) {f : Unit → Prog Drv β} (h : OnRaw (f ()) R (c.heal c.vol.fatSize)) :
    OnRaw (Fat32.mountMirror c.vol >>= f) R c := by
  have hcopy := hs.copy_le (f := 1) (by omega)
  have hdata := hs.dataLba_le
  have hlba := hs.lba28
  rw [Nat.one_mul] at hcopy
  rw [Fat32.mountMirror, bind_assoc]
  simp only [pure_bind]
  refine OnRaw.forUntil_steps (C := c.heal) (b := c.vol.fatSize) (fun i hi g hg => ?_) h _ 0
    (by omega)
  have hsec : (c.heal i).sectors = c.sectors := by rw [Store.heal_eq]
  rw [u32_of_lt (n := c.vol.fatLba + i) (by omega),
    u32_of_lt (n := c.vol.fatLba + c.vol.fatSize) (by omega), u32_of_lt (by omega), bind_assoc]
  apply OnRaw.ataRead (by omega)
  simp only [bind_assoc]
  apply OnRaw.ataRead (by omega)
  -- the rounds before have read and written other sectors
  rw [Store.disk_heal (by omega), Store.disk_heal (by omega), if_neg (by omega), if_neg (by omega)]
  rw [Store.heal] at hg
  by_cases heq : c.disk (c.vol.fatLba + i) = c.disk (c.vol.fatLba + c.vol.fatSize + i)
  · rw [if_pos heq] at hg
    simp only [heq, if_true, pure_bind]
    exact hg
  · rw [if_neg heq] at hg
    simp only [heq, if_false, bind_assoc]
    apply OnRaw.ataWrite (by omega)
    rw [pure_bind]
    exact hg

/-- The state after a mount of the volume `u`. -/
def Store.mountedAs (c : Store) (u : Vol) : Store :=
  { c with vol := u, fds := fun _ => Fd.closed, volMounted := true }

/-- `fat32_mount` of a volume that is in order once its FATs are equal. -/
theorem fat32Mount_shallow (hs : s.Works) (hb : s.toStore.Boots v.vol) (h2 : 2 ≤ v.vol.numFats)
    (hc : ((s.toStore.mountedAs v.vol).heal v.vol.fatSize).Shows v) (h : v.Layout ch D [])
    (hv : ∀ d ∈ D, ∀ it ∈ d.listing.items, it.Valid v.vol.totalClusters)
    (hdeep : ((s.toStore.mountedAs v.vol).heal v.vol.fatSize).Shallow ch D 33 v.vol.rootCluster) :
    fat32Mount.wp (fun r t => (∃ bytes, r = .mounted bytes FsckStats.init) ∧ t.Ready ∧
      ∃ p, t.toStore = { (s.toStore.mountedAs v.vol).heal v.vol.fatSize with heapPtr := p }) s := by
  have hvol : ((s.toStore.mountedAs v.vol).heal v.vol.fatSize).vol = v.vol := by
    rw [Store.heal_eq]
    rfl
  have hsec : ((s.toStore.mountedAs v.vol).heal v.vol.fatSize).sectors = s.sectors := by
    rw [Store.heal_eq]
    rfl
  have hsound : v.vol.Sound s.sectors := by
    have := hc.sound
    rwa [hvol, hsec] at this
  rw [fat32Mount, wp_bind]
  refine (OnRaw.mountBoot_signed hb s hs rfl).mono ?_
  rintro o s₁ ⟨hs₁, hc₁, lba, boot, rfl, hbvol⟩
  have hspc : (Block.vol boot lba).secPerClus ≠ 0 := by
    have hpos := hsound.spc_pos
    rw [hbvol]
    omega
  have h13 : ¬ boot.byte 13 = 0 := fun h0 => hspc (by simp [Block.vol, h0])
  simp only [if_neg h13, hbvol, wp_bind, wp_pure]
  rw [mountVol, Fat32.modifyStore, wp_bind, wp_modify]
  simp only [if_pos h2]
  rw [wp_bind]
  obtain ⟨c₀, hc₀⟩ : ∃ c₀ : Store,
      c₀ = { s.toStore with vol := v.vol, fds := fun _ => Fd.closed } := ⟨_, rfl⟩
  have hv₀ : c₀.vol = v.vol := by rw [hc₀]
  have hmounted : { c₀.heal v.vol.fatSize with volMounted := true } =
      (s.toStore.mountedAs v.vol).heal v.vol.fatSize := by
    rw [Store.heal_mounted, hc₀]
    rfl
  have hhealed : OnRaw (mountMirror v.vol) (fun _ c' => c' = c₀.heal v.vol.fatSize) c₀ := by
    have hmirror := OnRaw.mountMirror_heals (c := c₀) (by rw [hv₀, hc₀]; exact hsound)
      (hv₀.symm ▸ h2) (f := fun _ => Pure.pure ()) (OnRaw.pure (Q := fun _ c' =>
        c' = c₀.heal c₀.vol.fatSize) rfl)
    rwa [bind_pure_unit, hv₀] at hmirror
  refine (hhealed { s₁ with toStore := { s₁.toStore with vol := v.vol, fds := fun _ => Fd.closed } }
    ⟨hs₁.present, hs₁.working, hs₁.lba28⟩ (by rw [hc₁, hc₀])).mono ?_
  rintro - s₂ ⟨hs₂, hc₂⟩
  have hend : On (do
      Fat32.modifyStore fun c => { c with volMounted := true }
      let check ← chimerafsFsck
      Fat32.modifyStore fun c => { c with volMounted := true }
      Pure.pure check) (fun st c' => st = FsckStats.init ∧
        ∃ p, c' = { (s.toStore.mountedAs v.vol).heal v.vol.fatSize with heapPtr := p })
      (c₀.heal v.vol.fatSize) := by
    refine On.modifyStore rfl rfl ?_
    rw [hmounted]
    apply On.bind
    refine (On.chimerafsFsck_shallow hc h (by rwa [hvol]) (by rwa [hvol])).mono ?_
    rintro st c' ⟨rfl, p, rfl⟩
    refine On.modifyStore rfl rfl (On.pure ⟨rfl, p, ?_⟩)
    rw [← hmounted]
  refine (On.after_dropCache hend hs₂ hc₂).mono ?_
  rintro st t ⟨ht, rfl, hp⟩
  exact ⟨⟨_, rfl⟩, ht, hp⟩

/-- The boot sectors lie in front of the second FAT. -/
theorem Store.Boots.congr {c' : Store} {u : Vol} (h : c.Boots u) (hs : u.Sound c.sectors)
    (hsec : c'.sectors = c.sectors)
    (hdisk : ∀ lba < u.fatLba + u.fatSize, c'.disk lba = c.disk lba) : c'.Boots u := by
  have hfat := hs.fat
  have hdata := hs.dataLba_le
  have hlba := hs.lba28
  have hlt := h.lt
  have h0 : c'.disk 0 = c.disk 0 := hdisk 0 (by omega)
  have hle : Block.partition (c.disk 0) ≤ u.fatLba := by
    have hword := Block.word_lt (c.disk (Block.partition (c.disk 0))) 14 2
    have hf : u.fatLba = u32 (Block.partition (c.disk 0) +
        (c.disk (Block.partition (c.disk 0))).word 14 2) := by rw [← h.vol, Block.vol]
    rw [u32_of_lt (by omega)] at hf
    omega
  have hpart : c'.disk (Block.partition (c.disk 0)) = c.disk (Block.partition (c.disk 0)) :=
    hdisk _ (by omega)
  obtain ⟨h₁, h₂, h₃, h₄, h₅⟩ := h
  exact ⟨by rwa [h0], by rwa [h0, hsec], by rwa [h0, hpart], by rwa [h0, hpart],
    by rwa [h0, hpart]⟩

/-- The volume as a mount leaves it: the descriptors are closed. -/
def View.remounted (v : View) (mounted readonly : Bool) (heapPtr : Nat) : View :=
  { v with
    fds := fun _ => Fd.closed
    mounted := mounted
    readonly := readonly
    heapPtr := heapPtr }

section Repair

variable {b : Store}

/-- The second FAT repeats the first. -/
theorem Store.Shows.mirror (hc : c.Shows v) (h2 : v.vol.numFats = 2) (hi : i < v.vol.fatSize) :
    c.disk (v.vol.fatLba + v.vol.fatSize + i) = c.disk (v.vol.fatLba + i) := by
  have hvol := hc.vol
  have heq := hc.mirrored 1 i (by rw [hvol, h2]; omega) (hvol.symm ▸ hi)
  rwa [Nat.one_mul, hvol] at heq

/-- The repair brings back what the second FAT was. -/
theorem Store.Shows.disk_heal (hc : c.Shows v) (h2 : v.vol.numFats = 2) (hvol : b.vol = v.vol)
    (hdisk : ∀ lba, lba < v.vol.fatLba + v.vol.fatSize ∨
      v.vol.fatLba + 2 * v.vol.fatSize ≤ lba → b.disk lba = c.disk lba) :
    (b.heal v.vol.fatSize).disk = c.disk := by
  funext lba
  rw [Store.disk_heal (by rw [hvol]), hvol]
  split
  · next hin =>
    obtain ⟨i, rfl⟩ := Nat.exists_eq_add_of_le hin.1
    have hback : v.vol.fatLba + v.vol.fatSize + i - v.vol.fatSize = v.vol.fatLba + i := by omega
    rw [hback, hdisk _ (by omega), hc.mirror h2 (by omega)]
  · exact hdisk lba (by omega)

theorem Store.Shows.heal_eq (hc : c.Shows v) (h2 : v.vol.numFats = 2) (hvol : b.vol = v.vol)
    (hsec : b.sectors = c.sectors)
    (hdisk : ∀ lba, lba < v.vol.fatLba + v.vol.fatSize ∨
      v.vol.fatLba + 2 * v.vol.fatSize ≤ lba → b.disk lba = c.disk lba) :
    b.heal v.vol.fatSize = { c with
      log := (b.heal v.vol.fatSize).log
      fds := b.fds
      volMounted := b.volMounted
      volReadonly := b.volReadonly
      heapPtr := b.heapPtr } := by
  conv_lhs => rw [Store.heal_eq, hc.disk_heal h2 hvol hdisk, hsec, hvol]
  rw [hc.vol]

end Repair

/-- Whatever became of the second FAT, a mount writes the sectors of it that differ from the
first, and no others; the checker counts nothing, the descriptors are closed, and every path
leads to the content that it led to when the FATs were equal. -/
theorem mount_heals {bad : Drv} (hs : s.Ready) (hc : s.toStore.Shows v) (h : v.Layout ch D [])
    (hv : ∀ d ∈ D, ∀ it ∈ d.listing.items, it.Valid v.vol.totalClusters)
    (hdeep : s.toStore.Shallow ch D 33 v.vol.rootCluster) (hb : s.toStore.Boots v.vol)
    (h2 : v.vol.numFats = 2) (hw : bad.Works) (hsec : bad.sectors = s.sectors)
    (hdisk : ∀ lba, lba < v.vol.fatLba + v.vol.fatSize ∨
      v.vol.fatLba + 2 * v.vol.fatSize ≤ lba → bad.disk lba = s.disk lba) :
    fat32Mount.wp (fun r t => (∃ bytes, r = .mounted bytes FsckStats.init) ∧ t.disk = s.disk ∧
      (∃ l, t.log = l ++ bad.log ∧ ∀ p ∈ l, v.vol.fatLba + v.vol.fatSize ≤ p.1 ∧
        p.1 < v.vol.fatLba + 2 * v.vol.fatSize ∧ p.2 = s.disk p.1 ∧ bad.disk p.1 ≠ p.2) ∧
      t.vol = s.vol ∧ (∀ fd, t.fds fd = Fd.closed) ∧ t.Consistent ∧
      ∀ path bs, t.FileIs path bs ↔ s.FileIs path bs) bad := by
  have hsound : v.vol.Sound s.sectors := hc.vol ▸ hc.sound
  obtain ⟨c₀, hc₀⟩ : ∃ c₀, c₀ = bad.toStore.mountedAs v.vol := ⟨_, rfl⟩
  have hv₀ : c₀.vol = v.vol := by rw [hc₀, Store.mountedAs]
  have hd₀ : c₀.disk = bad.disk := by rw [hc₀, Store.mountedAs]
  have hout := hdisk
  rw [← hd₀] at hout
  have hstore := hc.heal_eq h2 hv₀ (by rw [hc₀]; exact hsec) hout
  obtain ⟨c₁, hc₁⟩ : ∃ c₁, c₁ = c₀.heal v.vol.fatSize := ⟨_, rfl⟩
  rw [← hc₁, show c₀.fds = (fun _ => Fd.closed) by rw [hc₀]; rfl] at hstore
  have hview : ∀ p, Store.Shows { c₁ with heapPtr := p }
      (v.remounted c₀.volMounted c₀.volReadonly p) := by
    intro p
    rw [hstore]
    refine ⟨?_, hc.sound, hc.mirrored⟩
    cases hc.view
    rfl
  have hlay : ∀ p, (v.remounted c₀.volMounted c₀.volReadonly p).Layout ch D [] :=
    fun p => h.of_eq rfl rfl rfl
  have hmount : fat32Mount.wp (fun r t => (∃ bytes, r = .mounted bytes FsckStats.init) ∧ t.Ready ∧
      ∃ p, t.toStore = { c₁ with heapPtr := p }) bad := by
    have hdeep' : c₁.Shallow ch D 33 v.vol.rootCluster := by
      rw [hstore]
      exact hdeep.congr rfl rfl rfl
    have hshows := hview c₁.heapPtr
    have hlay' := hlay c₁.heapPtr
    rw [hc₁, hc₀] at hdeep' hshows hlay' ⊢
    exact fat32Mount_shallow (v := v.remounted _ _ _) hw
      (hb.congr hsound hsec fun lba hlt => hdisk lba (Or.inl hlt)) (Nat.le_of_eq h2.symm)
      hshows hlay' hv hdeep'
  refine hmount.mono ?_
  rintro r t ⟨hr, ht, p, hp⟩
  have hct := hview p
  rw [← hp] at hct
  refine ⟨hr, ?_, ?_, ?_, ?_, ⟨_, hct, ch, D, hlay p⟩, fun path bs => ?_⟩
  · rw [hp, hstore]
  · obtain ⟨l, hl, hmem⟩ := Store.log_heal (c := c₀) (n := v.vol.fatSize) (by rw [hv₀])
    refine ⟨l, ?_, fun q hq => ?_⟩
    · rw [hp, hc₁, hl, hc₀, Store.mountedAs]
    · obtain ⟨i, hi, hpos, hnew, hne⟩ := hmem q hq
      rw [hv₀] at hpos
      rw [hv₀, hout _ (by omega)] at hnew
      rw [hd₀] at hne
      exact ⟨by omega, by omega, by rw [hpos, hc.mirror h2 hi, hnew], hne⟩
  · rw [hp, hstore]
  · intro fd
    rw [hp, hstore]
  · rw [(hlay p).fileIs_iff ht hct, h.fileIs_iff hs hc]
    rfl

def formatted : Drv :=
  { unmounted 56 (formatDisk 56 fun _ => Block.zero 512) with
    vol := formatVol 56
    volMounted := true }

theorem formatted_blank : formatted.toStore.Blank := by
  have hdisk : formatted.disk = formatDisk 56 fun _ => Block.zero 512 := rfl
  exact blank_formatDisk (Nat.le_refl 56) (by simp [formatted, unmounted]) rfl hdisk

theorem formatted_boots : formatted.toStore.Boots (formatVol 56) := by
  have hdisk : formatted.disk 0 = formatBoot 0 56 (formatFatSize 56) := rfl
  have hpart : Block.partition (formatted.disk 0) = 0 := hdisk ▸ formatBoot_partition
  constructor
  · rw [hdisk]
    exact formatBoot_signed
  · rw [hpart]
    simp [formatted, unmounted]
  · rw [hpart, hdisk]
    exact formatBoot_signed
  · rw [hpart, hdisk]
    exact formatBoot_isFat32
  · rw [hpart, hdisk]
    exact vol_formatBoot (Nat.le_refl 56) (by decide)

/-- An empty volume of one cluster, whose second FAT has lost its first sector. -/
theorem mount_heals_formatted : fat32Mount.wp
    (fun r t => (∃ bytes, r = .mounted bytes FsckStats.init) ∧ t.disk = formatted.disk ∧
      (∃ l, t.log = l ++ [] ∧ ∀ p ∈ l, 40 ≤ p.1 ∧ p.1 < 48 ∧ p.2 = formatted.disk p.1 ∧
        Function.update formatted.disk 40 (Block.zero 512) p.1 ≠ p.2) ∧
      t.vol = formatted.vol ∧ (∀ fd, t.fds fd = Fd.closed) ∧ t.Consistent ∧
      ∀ path bs, t.FileIs path bs ↔ formatted.FileIs path bs)
    (unmounted 56 (Function.update formatted.disk 40 (Block.zero 512))) := by
  have hblank := formatted_blank
  have hsize : formatFatSize 56 = 8 := by decide
  have hworks : (unmounted 56 (Function.update formatted.disk 40 (Block.zero 512))).Works :=
    ⟨rfl, fun _ => rfl, by simp [unmounted]⟩
  have h := mount_heals ⟨rfl, fun _ => rfl, rfl, Or.inl rfl, by simp [formatted, unmounted]⟩
    hblank.shows hblank.empty.layout ?_ ?_ formatted_boots rfl hworks rfl ?_
  · exact h
  · intro d hd it hit
    rw [List.mem_singleton] at hd
    subst hd
    exact absurd hit (by simp [Listing.blank])
  · intro d hd _
    rw [List.mem_singleton] at hd
    subst hd
    refine ⟨fun hno => absurd hno ?_, fun run e he => absurd he (by simp [Listing.blank])⟩
    simp [Listing.blank, Vol.perCluster, Store.view, formatted, formatVol]
  · intro lba hlba
    refine Function.update_of_ne ?_ _ _
    change lba < 32 + formatFatSize 56 ∨ 32 + 2 * formatFatSize 56 ≤ lba at hlba
    omega

end Chimaera.Fat32
