/-
A freshly formatted volume: one cluster holds the empty root directory, all
others are free.
-/
import Chimaera.Fat32.Layout

namespace Chimaera.Fat32

variable {w : View} {c : Store} {k n : Nat}

/-- The root directory is one zeroed cluster and nothing else is allocated. -/
structure View.Empty (w : View) : Prop where
  root : w.vol.InRange w.vol.rootCluster
  eoc : 0x0FFFFFF8 ≤ w.fat w.vol.rootCluster
  free : ∀ k, w.vol.InRange k → k ≠ w.vol.rootCluster → w.fat k = 0
  zero : ∀ j, w.sec w.vol.rootCluster j = Block.zero 512

/-- A directory of `n` unused slots. -/
def Listing.blank (n : Nat) : Listing where
  items := []
  tail := List.replicate n (Block.zero 32)
  ok := by simp
  zero := ZeroTail.zeros n

theorem View.Empty.layout (h : w.Empty) : w.Layout (fun _ => [w.vol.rootCluster])
    [⟨w.vol.rootCluster, Listing.blank w.vol.perCluster⟩] [] := by
  have hchain : w.Chain w.vol.rootCluster [w.vol.rootCluster] :=
    Links.Chain.cons_iff.mpr ⟨rfl, h.root, Links.Chain.nil_iff.mpr h.eoc⟩
  have hstarts : starts w.vol [⟨w.vol.rootCluster, Listing.blank w.vol.perCluster⟩] ++ [] =
      [w.vol.rootCluster] := rfl
  refine ⟨⟨?_, ?_, ?_⟩, ⟨?_, ?_, ?_, ?_, ?_, ?_⟩⟩
  · intro a ha
    rw [hstarts, List.mem_singleton] at ha
    subst ha
    exact ⟨hchain, by simp⟩
  · rw [hstarts]
    simp
  · intro k hk h0 _
    rw [hstarts]
    by_contra hne
    exact h0 (h.free k hk (by simpa using hne))
  · exact ⟨_, List.mem_singleton_self _, rfl⟩
  · simp
  · intro d hd
    rw [List.mem_singleton] at hd
    subst hd
    rw [View.slots_zero h.zero]
    rfl
  · intro d hd run e he
    rw [List.mem_singleton] at hd
    subst hd
    exact absurd he (by simp [Listing.blank])
  · intro d hd
    rw [List.mem_singleton] at hd
    subst hd
    exact Reach.root
  · intro d hd run e he
    rw [List.mem_singleton] at hd
    subst hd
    exact absurd he (by simp [Listing.blank])

theorem fatHead_root : fatHead.word 8 4 = 0x0FFFFFFF := by
  exact Block.word_patch_same _ (by omega)

theorem fatHead_other (h : 12 ≤ k) : fatHead.word k 4 = 0 := by
  unfold fatHead
  rw [Block.word_patch_disjoint _ (by simp; omega), Block.word_patch_disjoint _ (by simp; omega),
    Block.word_patch_disjoint _ (by simp; omega), Block.word_zero]

/-- The disk holds fresh FATs and a zeroed root cluster. -/
structure Store.Blank (c : Store) : Prop where
  sound : c.vol.Sound c.sectors
  root : c.vol.rootCluster = 2
  fat : ∀ f s, f < c.vol.numFats → s < c.vol.fatSize →
    c.disk (c.vol.fatLba + f * c.vol.fatSize + s) = if s = 0 then fatHead else Block.zero 512
  data : ∀ j, j < c.vol.secPerClus → c.sec 2 j = Block.zero 512

theorem Store.Blank.fat_eq (h : c.Blank) (hk : c.vol.InRange k) :
    c.fat k = if k = 2 then 0x0FFFFFFF else 0 := by
  have hlt := h.sound.entry_lt hk
  have hdisk := h.fat 0 (k * 4 / 512) h.sound.fats hlt
  have hk2 := hk.1
  rw [Store.fat, Vol.fatSec, hdisk]
  by_cases hs : k * 4 / 512 = 0
  · rw [if_pos hs]
    have hmod : k * 4 % 512 = k * 4 := Nat.mod_eq_of_lt (by omega)
    rw [hmod]
    by_cases h2 : k = 2
    · subst h2
      rw [fatHead_root]
      rfl
    · rw [fatHead_other (by omega), if_neg h2]
  · rw [if_neg hs, Block.word_zero, if_neg (by omega)]

theorem Store.Blank.mirrored (h : c.Blank) : c.Mirrored := by
  intro f s hf hs
  have h0 := h.fat 0 s h.sound.fats hs
  rw [Nat.zero_mul, Nat.add_zero] at h0
  rw [h.fat f s hf hs, h0]

theorem Store.Blank.shows (h : c.Blank) : c.Shows c.view :=
  ⟨rfl, h.sound, h.mirrored⟩

theorem Store.Blank.empty (h : c.Blank) : c.view.Empty := by
  have hr : c.vol.InRange 2 := h.root ▸ h.sound.root
  refine ⟨?_, ?_, ?_, ?_⟩
  · change c.vol.InRange c.vol.rootCluster
    rw [h.root]
    exact hr
  · change 0x0FFFFFF8 ≤ if c.vol.InRange c.vol.rootCluster then c.fat c.vol.rootCluster else 0
    rw [h.root, if_pos hr, h.fat_eq hr]
    decide
  · intro k hk hne
    change c.vol.InRange k at hk
    change k ≠ c.vol.rootCluster at hne
    change (if c.vol.InRange k then c.fat k else 0) = 0
    rw [if_pos hk, h.fat_eq hk, if_neg (h.root ▸ hne)]
  · intro j
    change (if c.vol.InRange c.vol.rootCluster ∧ j < c.vol.secPerClus then
      c.sec c.vol.rootCluster j else Block.zero 512) = Block.zero 512
    rw [h.root]
    split
    · next hj => exact h.data j hj.2
    · rfl

theorem Store.Blank.consistent {s : Drv} (h : s.toStore.Blank) : s.Consistent :=
  ⟨_, h.shows, _, _, h.empty.layout⟩

/-- The parameters of a formatted disk with `n` clusters. -/
def freshVol (n : Nat) : Vol := ⟨0, 8, 2, 8, 2, 32, 48, n⟩

/-- The mounted driver on a formatted disk with `n` clusters. -/
def fresh (n : Nat) : Drv where
  disk lba := if lba = 32 ∨ lba = 40 then fatHead else Block.zero 512
  sectors := 48 + n * 8
  log := []
  vol := freshVol n
  volMounted := true
  volReadonly := false
  fds _ := Fd.closed
  heapPtr := 0
  present := true
  ataOk _ := true
  ataOps := 0
  secCache := Block.zero 512
  secCacheLba := 0xFFFFFFFF
  secCacheDirty := false

theorem fresh_ready (h : n ≤ 1000) : (fresh n).Ready :=
  ⟨rfl, fun _ => rfl, rfl, Or.inl rfl, by simp [fresh]; omega⟩

theorem fresh_blank (h1 : 1 ≤ n) (h : n ≤ 1000) : (fresh n).toStore.Blank := by
  refine ⟨⟨by simp [fresh, freshVol], by simp [fresh, freshVol], by simp [fresh, freshVol], ?_, ?_,
    ?_, ?_, ?_⟩, rfl, ?_, ?_⟩
  · simp only [fresh, freshVol]
    omega
  · simp only [fresh, freshVol]
    omega
  · simp only [fresh, freshVol]
    omega
  · simp only [fresh]
    omega
  · simp only [fresh, freshVol]
    omega
  · intro f s hf hs
    simp only [fresh, freshVol] at hf hs ⊢
    by_cases h0 : s = 0
    · rw [if_pos (by omega), if_pos h0]
    · rw [if_neg (by omega), if_neg h0]
  · intro j hj
    simp only [fresh, freshVol, Store.sec, Vol.secLba] at hj ⊢
    rw [if_neg (by omega)]

end Chimaera.Fat32
