/-
`fat_alloc` on the disk: the entries it writes in every copy of the FAT, the sectors it zeroes,
and that everything else stays.
-/
import Chimaera.Fat32.Empty

namespace Chimaera.Fat32

open Prog

variable {c : Store} {s : Drv} {prev k n i j f lba : Nat}

/-- Cluster `k` was allocated behind `prev` (0 = start of chain), and nothing else was written. -/
structure Store.Allocated (c : Store) (prev k : Nat) (c' : Store) : Prop where
  first : c.FirstFree k
  eoc : ∀ f, f < c.vol.numFats → c'.entry f k = 0x0FFFFFFF
  next : prev ≠ 0 → ∀ f, f < c.vol.numFats → c'.entry f prev = k
  entries : ∀ f i, f < c.vol.numFats → c.vol.HasEntry i → i ≠ k → (prev = 0 ∨ i ≠ prev) →
    c'.entry f i = c.entry f i
  zero : ∀ j, j < c.vol.secPerClus → c'.sec k j = Block.zero 512
  others : ∀ lba, (∀ f g, f < c.vol.numFats → g < c.vol.fatSize →
      lba ≠ c.vol.fatLba + f * c.vol.fatSize + g) →
    (∀ j, j < c.vol.secPerClus → lba ≠ c.vol.secLba k j) → c'.disk lba = c.disk lba
  vars : SameVars c c'

/-- `fat_alloc` answers 0 on a full volume, which it leaves as it is, and else the smallest free
cluster, which is then allocated. -/
def Drv.Allocates (s : Drv) (prev : Nat) : Prop :=
  ∃ r s', (fatAlloc prev).Runs s r s' ∧
    (r = 0 ↔ ∀ k, s.vol.InRange k → s.fat k ≠ 0) ∧
    (r = 0 → s'.toStore = s.toStore) ∧ (r ≠ 0 → s.Allocated prev r s'.toStore)

namespace Store

theorem disk_zeroFrom : (c.zeroFrom lba n j).disk i =
    if lba + j ≤ i ∧ i < lba + j + n then Block.zero 512 else c.disk i := by
  induction n generalizing c j with
  | zero => rw [zeroFrom, if_neg (by omega)]
  | succ n ih =>
      rw [zeroFrom, ih, disk_put]
      by_cases hi : i = lba + j
      · rw [if_neg (by omega), if_pos hi, if_pos (by omega)]
      · rw [if_neg hi]
        exact if_congr (by omega) rfl rfl

/-- The link into the FAT, entry by entry. -/
theorem entry_hook (hk : c.vol.HasEntry k) (hp : prev = 0 ∨ c.vol.HasEntry prev)
    (hi : c.vol.HasEntry i) (hsmall : k < 4294967296) (hf : f < c.vol.numFats) :
    (c.hook prev k).entry f i = if prev ≠ 0 ∧ i = prev then k
      else if i = k then 0x0FFFFFFF else c.entry f i := by
  unfold hook
  by_cases h0 : prev = 0
  · rw [if_pos h0, entry_setFat hk hi (by omega) hf,
      if_neg (show ¬ (prev ≠ 0 ∧ i = prev) from fun h => h.1 h0)]
  · have hvol : (c.setFat k 0x0FFFFFFF).vol = c.vol := sameVars_setFat.vol
    have hlink : ((c.setFat k 0x0FFFFFFF).setFat prev k).entry f i =
        if i = prev then k else (c.setFat k 0x0FFFFFFF).entry f i :=
      entry_setFat (hvol.symm ▸ hp.resolve_left h0) (hvol.symm ▸ hi) hsmall (hvol.symm ▸ hf)
    rw [if_neg h0, hlink, entry_setFat hk hi (by omega) hf]
    exact if_congr (by simp [h0]) rfl rfl

/-- No sector outside the copies of the FAT is written to. -/
theorem disk_hook_other (hk : c.vol.HasEntry k) (hp : prev = 0 ∨ c.vol.HasEntry prev)
    (h : ∀ f g, f < c.vol.numFats → g < c.vol.fatSize →
      lba ≠ c.vol.fatLba + f * c.vol.fatSize + g) : (c.hook prev k).disk lba = c.disk lba := by
  unfold hook
  by_cases h0 : prev = 0
  · rw [if_pos h0, disk_setFat_other fun f hf => h f _ hf hk.2]
  · have hvol : (c.setFat k 0x0FFFFFFF).vol = c.vol := sameVars_setFat.vol
    rw [if_neg h0, disk_setFat_other, disk_setFat_other fun f hf => h f _ hf hk.2]
    intro f hf
    rw [hvol] at hf ⊢
    exact h f _ hf (hp.resolve_left h0).2

/-- The zeroed sectors hold no entries. -/
theorem entry_alloc (hs : c.vol.Sound c.sectors) (hi : c.vol.HasEntry i)
    (hf : f < c.vol.numFats) : (c.alloc prev k).entry f i = (c.hook prev k).entry f i := by
  have hlt := hs.fatSec_lt hf hi
  rw [alloc, entry, (sameVars_zeroFrom _ _ _).vol, entry, sameVars_hook.vol, disk_zeroFrom,
    if_neg]
  unfold Vol.secLba
  omega

theorem allocated (hs : c.vol.Sound c.sectors) (hp : prev = 0 ∨ c.vol.HasEntry prev)
    (hk : c.FirstFree k) (hne : prev ≠ k) : c.Allocated prev k (c.alloc prev k) := by
  have hent := hs.hasEntry hk.range
  have hsmall : k < 4294967296 := by
    have := hs.total_le
    have := hk.range.2
    omega
  have hvars : SameVars c (c.alloc prev k) := sameVars_hook.trans (sameVars_zeroFrom _ _ _)
  have hsec : ∀ j, c.vol.secLba k j = c.vol.secLba k 0 + j := fun j => rfl
  refine ⟨hk, fun f hf => ?_, fun h0 f hf => ?_, fun f i hf hi hik hip => ?_, fun j hj => ?_,
    fun lba hfat hdata => ?_, hvars⟩
  · rw [entry_alloc hs hent hf, entry_hook hent hp hent hsmall hf,
      if_neg fun h => hne h.2.symm, if_pos rfl]
  · rw [entry_alloc hs (hp.resolve_left h0) hf,
      entry_hook hent hp (hp.resolve_left h0) hsmall hf, if_pos ⟨h0, rfl⟩]
  · rw [entry_alloc hs hi hf, entry_hook hent hp hi hsmall hf, if_neg, if_neg hik]
    rintro ⟨h0, heq⟩
    exact hip.elim h0 fun hn => hn heq
  · rw [sec, hvars.vol, alloc, disk_zeroFrom, if_pos]
    rw [hsec j]
    omega
  · rw [alloc, disk_zeroFrom, if_neg, disk_hook_other hent hp hfat]
    rintro ⟨hge, hlt⟩
    refine hdata (lba - c.vol.secLba k 0) (by omega) ?_
    rw [hsec]
    omega

end Store

/-- `fat_alloc` allocates the smallest free cluster behind any entry of the FAT but its own. -/
theorem fatAlloc_allocates (ht : s.Ready) (hs : s.vol.Sound s.sectors)
    (hp : prev = 0 ∨ s.vol.HasEntry prev) (hne : ¬ s.FirstFree prev) : s.Allocates prev := by
  have hon : On (fatAlloc prev) (fun r d =>
      (r = 0 ∧ d = s.toStore ∧ ∀ k, s.vol.InRange k → s.fat k ≠ 0) ∨
        (s.FirstFree r ∧ d = s.alloc prev r)) s.toStore := by
    have := On.fatAlloc (f := fun r => pure r) (R := fun r d =>
      (r = 0 ∧ d = s.toStore ∧ ∀ k, s.vol.InRange k → s.fat k ≠ 0) ∨
        (s.FirstFree r ∧ d = s.alloc prev r)) hs hp
      (fun hall => On.pure (Or.inl ⟨rfl, rfl, hall⟩))
      fun k hk => On.pure (Or.inr ⟨hk, rfl⟩)
    rwa [bind_pure] at this
  obtain ⟨r, s', hrun, -, ⟨rfl, hd, hall⟩ | ⟨hk, hd⟩⟩ := hon s ht rfl
  · exact ⟨0, s', hrun, by simpa using hall, fun _ => hd, fun h => absurd rfl h⟩
  · have hr : r ≠ 0 := by
      have := hk.range.1
      omega
    refine ⟨r, s', hrun, ?_, fun h => absurd h hr, fun _ => ?_⟩
    · exact ⟨fun h => absurd h hr, fun hall => absurd hk.free (hall r hk.range)⟩
    · rw [hd]
      exact Store.allocated hs hp hk (by rintro rfl; exact hne hk)

/-- Behind the root directory of a fresh volume. -/
theorem fatAlloc_allocates_root : (fresh 4).Ready ∧ (fresh 4).vol.Sound (fresh 4).sectors ∧
    (fresh 4).vol.HasEntry 2 ∧ ¬ (fresh 4).FirstFree 2 ∧ (fresh 4).Allocates 2 := by
  have ht : (fresh 4).Ready := fresh_ready (by omega)
  have hb := fresh_blank (n := 4) (by omega) (by omega)
  have hent : (fresh 4).vol.HasEntry 2 := hb.sound.hasEntry ⟨by decide, by decide⟩
  have hused : ¬ (fresh 4).FirstFree 2 := by
    intro h
    have := h.free
    rw [hb.fat_eq h.range] at this
    simp at this
  exact ⟨ht, hb.sound, hent, hused, fatAlloc_allocates ht hb.sound (Or.inr hent) hused⟩

/-- With the free cluster itself as `prev` the entry is no end mark but a loop, and a number that
the FAT has no entry for makes `fat_alloc` write into the root directory. -/
theorem not_allocates : ((fresh 4).Ready ∧ (fresh 4).vol.Sound (fresh 4).sectors ∧
    (fresh 4).Mirrored) ∧
    (∃ t, (fatAlloc 3).Runs (fresh 4) 3 t ∧ t.entry 0 3 = 3) ∧ ¬ (fresh 4).Allocates 3 ∧
    (∃ t, (fatAlloc 1024).Runs (fresh 4) 3 t ∧ (t.disk 48).word 0 4 = 3) ∧
    ¬ (fresh 4).Allocates 1024 := by
  have ht : (fresh 4).Ready := fresh_ready (by omega)
  have hb := fresh_blank (n := 4) (by omega) (by omega)
  have hself : ((fatAlloc 3).run 0 (fresh 4)).map (fun p => (p.1, p.2.entry 0 3)) =
      some (3, 3) := by decide +kernel
  have hfar : ((fatAlloc 1024).run 0 (fresh 4)).map (fun p => (p.1, (p.2.disk 48).word 0 4)) =
      some (3, 3) := by decide +kernel
  obtain ⟨⟨r, t⟩, hrun, heq⟩ := Option.map_eq_some_iff.mp hself
  obtain ⟨rfl, hloop⟩ := Prod.mk.injEq .. ▸ heq
  obtain ⟨⟨r, u⟩, hrun', heq'⟩ := Option.map_eq_some_iff.mp hfar
  obtain ⟨rfl, hdata⟩ := Prod.mk.injEq .. ▸ heq'
  refine ⟨⟨ht, hb.sound, hb.mirrored⟩, ⟨t, ⟨0, hrun⟩, hloop⟩, ?_, ⟨u, ⟨0, hrun'⟩, hdata⟩, ?_⟩
  · rintro ⟨r, t', hr, -, -, halloc⟩
    obtain ⟨rfl, rfl⟩ := hr.det ⟨0, hrun⟩
    have := (halloc (by decide)).eoc 0 (by decide)
    rw [hloop] at this
    cases this
  · rintro ⟨r, u', hr, -, -, halloc⟩
    obtain ⟨rfl, rfl⟩ := hr.det ⟨0, hrun'⟩
    have hsame : u'.disk 48 = (fresh 4).disk 48 := by
      refine (halloc (by decide)).others 48 (fun f g hf hg => ?_) fun j hj => ?_
      · simp only [fresh, freshVol] at hf hg ⊢
        omega
      · simp only [fresh, freshVol, Vol.secLba] at hj ⊢
        omega
    rw [hsame] at hdata
    revert hdata
    decide +kernel

end Chimaera.Fat32
