/-
`fat_free_chain` over a FAT of any content: the walk clears the entries it
follows, in the volume and outside of it.
-/
import Chimaera.Fat32.Endings
import Chimaera.Fat32.Unlink

namespace Chimaera.Fat32

open Prog

variable {c c' : Store} {s s' t : Drv} {a b f k n x lba : Nat} {xs : List Nat} {p : Nat × Nat}

/-- The sector that `fat_set` reads for entry `k` of copy `f`. -/
def Vol.copyLba (v : Vol) (f k : Nat) : Nat :=
  u32 (u32 (v.fatLba + f * v.fatSize) + u32 (k * 4) / 512)

theorem Vol.fatLbaForCluster_eq_copyLba (v : Vol) (k : Nat) :
    v.fatLbaForCluster k = v.copyLba 0 k := by
  unfold fatLbaForCluster copyLba u32
  omega

namespace Store

/-- `fat_set` with 0: the `n` copies from copy `f` on, up to the first that cannot be
read. -/
def clearFrom (k : Nat) : Nat → Nat → Store → Store
  | 0, _, c => c
  | n + 1, f, c => match c.readAt (c.vol.copyLba f k) with
    | some b => clearFrom k n (f + 1) (c.put (c.vol.copyLba f k % 268435456)
        (b.patch (fatOffsetInSector k) (leBytes 4 0)))
    | none => c

def clear (c : Store) (k : Nat) : Store := clearFrom k c.vol.numFats 0 c

/-- The places that clearing entry `k` writes to. -/
def cleared (c : Store) (k : Nat) : Set (Nat × Nat) :=
  {p | ∃ f < c.vol.numFats, (∀ g ≤ f, (c.readAt (c.vol.copyLba g k)).isSome) ∧
    p.1 = c.vol.copyLba f k % 268435456 ∧ fatOffsetInSector k ≤ p.2 ∧
    p.2 < fatOffsetInSector k + 4}

theorem readAt_some (h : lba % 268435456 < c.sectors) :
    c.readAt lba = some (c.disk (lba % 268435456)) := if_pos h

theorem readAt_isSome : (c.readAt lba).isSome ↔ lba % 268435456 < c.sectors := by
  unfold readAt
  split
  · next h => simpa using h
  · next h => simpa using h

theorem sameVars_clearFrom : SameVars c (clearFrom k n f c) := by
  induction n generalizing c f with
  | zero => exact SameVars.refl c
  | succ n ih =>
      rw [clearFrom]
      split
      · exact (sameVars_put _ _).trans ih
      · exact SameVars.refl c

theorem sameVars_clear : SameVars c (c.clear k) := sameVars_clearFrom

theorem fatOffset_le (k : Nat) : fatOffsetInSector k + 4 ≤ 512 := by
  unfold fatOffsetInSector u32
  omega

theorem leBytes_zero : leBytes 4 0 = List.replicate 4 0 := by decide

theorem overwritten_clearFrom : Overwritten 0 {p | ∃ g, f ≤ g ∧ g < f + n ∧
    (∀ i, f ≤ i → i ≤ g → (c.readAt (c.vol.copyLba i k)).isSome) ∧
    p.1 = c.vol.copyLba g k % 268435456 ∧ fatOffsetInSector k ≤ p.2 ∧
    p.2 < fatOffsetInSector k + 4} c.disk (clearFrom k n f c).disk := by
  induction n generalizing c f with
  | zero =>
      refine Overwritten.refl.congr fun p => ⟨fun hp => absurd hp (Set.notMem_empty p), ?_⟩
      rintro ⟨g, hle, hlt, -⟩
      omega
  | succ n ih =>
      rw [clearFrom]
      by_cases hread : c.vol.copyLba f k % 268435456 < c.sectors
      · rw [readAt_some hread, leBytes_zero]
        have hput := overwritten_update (x := 0) (d := c.disk)
          (l := c.vol.copyLba f k % 268435456) (o := fatOffsetInSector k) (k := 4) (fatOffset_le k)
        refine (hput.union (ih (c := c.put _ _) (f := f + 1))).congr fun p => ?_
        simp only [readAt_isSome, vol_put, sectors_put]
        constructor
        · rintro (hp | ⟨g, hle, hlt, hall, hp⟩)
          · refine ⟨f, Nat.le_refl f, by omega, fun i hi hi' => ?_, hp⟩
            obtain rfl : i = f := by omega
            exact hread
          · refine ⟨g, by omega, by omega, fun i hi hi' => ?_, hp⟩
            rcases Nat.eq_or_lt_of_le hi with rfl | hlt'
            · exact hread
            · exact hall i hlt' hi'
        · rintro ⟨g, hle, hlt, hall, hp⟩
          rcases Nat.eq_or_lt_of_le hle with rfl | hlt'
          · exact Or.inl hp
          · exact Or.inr ⟨g, hlt', by omega, fun i hi hi' => hall i (by omega) hi', hp⟩
      · have hnone : c.readAt (c.vol.copyLba f k) = none := if_neg hread
        rw [hnone]
        refine Overwritten.refl.congr fun p => ⟨fun hp => absurd hp (Set.notMem_empty p), ?_⟩
        rintro ⟨g, hle, hlt, hall, -⟩
        have hf := hall f (Nat.le_refl f) hle
        rw [hnone] at hf
        cases hf

theorem overwritten_clear : Overwritten 0 (c.cleared k) c.disk (c.clear k).disk := by
  refine (overwritten_clearFrom (c := c) (k := k) (n := c.vol.numFats) (f := 0)).congr fun p => ?_
  constructor
  · rintro ⟨g, -, hlt, hall, hp⟩
    exact ⟨g, by omega, fun i hi => hall i (Nat.zero_le i) hi, hp⟩
  · rintro ⟨g, hlt, hall, hp⟩
    exact ⟨g, Nat.zero_le g, by omega, fun i _ hi => hall i hi, hp⟩

/-- In a sound volume, the entry of a cluster is cleared in every copy. -/
theorem clear_eq_setFat (hv : c.vol.Sound c.sectors) (hk : c.vol.InRange k) :
    c.clear k = c.setFat k 0 := by
  suffices h : ∀ n f, ∀ c : Store, c.vol.Sound c.sectors → c.vol.InRange k →
      f + n = c.vol.numFats → clearFrom k n f c = c.setCopies k 0 n f from
    h _ 0 c hv hk (Nat.zero_add _)
  intro n
  induction n with
  | zero => exact fun _ _ _ _ _ => rfl
  | succ n ih =>
      intro f c hv hk hn
      have hlt := hv.fatSec_lt_sectors (f := f) (by omega) (hv.hasEntry hk)
      have hmod : c.vol.fatSec f k % 268435456 = c.vol.fatSec f k :=
        Nat.mod_eq_of_lt (hlt.trans_le hv.lba28)
      have hcopy : c.vol.copyLba f k = c.vol.fatSec f k := hv.fatCopy_eq (by omega) (hv.hasEntry hk)
      rw [clearFrom, setCopies, hcopy, readAt_some (hmod.symm ▸ hlt), hmod, (hv.hasEntry hk).fatOffset_eq]
      exact ih (f + 1) (c.put _ _) hv hk (by rw [vol_put]; omega)

/-- The links of a sound volume are its FAT entries. -/
theorem link_eq_fat (hv : c.vol.Sound c.sectors) (hk : c.vol.InRange k) : c.link k = c.fat k := by
  have hlt := hv.fatSec_lt_sectors hv.fats (hv.hasEntry hk)
  have hmod : c.vol.fatSec 0 k % 268435456 = c.vol.fatSec 0 k :=
    Nat.mod_eq_of_lt (hlt.trans_le hv.lba28)
  rw [link, hv.fatLbaForCluster_eq (hv.hasEntry hk), readAt_some (hmod.symm ▸ hlt), hmod,
    (hv.hasEntry hk).fatOffset_eq]
  rfl

/-- The driver's write of one copy. -/
theorem moves_fatSetCopy {d : Sector} (hread : c.readAt lba = some d) {g : Sector → Sector}
    {x y : Option Bool} : Moves c.Behind (c.put (lba % 268435456) (g d)).Behind (do
      if ← secRead lba then
        secUpdate g
        if ← secFlush then pure x else pure y
      else pure y) x := by
  refine Moves.of_wp ?_
  rintro s ⟨hs, rfl⟩
  have hlt : lba % 268435456 < s.sectors := readAt_isSome.mp (hread ▸ rfl)
  obtain rfl : s.disk (lba % 268435456) = d := by
    rw [readAt_some hlt] at hread
    exact Option.some.inj hread
  rw [secRead, wp_bind, wp_bind, wp_asks]
  by_cases hhit : s.secCacheLba = lba
  · subst hhit
    simp only [id_eq, if_true, wp_pure, secUpdate, secFlush, ataWrite, modifyStore, wp_bind,
      wp_modify, wp_asks, hs.present, hs.working, hlt, decide_true, Bool.and_self]
    refine ⟨trivial, ⟨rfl, hs.working, rfl, hlt, ?_⟩, ?_⟩
    · simp [put]
    · rw [← hs.coherent]
  · simp only [id_eq, hhit, if_false, secFlush, ataRead, wp_bind, wp_asks, hs.clean,
      Bool.false_eq_true, wp_pure, if_true, hs.present, wp_modify, hs.working, hlt,
      decide_true, Bool.and_self, secUpdate, ataWrite, modifyStore]
    refine ⟨trivial, ⟨rfl, hs.working, rfl, hlt, ?_⟩, rfl⟩
    simp [put]

theorem stays_fatSetCopy (hread : c.readAt lba = none) {g : Sector → Sector}
    {x y : Option Bool} : Stays c.Behind (do
      if ← secRead lba then
        secUpdate g
        if ← secFlush then pure x else pure y
      else pure y) y := by
  refine Moves.of_wp ?_
  rintro s ⟨hs, rfl⟩
  have hlt : ¬ lba % 268435456 < s.sectors := by
    intro hlt
    rw [readAt_some hlt] at hread
    cases hread
  have hmiss : s.secCacheLba ≠ lba := by
    rintro rfl
    exact hlt hs.held
  rw [secRead, wp_bind, wp_bind, wp_asks]
  simp only [id_eq, hmiss, if_false, secFlush, ataRead, wp_bind, wp_asks, hs.clean,
    Bool.false_eq_true, wp_pure, if_true, hs.present, wp_modify, hs.working, hlt,
    decide_false, Bool.and_false]
  exact ⟨trivial, ⟨rfl, hs.working, rfl, hs.held, hs.coherent⟩, rfl⟩

theorem moves_fatSet (k : Nat) : ∃ ok, Moves c.Behind (c.clear k).Behind (fatSet k 0) ok := by
  suffices h : ∀ n f, ∀ c' : Store, c'.vol = c.vol → ∃ o, Moves c'.Behind (clearFrom k n f c').Behind
      (forUntil (fatSetCopy c.vol k 0) n f) o by
    obtain ⟨o, ho⟩ := h c.vol.numFats 0 c rfl
    exact ⟨o.getD true, Moves.bind stays_store (Moves.bind ho Moves.pure)⟩
  intro n
  induction n with
  | zero => exact fun f c' _ => ⟨none, Moves.pure⟩
  | succ n ih =>
      intro f c' hvol
      rw [clearFrom, hvol]
      cases hread : c'.readAt (c.vol.copyLba f k) with
      | some b =>
          obtain ⟨o, ho⟩ := ih (f + 1) (c'.put (c.vol.copyLba f k % 268435456)
            (b.patch (fatOffsetInSector k) (leBytes 4 0))) hvol
          exact ⟨o, Moves.bind (moves_fatSetCopy hread) ho⟩
      | none => exact ⟨some false, Moves.bind (stays_fatSetCopy hread) Moves.pure⟩

end Store

/-- One round of `fat_free_chain`. -/
def freeRound (c : Nat) : Prog Drv (Nat ⊕ Unit) := do
  if 2 ≤ c ∧ c < 0x0FFFFFF8 then
    let next ← fatGet c
    let _ ← fatSet c 0
    pure (.inl next)
  else pure (.inr ())

theorem fatFreeChain_eq (a : Nat) : fatFreeChain a = loop freeRound a := rfl

theorem moves_freeRound (hx : IsLink x) :
    Moves c.Behind (c.clear x).Behind (freeRound x) (.inl (c.link x)) := by
  obtain ⟨ok, hset⟩ := Store.moves_fatSet (c := c) x
  rw [freeRound, if_pos (show 2 ≤ x ∧ x < 0x0FFFFFF8 from hx)]
  exact Moves.bind (Store.stays_fatGet x) (Moves.bind hset Moves.pure)

theorem runs_freeChain_last (hx : ¬ IsLink x) : (fatFreeChain x).Runs s () t ↔ t = s := by
  have hround : (freeRound x).Runs s (.inr ()) s := by
    rw [freeRound, if_neg (show ¬ (2 ≤ x ∧ x < 0x0FFFFFF8) from hx)]
    exact runs_pure.mpr ⟨rfl, rfl⟩
  rw [fatFreeChain_eq, runs_loop]
  constructor
  · rintro (⟨b', s₁, h, -⟩ | h)
    · cases (hround.det h).1
    · exact (hround.det h).2.symm
  · rintro rfl
    exact Or.inr hround

/-- One step of the walk. -/
theorem exists_freeStep (hx : IsLink x) (hs : c.Behind s) : ∃ s₁, (c.clear x).Behind s₁ ∧
    ∀ t, (fatFreeChain x).Runs s () t ↔ (fatFreeChain (c.link x)).Runs s₁ () t := by
  obtain ⟨s₁, hr, hs₁⟩ := moves_freeRound hx s hs
  exact ⟨s₁, hs₁, fun t => hr.loop_iff⟩

/-- The walk through the clusters of a path clears them. -/
theorem exists_walk (hv : c.vol.Sound c.sectors)
    (hp : Links.Path c.link c.vol.InRange a xs b) (hnd : xs.Nodup) (hs : c.Behind s) :
    ∃ s₁, (c.freeChain xs).Behind s₁ ∧
      ∀ t, (fatFreeChain a).Runs s () t ↔ (fatFreeChain b).Runs s₁ () t := by
  induction xs generalizing c a s with
  | nil =>
      cases hp
      exact ⟨s, hs, fun t => Iff.rfl⟩
  | cons k ks ih =>
      obtain ⟨rfl, hk, hrest⟩ := hp
      obtain ⟨hnot, hnd'⟩ := List.nodup_cons.mp hnd
      have hlink : IsLink a := ⟨hk.1, Nat.not_le.mp (hv.not_eoc hk)⟩
      obtain ⟨s₁, hs₁, hstep⟩ := exists_freeStep hlink hs
      rw [Store.clear_eq_setFat hv hk] at hs₁
      have hv' : (c.setFat a 0).vol.Sound (c.setFat a 0).sectors := by
        rw [Store.sameVars_setFat.vol, Store.sameVars_setFat.sectors]
        exact hv
      have hsame : ∀ y ∈ ks, (c.setFat a 0).link y = c.link y := by
        intro y hy
        have hyr := hrest.mem_ok y hy
        rw [Store.link_eq_fat hv' (by rw [Store.sameVars_setFat.vol]; exact hyr),
          Store.link_eq_fat hv hyr, Store.fat_setFat hv hk hyr (by omega), if_neg]
        rintro rfl
        exact hnot hy
      have hpath := hrest.congr hsame
      rw [← Store.sameVars_setFat.vol] at hpath
      obtain ⟨s₂, hs₂, hwalk⟩ := ih hv' hpath hnd' hs₁
      exact ⟨s₂, hs₂, fun t => (hstep t).trans (hwalk t)⟩

/-- A byte that is zero stays zero. -/
theorem byteAt_freeChain (hr : (fatFreeChain x).Runs s () t) (hs : s.Steady)
    (h0 : byteAt s.disk p = 0) : byteAt t.disk p = 0 := by
  have hround : ∀ {y s s'} {d : Nat ⊕ Unit}, s.Steady ∧ byteAt s.disk p = 0 →
      (freeRound y).Runs s d s' → s'.Steady ∧ byteAt s'.disk p = 0 := by
    rintro y s s' d ⟨hs, h0⟩ hr
    by_cases hy : IsLink y
    · obtain ⟨-, hs', hstore⟩ := (moves_freeRound hy).of_runs ⟨hs, rfl⟩ hr
      exact ⟨hs', by rw [hstore]; exact Store.overwritten_clear.keeps h0⟩
    · rw [freeRound, if_neg (show ¬ (2 ≤ y ∧ y < 0x0FFFFFF8) from hy)] at hr
      obtain ⟨-, rfl⟩ := runs_pure.mp hr
      exact ⟨hs, h0⟩
  exact (Runs.loop_ind (I := fun _ s => s.Steady ∧ byteAt s.disk p = 0)
    (Q := fun _ s => s.Steady ∧ byteAt s.disk p = 0) (fun _ _ _ _ => hround)
    (fun _ _ _ _ => hround) hr ⟨hs, h0⟩).2

namespace Store

/-- The first copy of entry `k` is on the device. -/
def Readable (c : Store) (k : Nat) : Prop := c.vol.copyLba 0 k % 268435456 < c.sectors

/-- Clearing entry `k` behind the clusters `xs` ends the walk and changes nothing: the
entry can be read, and what would be cleared is zero, or was cleared with `xs`. -/
def Idle (c : Store) (xs : List Nat) (k : Nat) : Prop :=
  c.Readable k ∧ ∀ p ∈ c.cleared k, p ∉ c.vol.fatPlaces xs → byteAt c.disk p = 0

theorem cleared_congr (h : SameVars c c') : c'.cleared k = c.cleared k := by
  simp only [cleared, readAt_isSome, h.vol, h.sectors]

theorem mem_cleared_zero (hv : c.vol.Sound c.sectors) (h : c.Readable k) {i : Nat} (hi : i < 4) :
    (c.vol.copyLba 0 k % 268435456, fatOffsetInSector k + i) ∈ c.cleared k := by
  refine ⟨0, hv.fats, fun g hg => ?_, rfl, by omega, by omega⟩
  obtain rfl : g = 0 := by omega
  exact readAt_isSome.mpr h

/-- An entry that cannot be read counts as bad, and is not written. -/
theorem clear_of_not_readable (h : ¬ c.Readable k) : c.clear k = c := by
  unfold clear
  cases c.vol.numFats with
  | zero => rfl
  | succ n =>
      have hnone : c.readAt (c.vol.copyLba 0 k) = none := if_neg h
      rw [clearFrom, hnone]

theorem link_of_not_readable (h : ¬ c.Readable k) : c.link k = 0x0FFFFFF7 := by
  have hnone : c.readAt (c.vol.copyLba 0 k) = none := if_neg h
  rw [link, c.vol.fatLbaForCluster_eq_copyLba, hnone]

theorem link_of_zero (hv : c.vol.Sound c.sectors) (h : c.Readable k)
    (h0 : ∀ p ∈ c.cleared k, byteAt c.disk p = 0) : c.link k = 0 := by
  have hword : (c.disk (c.vol.copyLba 0 k % 268435456)).word (fatOffsetInSector k) 4 =
      (Block.zero 512).word 0 4 := by
    refine Block.word_congr fun i hi => ?_
    rw [Block.byte_zero]
    exact h0 _ (mem_cleared_zero hv h hi)
  rw [link, c.vol.fatLbaForCluster_eq_copyLba, readAt_some h]
  dsimp only
  rw [hword, Block.word_zero]

end Store

/-- The walk ends at an entry of zeros. -/
theorem exists_freeEnd (hv : c.vol.Sound c.sectors) (hs : c.Behind s) (hx : IsLink x)
    (h : c.Readable x) (h0 : ∀ p ∈ c.cleared x, byteAt c.disk p = 0) :
    ∃ t, (fatFreeChain x).Runs s () t ∧ Overwritten 0 (c.cleared x) c.disk t.disk := by
  obtain ⟨s₁, hs₁, hstep⟩ := exists_freeStep hx hs
  refine ⟨s₁, (hstep s₁).mpr ?_, ?_⟩
  · rw [Store.link_of_zero hv h h0]
    exact (runs_freeChain_last (by decide)).mpr rfl
  · rw [hs₁.2]
    exact Store.overwritten_clear

/-- A bad mark whose own entry is beyond the device is its own successor. -/
theorem freeChain_bad_diverges (hs : c.Behind s) (h : ¬ c.Readable 0x0FFFFFF7) :
    (fatFreeChain 0x0FFFFFF7).Diverges s := by
  refine Moves.diverges_loop (P := c.Behind) (fun y => y = 0x0FFFFFF7) ?_ rfl hs
  rintro y rfl
  refine ⟨_, ?_, rfl⟩
  have hround := moves_freeRound (c := c) (x := 0x0FFFFFF7) (by decide)
  rw [Store.clear_of_not_readable h, Store.link_of_not_readable h] at hround
  exact hround

/-- `xs` are the clusters of the volume that the links lead to from `a`, each once, and
`b` is the link that leads on from them: to no cluster of the volume, or back. -/
structure Store.Walk (c : Store) (a : Nat) (xs : List Nat) (b : Nat) : Prop where
  path : Links.Path c.link c.vol.InRange a xs b
  nodup : xs.Nodup
  stop : ¬ c.vol.InRange b ∨ b ∈ xs

theorem Store.walk_exists (c : Store) (a : Nat) : ∃ xs b, c.Walk a xs b := by
  obtain ⟨xs, b, hp, hnd, hstop⟩ := @Links.exists_path _ c.link c.vol.InRange a
    (Finset.range (c.vol.totalClusters + 2)) fun x hx => Finset.mem_range.mpr hx.2
  exact ⟨xs, b, hp, hnd, hstop⟩

/-- `fat_free_chain` returns, and of the whole disk it has changed the entries of the
clusters `xs` only, which are free. -/
def Drv.Frees (s : Drv) (a : Nat) (xs : List Nat) : Prop :=
  ∃ t, (fatFreeChain a).Runs s () t ∧ Overwritten 0 (s.vol.fatPlaces xs) s.disk t.disk

/-- A visited cluster is idle: all of its entry was cleared. -/
theorem Store.idle_of_mem (hv : c.vol.Sound c.sectors) (hb : b ∈ xs) (hr : c.vol.InRange b) :
    c.Idle xs b := by
  have hplace : ∀ f < c.vol.numFats, c.vol.copyLba f b % 268435456 = c.vol.fatSec f b := by
    intro f hf
    have hlt := hv.fatSec_lt_sectors hf (hv.hasEntry hr)
    have hcopy : c.vol.copyLba f b = c.vol.fatSec f b := hv.fatCopy_eq hf (hv.hasEntry hr)
    rw [hcopy, Nat.mod_eq_of_lt (hlt.trans_le hv.lba28)]
  refine ⟨?_, ?_⟩
  · unfold Store.Readable
    rw [hplace 0 hv.fats]
    exact hv.fatSec_lt_sectors hv.fats (hv.hasEntry hr)
  · rintro p ⟨f, hf, -, hlba, hlo, hhi⟩ hn
    rw [(hv.hasEntry hr).fatOffset_eq] at hlo hhi
    exact absurd ⟨b, hb, f, hf, hlba.trans (hplace f hf), hlo, hhi⟩ hn

/-- Behind the walk, the rest of `fat_free_chain` changes nothing exactly where it ends
at once, or clears what is clear. -/
theorem Store.Walk.frees_iff (hw : s.toStore.Walk a xs b) (hs : s.Steady)
    (hv : s.vol.Sound s.sectors) : s.Frees a xs ↔
      ¬ IsLink b ∨ s.Idle xs b ∨ (¬ s.Readable b ∧ s.Idle xs 0x0FFFFFF7) := by
  obtain ⟨s₁, ⟨hs₁, hstore⟩, hwalk⟩ := Fat32.exists_walk hv hw.path hw.nodup ⟨hs, rfl⟩
  have hover : Overwritten 0 (s.vol.fatPlaces xs) s.disk s₁.disk := by
    rw [hstore]
    exact overwritten_freeChain rfl
  have hvars : SameVars s.toStore s₁.toStore := hstore ▸ sameVars_freeChain
  have hread : ∀ x, s₁.Readable x ↔ s.Readable x := by
    intro x
    unfold Store.Readable
    rw [hvars.vol, hvars.sectors]
  have hv₁ : s₁.vol.Sound s₁.sectors := by
    rw [hvars.vol, hvars.sectors]
    exact hv
  have hb₁ : s₁.Behind s₁ := ⟨hs₁, rfl⟩
  unfold Drv.Frees
  simp only [hwalk]
  constructor
  · rintro ⟨t, hr, hfree⟩
    by_cases hl : IsLink b
    swap
    · exact Or.inl hl
    have hzero : ∀ {x s₂}, s₂.Steady → s₂.toStore = s₁.clear x → s.Readable x →
        (fatFreeChain (s₁.link x)).Runs s₂ () t → s.Idle xs x := by
      intro x s₂ hs₂ hstore₂ hx hrun
      refine ⟨hx, fun p hp hn => ?_⟩
      rw [← hfree.outside p hn]
      refine byteAt_freeChain hrun hs₂ ?_
      rw [hstore₂]
      refine Store.overwritten_clear.inside p ?_
      rw [cleared_congr hvars]
      exact hp
    obtain ⟨s₂, ⟨hs₂, hstore₂⟩, hstep⟩ := exists_freeStep hl hb₁
    have hrun := (hstep t).mp hr
    by_cases hb : s.Readable b
    · exact Or.inr (Or.inl (hzero hs₂ hstore₂ hb hrun))
    rw [Store.clear_of_not_readable fun h => hb ((hread b).mp h)] at hstore₂
    rw [Store.link_of_not_readable fun h => hb ((hread b).mp h)] at hrun
    by_cases hbad : s.Readable 0x0FFFFFF7
    · obtain ⟨s₃, ⟨hs₃, hstore₃⟩, hstep₃⟩ :=
        exists_freeStep (x := 0x0FFFFFF7) (by decide) ⟨hs₂, hstore₂⟩
      exact Or.inr (Or.inr ⟨hb, hzero hs₃ hstore₃ hbad ((hstep₃ t).mp hrun)⟩)
    · have hd := freeChain_bad_diverges ⟨hs₂, hstore₂⟩ fun h => hbad ((hread _).mp h)
      obtain ⟨n, hn⟩ := hrun
      rw [hd n] at hn
      cases hn
  · have hidle : ∀ {x s₂}, s₁.Behind s₂ → IsLink x → s.Idle xs x →
        ∃ t, (fatFreeChain x).Runs s₂ () t ∧
          Overwritten 0 (s.vol.fatPlaces xs) s.disk t.disk := by
      intro x s₂ hs₂ hx hidle
      obtain ⟨t, hr, ht⟩ := exists_freeEnd hv₁ hs₂ hx ((hread x).mpr hidle.1) fun p hp => by
        by_cases hn : p ∈ s.vol.fatPlaces xs
        · exact hover.inside p hn
        · rw [hover.outside p hn]
          exact hidle.2 p (cleared_congr hvars ▸ hp) hn
      refine ⟨t, hr, (hover.union ht).iff_lands.mpr ⟨fun p hp hn => ?_, fun p hp hn => ?_⟩⟩
      · exact hidle.2 p (cleared_congr hvars ▸ hp.resolve_left hn) hn
      · exact absurd (Or.inl hp) hn
    intro hcond
    by_cases hl : IsLink b
    swap
    · exact ⟨s₁, (runs_freeChain_last hl).mpr rfl, hover⟩
    rcases hcond with hno | hb | ⟨hb, hbad⟩
    · exact absurd hl hno
    · exact hidle hb₁ hl hb
    · obtain ⟨s₂, hs₂, hstep⟩ := exists_freeStep hl hb₁
      rw [Store.clear_of_not_readable fun h => hb ((hread b).mp h)] at hs₂
      obtain ⟨t, hr, ht⟩ := hidle hs₂ (by decide) hbad
      refine ⟨t, (hstep t).mpr ?_, ht⟩
      rw [Store.link_of_not_readable fun h => hb ((hread b).mp h)]
      exact hr

/-- `fat_free_chain` returns and changes the entries of the clusters it walks through
only, exactly where the walk stops at a link that is no number of a cluster, comes back
to a cluster, or runs on into an entry outside the volume that is clear. -/
theorem fatFreeChain_contained_iff (hs : s.Steady) (hv : s.vol.Sound s.sectors) (a : Nat) :
    ∃ xs b, s.toStore.Walk a xs b ∧ (s.Frees a xs ↔
      ¬ IsLink b ∨ b ∈ xs ∨ s.Idle xs b ∨ (¬ s.Readable b ∧ s.Idle xs 0x0FFFFFF7)) := by
  obtain ⟨xs, b, hw⟩ := s.toStore.walk_exists a
  refine ⟨xs, b, hw, (hw.frees_iff hs hv).trans ⟨?_, ?_⟩⟩
  · rintro (hl | hidle)
    · exact Or.inl hl
    · exact Or.inr (Or.inr hidle)
  · rintro (hl | hb | hidle)
    · exact Or.inl hl
    · exact Or.inr (Or.inl (Store.idle_of_mem hv hb (hw.path.mem_ok b hb)))
    · exact Or.inr hidle

/-- A cluster that is its own successor is freed once. -/
theorem fatFreeChain_ring : ∃ xs b, (one 2 unusedSector).toStore.Walk 2 xs b ∧
    (one 2 unusedSector).Frees 2 xs := by
  obtain ⟨xs, b, hw, hiff⟩ := fatFreeChain_contained_iff (one_steady 2 unusedSector)
    (one_sound 2 unusedSector) 2
  have hlink : (one 2 unusedSector).link 2 = 2 := by decide +kernel
  have hb : b = 2 := by
    rcases List.eq_nil_or_concat xs with rfl | ⟨ys, y, rfl⟩
    · exact hw.path.symm
    · rw [List.concat_eq_append] at hw
      have hy := hw.path.mem_ok y (by simp)
      obtain rfl : y = 2 := Nat.le_antisymm (Nat.lt_succ_iff.mp hy.2) hy.1
      rw [← hw.path.next_last, hlink]
  refine ⟨xs, b, hw, hiff.mpr (Or.inr (Or.inl (hw.stop.resolve_left fun hno => hno ?_)))⟩
  rw [hb]
  exact ⟨by decide, by decide⟩

/-- A chain that ends in the bad mark is followed for ever on a small device. -/
theorem not_fatFreeChain_contained : ¬ ∀ s : Drv, s.Steady → s.vol.Sound s.sectors →
    ∀ a, s.vol.InRange a → ∃ xs b, s.toStore.Walk a xs b ∧ s.Frees a xs := by
  intro hclaim
  obtain ⟨xs, b, -, t, hr, -⟩ := hclaim _ (one_steady 0x0FFFFFF7 unusedSector) (one_sound _ _) 2
    ⟨by decide, by decide⟩
  obtain ⟨s₁, hs₁, hstep⟩ := exists_freeStep (c := (one 0x0FFFFFF7 unusedSector).toStore)
    (x := 2) (by decide) ⟨one_steady _ _, rfl⟩
  have hlink : (one 0x0FFFFFF7 unusedSector).link 2 = 0x0FFFFFF7 := by decide +kernel
  have hrun := (hstep t).mp hr
  rw [hlink] at hrun
  obtain ⟨n, hn⟩ := hrun
  rw [freeChain_bad_diverges hs₁ ?_ n] at hn
  · cases hn
  · unfold Store.Readable
    rw [Store.sameVars_clear.vol, Store.sameVars_clear.sectors]
    decide +kernel

end Chimaera.Fat32
