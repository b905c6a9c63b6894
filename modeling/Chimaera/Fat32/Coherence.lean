/-
The one-sector cache against a disk without a cache.  Every write is followed in
an image of the disk, whether it goes through the cache or past it, and whether
or not the device carries it out in time; what `sec_read` hands out is compared
with that image.
-/
import Chimaera.Fat32.Empty
import Chimaera.Fat32.Preserve
import Mathlib.Logic.Relation

namespace Chimaera.Fat32

open Prog Logged

/-- `sec_write(lba, data)`, which no operation uses. -/
def secWrite (lba : Nat) (data : Sector) : Prog Drv Bool := do
  let s ← asks id
  if s.secCacheLba = lba then
    modify fun s => { s with secCache := data, secCacheDirty := true }
    pure true
  else if ← secFlush then
    modify fun s => { s with secCache := data, secCacheLba := lba, secCacheDirty := true }
    pure true
  else pure false

namespace Vol

/-- The sector with the slot of cluster `c` in copy `f` of the FAT. -/
def fatSector (v : Vol) (f c : Nat) : Nat :=
  u32 (u32 (v.fatLba + f * v.fatSize) + u32 (c * 4) / 512)

/-- Sector `j` of cluster `k`. -/
def dataSector (v : Vol) (k j : Nat) : Nat := u32 (v.clusterToLba k + j)

/-- The copies of the FAT; `fat_get` reads the first even where there is none. -/
def IsCopy (v : Vol) (f : Nat) : Prop := f = 0 ∨ f < v.numFats

/-- No copy of the slot of `c` lies where the drive keeps data. -/
def SlotApart (v : Vol) (c : Nat) : Prop :=
  ∀ f k j, v.IsCopy f → v.InRange k → j < v.secPerClus →
    v.fatSector f c % 268435456 ≠ v.dataSector k j % 268435456

/-- The slots of the volume's clusters lie apart from their sectors. -/
def Disjoint (v : Vol) : Prop := ∀ c, v.InRange c → v.SlotApart c

theorem fatLbaForCluster_eq (v : Vol) (c : Nat) : v.fatLbaForCluster c = v.fatSector 0 c := by
  unfold fatLbaForCluster fatSector u32
  rw [Nat.zero_mul, Nat.add_zero, Nat.mod_add_mod]

end Vol

/-- The bytes that a disk without a cache would hold in sector `p` of the drive. -/
def Drv.newest (s : Drv) (p : Nat) : Sector :=
  if s.secCacheDirty = true ∧ p = s.secCacheLba % 268435456 then s.secCache else s.disk p

/-- The driver, the bytes most recently written to each sector of the drive, and
whether the cache has been filled since the mount. -/
structure Watched where
  drv : Drv
  image : Nat → Sector
  filled : Bool

namespace Watched

def start (s : Drv) : Watched := ⟨s, s.disk, false⟩

/-- What the operations do to the driver, one access of a sector after the other.
No write past the cache goes to the sector that a filled cache holds. -/
inductive Step : Watched → Watched → Prop
  | tick (w : Watched) : Step w { w with drv := { w.drv with ataOps := w.drv.ataOps + 1 } }
  | load (w : Watched) (lba : Nat) (hclean : w.drv.secCacheDirty = false)
      (hne : w.drv.secCacheLba ≠ lba) :
      Step w { w with
        drv := { w.drv with
          ataOps := w.drv.ataOps + 1
          secCache := w.drv.disk (lba % 268435456)
          secCacheLba := lba }
        filled := true }
  | flush (w : Watched) (hdirty : w.drv.secCacheDirty = true) :
      Step w { w with
        drv := { w.drv with
          toStore := w.drv.toStore.put (w.drv.secCacheLba % 268435456) w.drv.secCache
          ataOps := w.drv.ataOps + 1
          secCacheDirty := false } }
  | patch (w : Watched) (f : Sector → Sector) :
      Step w {
        drv := { w.drv with secCache := f w.drv.secCache, secCacheDirty := true }
        image := Function.update w.image (w.drv.secCacheLba % 268435456) (f w.drv.secCache)
        filled := true }
  | store (w : Watched) (lba : Nat) (data : Sector)
      (hclean : w.drv.secCacheLba = lba ∨ w.drv.secCacheDirty = false) :
      Step w {
        drv := { w.drv with secCache := data, secCacheLba := lba, secCacheDirty := true }
        image := Function.update w.image (lba % 268435456) data
        filled := true }
  | direct (w : Watched) (lba : Nat) (b : Sector)
      (hapart : w.filled = true → ZeroWrite.Apart ⟨w.drv.secCacheLba, lba⟩) :
      Step w { w with
        drv := { w.drv with
          toStore := w.drv.toStore.put (lba % 268435456) b
          ataOps := w.drv.ataOps + 1 }
        image := Function.update w.image (lba % 268435456) b }
  | vars (w : Watched) (fds : Nat → Fd) (heapPtr : Nat) (volReadonly : Bool) :
      Step w { w with drv := { w.drv with fds, heapPtr, volReadonly } }

abbrev Run : Watched → Watched → Prop := Relation.ReflTransGen Step

def held (w : Watched) : Nat := w.drv.secCacheLba % 268435456

/-- The drive holds the image, except where the cache is dirty; and the cache,
once filled, holds the image. -/
structure Coherent (w : Watched) : Prop where
  settled : ∀ p, p ≠ w.held ∨ w.drv.secCacheDirty = false → w.drv.disk p = w.image p
  cache : w.filled = true → w.drv.secCache = w.image w.held
  empty : w.filled = false → w.drv.secCacheLba = 0xFFFFFFFF ∧ w.drv.secCacheDirty = false

variable {w w' : Watched}

theorem Coherent.start {s : Drv} (hempty : s.secCacheLba = 0xFFFFFFFF)
    (hclean : s.secCacheDirty = false) : Coherent (start s) :=
  ⟨fun _ _ => rfl, fun h => (by cases h), fun _ => ⟨hempty, hclean⟩⟩

/-- A dirty cache has been filled. -/
theorem Coherent.dirty (hw : w.Coherent) (hd : w.drv.secCacheDirty = true) :
    w.drv.secCache = w.image w.held := by
  cases hfill : w.filled with
  | true => exact hw.cache hfill
  | false =>
      rw [(hw.empty hfill).2] at hd
      cases hd

theorem Coherent.step (hw : w.Coherent) (h : Step w w') : w'.Coherent := by
  have hdirtyCache := hw.dirty
  obtain ⟨hsettled, hcache, hempty⟩ := hw
  cases h with
  | tick => exact ⟨hsettled, hcache, hempty⟩
  | load lba hclean hne =>
      exact ⟨fun p _ => hsettled p (Or.inr hclean), fun _ => hsettled _ (Or.inr hclean),
        fun hf => by cases hf⟩
  | flush hdirty =>
      refine ⟨fun p _ => ?_, hcache, fun hf => ⟨(hempty hf).1, rfl⟩⟩
      change Function.update w.drv.disk w.held w.drv.secCache p = w.image p
      by_cases hp : p = w.held
      · rw [hp, Function.update_self]
        exact hdirtyCache hdirty
      · rw [Function.update_of_ne hp]
        exact hsettled p (Or.inl hp)
  | patch f =>
      refine ⟨fun p hp => ?_, fun _ => ?_, fun hf => by cases hf⟩
      · have hne : p ≠ w.held := hp.resolve_right (by simp)
        change w.drv.disk p = Function.update w.image w.held _ p
        rw [Function.update_of_ne hne]
        exact hsettled p (Or.inl hne)
      · change _ = Function.update w.image w.held (f w.drv.secCache) w.held
        rw [Function.update_self]
  | store lba data hclean =>
      refine ⟨fun p hp => ?_, fun _ => ?_, fun hf => by cases hf⟩
      · have hne : p ≠ lba % 268435456 := hp.resolve_right (by simp)
        change w.drv.disk p = Function.update w.image (lba % 268435456) _ p
        rw [Function.update_of_ne hne]
        refine hsettled p (hclean.imp (fun hlba => ?_) id)
        rw [held, hlba]
        exact hne
      · change _ = Function.update w.image (lba % 268435456) data (lba % 268435456)
        rw [Function.update_self]
  | direct lba b hapart =>
      refine ⟨fun p hp => ?_, fun hf => ?_, hempty⟩
      · change Function.update w.drv.disk _ _ p = Function.update w.image _ _ p
        by_cases hpz : p = lba % 268435456
        · rw [hpz, Function.update_self, Function.update_self]
        · rw [Function.update_of_ne hpz, Function.update_of_ne hpz]
          exact hsettled p hp
      · change w.drv.secCache = Function.update w.image _ _ w.held
        have hne : w.held ≠ lba % 268435456 := hapart hf
        rw [Function.update_of_ne hne]
        exact hcache hf
  | vars => exact ⟨hsettled, hcache, hempty⟩

theorem Coherent.run (hw : w.Coherent) (h : Run w w') : w'.Coherent := by
  induction h with
  | refl => exact hw
  | tail _ hstep ih => exact ih.step hstep

/-- The image shows in the driver. -/
theorem Coherent.image_eq (hw : w.Coherent) (p : Nat) : w.image p = w.drv.newest p := by
  unfold Drv.newest
  split
  · next h =>
    rw [h.2]
    exact (hw.dirty h.1).symm
  · next h =>
    refine (hw.settled p ?_).symm
    cases hd : w.drv.secCacheDirty with
    | true => exact Or.inl fun hp => h ⟨hd, hp⟩
    | false => exact Or.inr rfl

/-- A read that succeeds leaves the image of the sector in the cache, unless it
asks an empty cache for the address that marks it as empty. -/
theorem Coherent.secRead {lba : Nat} {s' : Drv} (hw : w.Coherent)
    (hfill : lba = 0xFFFFFFFF → w.filled = true) (hr : (secRead lba).Runs w.drv true s') :
    s'.secCache = w.image (lba % 268435456) := by
  rcases runs_secRead hr with ⟨-, rfl, hlba⟩ | ⟨-, o, s₁, hflush, hcase⟩
  · have hf : w.filled = true := by
      cases hf : w.filled with
      | true => rfl
      | false =>
          rw [hfill (hlba ▸ (hw.empty hf).1)] at hf
          cases hf
    rw [hw.cache hf, held, hlba]
  · have hdisk : o = true → ∀ p, s₁.disk p = w.image p := by
      rintro rfl p
      rcases runs_secFlush hflush with ⟨-, rfl, hclean⟩ | ⟨hfalse, -⟩ | ⟨-, hdirty, rfl⟩
      · exact hw.settled p (Or.inr hclean)
      · cases hfalse
      · change Function.update w.drv.disk w.held w.drv.secCache p = w.image p
        by_cases hp : p = w.held
        · rw [hp, Function.update_self]
          exact hw.dirty hdirty
        · rw [Function.update_of_ne hp]
          exact hw.settled p (Or.inl hp)
    rcases hcase with ⟨-, hfalse, -⟩ | ⟨-, hfalse, -⟩ | ⟨ho, -, rfl⟩
    · cases hfalse
    · cases hfalse
    · exact hdisk ho _

end Watched

section Reached

variable {w₀ : Watched} {v : Vol}

/-- Steps lead from `w₀` to the driver state `s`. -/
def Reached (w₀ : Watched) (s : Drv) : Prop := ∃ w, Watched.Run w₀ w ∧ w.drv = s

theorem patches_reached : Patches (Reached w₀) := by
  refine ⟨⟨?_, ?_, ?_⟩, ?_⟩
  · rintro s ⟨w, hrun, rfl⟩
    exact ⟨_, hrun.tail (.tick w), rfl⟩
  · rintro s lba ⟨w, hrun, rfl⟩ hclean hne
    exact ⟨_, hrun.tail (.load w lba hclean hne), rfl⟩
  · rintro s ⟨w, hrun, rfl⟩ hdirty
    exact ⟨_, hrun.tail (.flush w hdirty), rfl⟩
  · rintro s f ⟨w, hrun, rfl⟩
    exact ⟨_, hrun.tail (.patch w f), rfl⟩

theorem Reached.vars {s : Drv} (h : Reached w₀ s) (fds : Nat → Fd) (heapPtr : Nat)
    (volReadonly : Bool) : Reached w₀ { s with fds, heapPtr, volReadonly } := by
  obtain ⟨w, hrun, rfl⟩ := h
  exact ⟨_, hrun.tail (.vars w fds heapPtr volReadonly), rfl⟩

theorem Reached.secWrite {lba : Nat} {data : Sector} :
    Preserves (Reached w₀) (secWrite lba data) := by
  have hstore : ∀ s, Reached w₀ s → s.secCacheLba = lba ∨ s.secCacheDirty = false →
      Reached w₀ { s with secCache := data, secCacheLba := lba, secCacheDirty := true } := by
    rintro s ⟨w, hrun, rfl⟩ hclean
    exact ⟨_, hrun.tail (.store w lba data hclean), rfl⟩
  intro s o s' hs hr
  obtain ⟨d, s₁, h₁, hrun⟩ := runs_bind.mp hr
  obtain ⟨rfl, rfl⟩ := runs_asks.mp h₁
  split at hrun
  · next heq =>
    obtain ⟨u, s₂, h₂, hend⟩ := runs_bind.mp hrun
    obtain rfl := runs_modify.mp h₂
    obtain ⟨-, rfl⟩ := runs_pure.mp hend
    have := hstore _ hs (Or.inl heq)
    rwa [← heq] at this
  · obtain ⟨o', s₂, h₂, hrest⟩ := runs_bind.mp hrun
    have hs₂ := patches_reached.secFlush _ _ _ hs h₂
    cases o' with
    | false =>
        obtain ⟨-, rfl⟩ := runs_pure.mp hrest
        exact hs₂
    | true =>
        have hclean : s₂.secCacheDirty = false := by
          rcases runs_secFlush h₂ with ⟨-, rfl, hd⟩ | ⟨hfalse, -⟩ | ⟨-, -, rfl⟩
          · exact hd
          · cases hfalse
          · rfl
        rw [if_pos rfl] at hrest
        obtain ⟨u, s₃, h₃, hend⟩ := runs_bind.mp hrest
        obtain rfl := runs_modify.mp h₃
        obtain ⟨-, rfl⟩ := runs_pure.mp hend
        exact hstore _ hs₂ (Or.inr hclean)

theorem secFlush_lba {o : Bool} {s s' : Drv} (h : secFlush.Runs s o s') :
    s'.vol = s.vol ∧ s'.secCacheLba = s.secCacheLba := by
  rcases runs_secFlush h with ⟨-, rfl, -⟩ | ⟨-, -, rfl | rfl⟩ | ⟨-, -, rfl⟩
  · exact ⟨rfl, rfl⟩
  · exact ⟨rfl, rfl⟩
  · exact ⟨rfl, rfl⟩
  · exact ⟨rfl, rfl⟩

theorem secRead_lba {lba : Nat} {o : Bool} {s s' : Drv} (h : (secRead lba).Runs s o s') :
    s'.vol = s.vol ∧ (s'.secCacheLba = lba ∨ o = false ∧ s'.secCacheLba = s.secCacheLba) := by
  rcases runs_secRead h with ⟨-, rfl, hlba⟩ | ⟨-, o', s₁, hflush, hcase⟩
  · exact ⟨rfl, Or.inl hlba⟩
  · obtain ⟨hvol, hl⟩ := secFlush_lba hflush
    rcases hcase with ⟨-, rfl, rfl⟩ | ⟨-, rfl, rfl | rfl⟩ | ⟨-, -, rfl⟩
    · exact ⟨hvol, Or.inr ⟨rfl, hl⟩⟩
    · exact ⟨hvol, Or.inr ⟨rfl, hl⟩⟩
    · exact ⟨hvol, Or.inr ⟨rfl, hl⟩⟩
    · exact ⟨hvol, Or.inl rfl⟩

/-- The cache holds a copy of a slot of a cluster in `C`. -/
def AtSlot (v : Vol) (C : Nat → Prop) (s : Drv) : Prop :=
  s.vol = v ∧ ∃ f c, v.IsCopy f ∧ C c ∧ s.secCacheLba = v.fatSector f c

theorem AtSlot.secRead {C : Nat → Prop} {f c : Nat} (hf : v.IsCopy f) (hc : C c) :
    Preserves (AtSlot v C) (secRead (v.fatSector f c)) := by
  rintro s o s' ⟨hvol, hslot⟩ hr
  obtain ⟨hvol', hlba⟩ := secRead_lba hr
  refine ⟨hvol'.trans hvol, ?_⟩
  rcases hlba with hlba | ⟨-, hlba⟩
  · exact ⟨f, c, hf, hc, hlba⟩
  · rw [hlba]
    exact hslot

theorem AtSlot.secFlush {C : Nat → Prop} : Preserves (AtSlot v C) secFlush := by
  rintro s o s' ⟨hvol, hslot⟩ hr
  obtain ⟨hvol', hlba⟩ := secFlush_lba hr
  refine ⟨hvol'.trans hvol, ?_⟩
  rw [hlba]
  exact hslot

/-- `fat_set` leaves the cache on a slot of its cluster, or where it was. -/
theorem AtSlot.fatSet {C : Nat → Prop} {c x : Nat} (hc : C c) :
    Preserves (AtSlot v C) (fatSet c x) := by
  refine Preserves.asks_bind_of fun s hs => ?_
  rw [show s.vol = v from hs.1]
  refine (Preserves.forUntil_of_mem fun f _ hf => ?_).bind fun _ => Preserves.pure
  refine (AtSlot.secRead (Or.inr (by omega)) hc).bind fun b => ?_
  split
  · refine Preserves.bind (Preserves.modify fun _ h => h) fun _ =>
      AtSlot.secFlush.bind fun b' => ?_
    split
    · exact Preserves.pure
    · exact Preserves.pure
  · exact Preserves.pure

/-- A cluster is zeroed apart from the cache while that holds one of the slots. -/
theorem zeroSectors_apart {C : Nat → Prop} (hC : ∀ c, C c → v.SlotApart c) {k : Nat}
    (hk : v.InRange k) {s : Drv} (hs : AtSlot v C s) :
    (zeroSectorsLogged (v.clusterToLba k) v.secPerClus).Logs ZeroWrite.Apart s := by
  refine logs_bind.mpr ⟨logs_forUntil (AtSlot v C) (fun j t _ hj ht => ?_) ?_ hs,
    fun _ _ _ => logs_pure⟩
  · refine logs_bind.mpr ⟨logs_lift, fun held t₁ h₁ => logs_bind.mpr ⟨logs_lift, fun ok t₂ _ => ?_⟩⟩
    obtain ⟨rfl, rfl⟩ := runs_asks.mp h₁
    split
    · refine logs_bind.mpr ⟨logs_tell.mpr fun z hz => ?_, fun _ _ _ => logs_pure⟩
      obtain ⟨-, f, c, hf, hc, hlba⟩ := ht
      rw [List.mem_singleton.mp hz, ZeroWrite.Apart, hlba]
      exact hC c hc f k j hf hk (by omega)
    · exact logs_pure
  · intro j t t' _ _ ht hr
    obtain ⟨held, t₁, h₁, hr⟩ := erase_runs_bind.mp hr
    obtain ⟨rfl, rfl⟩ := runs_asks.mp h₁
    obtain ⟨ok, t₂, h₂, hr⟩ := erase_runs_bind.mp hr
    have hend : t' = t₂ := by
      split at hr
      · exact (runs_pure.mp hr).2
      · exact (runs_pure.mp hr).2
    rw [hend]
    rcases runs_ataWrite h₂ with ⟨-, rfl⟩ | ⟨-, rfl⟩ | ⟨-, rfl⟩
    · exact ht
    · exact ht
    · exact ht

theorem fatGet_lba {k : Nat} {s s' : Drv} (h : (fatGet k).Runs s 0 s') :
    s'.secCacheLba = s.vol.fatLbaForCluster k := by
  obtain ⟨c, s₁, h₁, hrun⟩ := runs_bind.mp h
  obtain ⟨rfl, rfl⟩ := runs_asks.mp h₁
  obtain ⟨o, s₂, h₂, hrest⟩ := runs_bind.mp hrun
  obtain ⟨-, hlba | ⟨rfl, -⟩⟩ := secRead_lba h₂
  · split at hrest
    · obtain ⟨b, s₃, h₃, hend⟩ := runs_bind.mp hrest
      obtain ⟨rfl, rfl⟩ := runs_asks.mp h₃
      obtain ⟨-, rfl⟩ := runs_pure.mp hend
      exact hlba
    · obtain ⟨hbad, -⟩ := runs_pure.mp hrest
      cases hbad
  · obtain ⟨hbad, -⟩ := runs_pure.mp hrest
    cases hbad

/-- An allocation behind no cluster, or behind one whose slots lie apart from the sectors of the
volume, zeroes nothing that the cache holds. -/
theorem fatAlloc_apart {prev : Nat} {s : Drv} (hvol : s.vol.Disjoint)
    (hprev : prev ≠ 0 → s.vol.SlotApart prev) : (fatAllocLogged prev).Logs ZeroWrite.Apart s := by
  refine logs_bind.mpr ⟨logs_lift, fun c s₁ h₁ => ?_⟩
  obtain ⟨rfl, rfl⟩ := runs_asks.mp h₁
  have hpatches : Patches fun t => t.vol = s₁.vol :=
    ⟨⟨fun _ h => h, fun _ _ h _ _ => h, fun _ h _ => h⟩, fun _ _ h => h⟩
  refine logs_bind.mpr ⟨logs_forUntil (fun t => t.vol = s₁.vol) (fun k t hk hlt ht => ?_) ?_ rfl,
    fun _ _ _ => logs_pure⟩
  · have hrange : s₁.vol.InRange k := by
      refine ⟨hk, ?_⟩
      have : u32 (s₁.vol.totalClusters + 2) ≤ s₁.vol.totalClusters + 2 := Nat.mod_le _ _
      omega
    refine logs_bind.mpr ⟨logs_lift, fun x t₁ hget => ?_⟩
    split
    · next hx =>
      have hat : AtSlot s₁.vol (fun c => c = k ∨ c = prev ∧ prev ≠ 0) t₁ := by
        rw [hx] at hget
        refine ⟨hpatches.fatGet _ _ _ ht hget, 0, k, Or.inl rfl, Or.inl rfl, ?_⟩
        rw [fatGet_lba hget, ht, Vol.fatLbaForCluster_eq]
      have hC : ∀ c, c = k ∨ c = prev ∧ prev ≠ 0 → s₁.vol.SlotApart c := by
        rintro c (rfl | ⟨rfl, hne⟩)
        · exact hvol c hrange
        · exact hprev hne
      refine logs_bind.mpr ⟨logs_lift, fun _ t₂ h₂ => ?_⟩
      have hat₂ := AtSlot.fatSet (Or.inl rfl) _ _ _ hat h₂
      dsimp only
      split
      · refine logs_bind.mpr ⟨logs_pure, fun _ t₃ h₃ => logs_bind.mpr
          ⟨zeroSectors_apart hC hrange ?_, fun _ _ _ => logs_pure⟩⟩
        obtain ⟨-, rfl⟩ := runs_pure.mp h₃
        exact hat₂
      · next hne =>
        refine logs_bind.mpr ⟨logs_lift, fun _ t₃ h₃ => logs_bind.mpr
          ⟨zeroSectors_apart hC hrange ?_, fun _ _ _ => logs_pure⟩⟩
        exact AtSlot.fatSet (Or.inr ⟨rfl, hne⟩) _ _ _ hat₂ h₃
    · exact logs_pure
  · intro k t t' _ _ ht hr
    obtain ⟨x, t₁, hget, hr⟩ := erase_runs_bind.mp hr
    have ht₁ := hpatches.fatGet _ _ _ ht hget
    split at hr
    · obtain ⟨_, t₂, -, hr⟩ := erase_runs_bind.mp hr
      dsimp only at hr
      split at hr
      all_goals
        obtain ⟨_, t₃, -, hr⟩ := erase_runs_bind.mp hr
        obtain ⟨_, t₄, -, hr⟩ := erase_runs_bind.mp hr
        cases (runs_pure.mp hr).1
    · obtain ⟨-, rfl⟩ := runs_pure.mp hr
      exact ht₁

theorem drives_reached : Drives ZeroWrite.Apart (Reached w₀) := by
  refine ⟨⟨patches_reached, ?_⟩,
    fun s fd f hs => hs.vars (Function.update s.fds fd f) s.heapPtr s.volReadonly,
    fun s heapPtr hs => hs.vars s.fds heapPtr s.volReadonly⟩
  rintro s lba ⟨w, hrun, rfl⟩ hapart
  exact ⟨_, hrun.tail (.direct w lba _ fun _ => hapart), rfl⟩

/-- A sequence of calls is a run, as long as no sector that they zero past the cache is the one
that the cache holds. -/
theorem Session.reached {s s' : Drv} {calls : List ApiCall}
    (h : Session (fun t call => call.runLogged.Logs ZeroWrite.Apart t) s calls s')
    (hs : Reached w₀ s) : Reached w₀ s' :=
  h.preserves (fun _ call _ hs hlog hcall =>
    drives_reached.call call _ _ _ hs hlog (call.erase_run ▸ hcall)) hs

/-- So is the check at the mount, which finds the cache empty. -/
theorem chimerafsFsck_reached {s s' : Drv} {o : FsckStats}
    (hlog : chimerafsFsckLogged.Logs ZeroWrite.Apart s) (h : chimerafsFsck.Runs s o s') :
    Reached (Watched.start s) s' := by
  have hrepairs : Repairs ZeroWrite.Apart (Reached (Watched.start s)) :=
    ⟨drives_reached, fun t ht => ht.vars t.fds t.heapPtr true⟩
  have htransfers : Transfers fun t => ∃ w, Watched.Run (Watched.start s) w ∧
      w.filled = false ∧ w.drv = t := by
    constructor
    · rintro t ⟨w, hrun, hfill, rfl⟩
      exact ⟨_, hrun.tail (.tick w), hfill, rfl⟩
    · rintro t lba b ⟨w, hrun, hfill, rfl⟩
      refine ⟨_, hrun.tail (.direct w lba b fun hf => ?_), hfill, rfl⟩
      rw [hfill] at hf
      cases hf
  refine hrepairs.chimerafsFsck (J := fun t => ∃ w, Watched.Run (Watched.start s) w ∧
    w.filled = false ∧ w.drv = t) (fun st t o t' ht hr => ?_) ⟨Watched.start s, .refl, rfl, rfl⟩
    hlog h
  obtain ⟨w, hrun, -, hw⟩ := htransfers.checkFatMismatch _ _ _ ht hr
  exact ⟨w, hrun, hw⟩

end Reached

/-- From an empty cache on, whatever transfers fail: as long as no sector is zeroed past the cache
that the cache holds, what was most recently written shows in the driver, and a read that succeeds
leaves it in the cache.  The check at the mount, the public calls and `sec_write` are such runs.
Nothing that `fat_alloc` zeroes behind no cluster, or behind one with its slots apart from the
sectors of the volume, is held by the cache. -/
theorem cache_transparent {s : Drv} (hempty : s.secCacheLba = 0xFFFFFFFF)
    (hclean : s.secCacheDirty = false) :
    (∀ w, Watched.Run (Watched.start s) w → (∀ p, w.image p = w.drv.newest p) ∧
      ∀ lba s', (lba = 0xFFFFFFFF → w.filled = true) → (secRead lba).Runs w.drv true s' →
        s'.secCache = w.image (lba % 268435456)) ∧
    (∀ o s', chimerafsFsckLogged.Logs ZeroWrite.Apart s → chimerafsFsck.Runs s o s' →
      Reached (Watched.start s) s') ∧
    (∀ t calls t', Reached (Watched.start s) t →
      Session (fun u call => call.runLogged.Logs ZeroWrite.Apart u) t calls t' →
      Reached (Watched.start s) t') ∧
    (∀ t lba data o t', Reached (Watched.start s) t → (secWrite lba data).Runs t o t' →
      Reached (Watched.start s) t') ∧
    (∀ t : Drv, ∀ prev, t.vol.Disjoint → (prev ≠ 0 → t.vol.SlotApart prev) →
      (fatAllocLogged prev).Logs ZeroWrite.Apart t) := by
  refine ⟨fun w hrun => ?_, fun o s' hlog hr => chimerafsFsck_reached hlog hr,
    fun t calls t' ht h => h.reached ht, fun t lba data o t' ht hr => Reached.secWrite _ _ _ ht hr,
    fun t prev hvol hprev => fatAlloc_apart hvol hprev⟩
  have hcoherent := (Watched.Coherent.start hempty hclean).run hrun
  exact ⟨hcoherent.image_eq, fun lba s' hfill hr => hcoherent.secRead hfill hr⟩

/-- The slots and the sectors of a volume that fits its device lie apart. -/
theorem Vol.Sound.disjoint {v : Vol} {n : Nat} (h : v.Sound n) : v.Disjoint := by
  intro c hc f k j hf hk hj
  have hcopy : f < v.numFats := hf.elim (fun h0 => h0 ▸ h.fats) id
  have hsec := h.secLba_lt hk hj
  have hfat := h.fatSec_lt_sectors hcopy (h.hasEntry hc)
  have hlba := h.lba28
  have hdata : v.dataSector k j = v.secLba k j := by
    rw [Vol.dataSector, h.clusterToLba_eq hk]
    exact h.u32_secLba hk hj
  rw [hdata, Vol.fatSector, h.fatCopy_eq hcopy (h.hasEntry hc), Nat.mod_eq_of_lt (by omega),
    Nat.mod_eq_of_lt (by omega)]
  exact (h.secLba_ne_fatSec hcopy (h.hasEntry hc)).symm

/-- `/a` is made on a blank volume, which zeroes the eight sectors of its cluster, and the first
sector of the root directory is read. -/
theorem cache_transparent_mkdir : ∃ (w : Watched) (s' : Drv),
    (ApiCall.mkdir [0x2F, 0x61]).run.Runs (fresh 4) () w.drv ∧
      ((ApiCall.mkdir [0x2F, 0x61]).runLogged.run 200 (fresh 4)).1.length = 8 ∧
      Watched.Run (Watched.start (fresh 4)) w ∧ (secRead 48).Runs w.drv true s' ∧
        s'.secCache = w.image 48 ∧ s'.secCache.byte 0 = 0x41 := by
  have hlog : ((ApiCall.mkdir [0x2F, 0x61]).runLogged.run 200 (fresh 4)).2.isSome ∧
      (∀ z ∈ ((ApiCall.mkdir [0x2F, 0x61]).runLogged.run 200 (fresh 4)).1, z.Apart) ∧
      ((ApiCall.mkdir [0x2F, 0x61]).runLogged.run 200 (fresh 4)).1.length = 8 := by decide +kernel
  have hrun : (((ApiCall.mkdir [0x2F, 0x61]).run >>= fun _ => secRead 48).run 200 (fresh 4)).map
      (fun r => (r.1, r.2.secCache.byte 0)) = some (true, 0x41) := by decide +kernel
  obtain ⟨⟨ok, s'⟩, hr, hs'⟩ := Option.map_eq_some_iff.mp hrun
  obtain ⟨rfl, hbyte⟩ := Prod.mk.injEq .. ▸ hs'
  obtain ⟨u, t, hcall, hread⟩ := runs_bind.mp ⟨200, hr⟩
  have htransparent := cache_transparent (s := fresh 4) rfl rfl
  obtain ⟨w, hw, rfl⟩ := htransparent.2.2.1 (fresh 4) [.mkdir [0x2F, 0x61]] t
    ⟨Watched.start (fresh 4), .refl, rfl⟩ (.cons (logs_of_run hlog.1 hlog.2.1) hcall (.nil t))
  exact ⟨w, s', hcall, hlog.2.2, hw, hread,
    (htransparent.1 w hw).2 48 s' (fun h => by cases h) hread, hbyte⟩

/-- Two clusters of one sector behind a FAT so long that it would have a slot
for the cluster `0x0FFFFFF7` in the sector of cluster 3. -/
def tightVol : Vol := ⟨0, 1, 1, 2097150, 2, 1, 2097151, 2⟩

def tightFd : Fd := ⟨true, true, 2, 2, 2097151, 0, 512, 0, 2⟩

/-- A file of one full cluster is open, and the next transfer will fail. -/
def tight : Drv :=
  { fresh 0 with
    disk := Function.update (fun _ => Block.zero 512) 1
      ((Block.zero 512).patch 8 (leBytes 4 0x0FFFFFFF))
    sectors := 2097153
    vol := tightVol
    fds := Function.update (fun _ => Fd.closed) 0 tightFd
    ataOk := fun n => n != 0 }

/-- `fat32_seek` to the end has taken the link that it could not read. -/
def tightSought : Drv :=
  { tight with
    ataOps := 1
    fds := Function.update (Function.update (Function.update tight.fds 0 tightFd) 0
        { tightFd with curCluster := 0x0FFFFFF7 }) 0
      { tightFd with curCluster := 0x0FFFFFF7, pos := 512 } }

theorem tightVol_sound : tightVol.Sound 2097153 :=
  ⟨by decide, by decide, by decide, by decide, by decide, by decide, by decide, by decide⟩

/-- The write behind the seek allocates cluster 3 behind `0x0FFFFFF7`: the link goes into the cached
sector of cluster 3, which is then zeroed on the disk.  A read finds the link. -/
theorem cache_stale : ¬ ∀ (s s₁ s₂ s₃ : Drv) (fd : Int) (pos c lba : Nat), s.vol.Disjoint →
    s.secCacheLba = 0xFFFFFFFF → s.secCacheDirty = false → (fat32Seek fd pos).Runs s 0 s₁ →
    (writeNext (s₁.fds fd.toNat).curCluster).Runs s₁ c s₂ → lba ≠ 0xFFFFFFFF →
    (secRead lba).Runs s₂ true s₃ → s₃.secCache = s₂.newest (lba % 268435456) := by
  intro hclaim
  have hrun : (((writeNext (tightSought.fds 0).curCluster).run 3 tightSought).map fun r =>
      (r.2.secCacheLba, r.2.secCacheDirty, r.2.secCache.byte 476, (r.2.disk 2097152).byte 476)) =
      some (2097152, false, 3, 0) := by decide +kernel
  obtain ⟨⟨c, s₂⟩, hr, hs₂⟩ := Option.map_eq_some_iff.mp hrun
  simp only [Prod.mk.injEq] at hs₂
  obtain ⟨hlba, hclean, hcache, hdisk⟩ := hs₂
  have hread : (secRead 2097152).Runs s₂ true s₂ := by
    refine runs_bind.mpr ⟨s₂, s₂, runs_asks.mpr ⟨rfl, rfl⟩, ?_⟩
    rw [if_pos hlba]
    exact runs_pure.mpr ⟨rfl, rfl⟩
  have hstale := hclaim tight tightSought s₂ s₂ 0 512 c 2097152 tightVol_sound.disjoint rfl rfl
    ⟨3, rfl⟩ ⟨3, hr⟩ (by decide) hread
  rw [Drv.newest, if_neg (by simp [hclean])] at hstale
  rw [hstale, hdisk] at hcache
  cases hcache

end Chimaera.Fat32
