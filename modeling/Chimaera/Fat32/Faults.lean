/-
The FAT on a device that may fail at any transfer, as the driver itself sees it:
what it has written last, in the cache or on the disk.
-/
import Chimaera.Fat32.Coherence
import Chimaera.Fat32.Readonly
import Chimaera.Fat32.Scans

namespace Chimaera.Fat32

open Prog

variable {α : Type} {s s' s₁ s₂ : Drv} {c c' : Store} {o : Bool} {lba k n f x m j : Nat}

/-- A clean cache that has been filled agrees with the disk. -/
def Drv.Tidy (s : Drv) : Prop := s.secCacheDirty = false →
  s.secCacheLba = 0xFFFFFFFF ∨ s.secCache = s.disk (s.secCacheLba % 268435456)

/-- A sector as the driver has written it last. -/
def Drv.seen (s : Drv) (p : Nat) : Sector :=
  if s.secCacheDirty = true ∧ s.secCacheLba % 268435456 = p then s.secCache else s.disk p

/-- The disk with what the cache holds back. -/
def Drv.shown (s : Drv) : Store := { s.toStore with disk := s.seen }

/-- The FAT entry that `fat_get` answers where it can read it. -/
def Drv.entry (s : Drv) (k : Nat) : Nat := s.shown.fat k

/-- What every access to the disk leaves alone. -/
structure Drv.Leads (s s' : Drv) : Prop where
  tidy : s'.Tidy
  vol : s'.vol = s.vol
  sectors : s'.sectors = s.sectors
  fds : s'.fds = s.fds
  log : s.log <:+ s'.log

theorem Drv.Leads.refl (hs : s.Tidy) : s.Leads s := ⟨hs, rfl, rfl, rfl, List.suffix_rfl⟩

theorem Drv.Leads.trans (h : s.Leads s₁) (h' : s₁.Leads s') : s.Leads s' :=
  ⟨h'.tidy, h'.vol.trans h.vol, h'.sectors.trans h.sectors, h'.fds.trans h.fds, h.log.trans h'.log⟩

theorem Drv.entry_of_seen (h : s'.seen = c.disk) (hv : s'.vol = c.vol) (k : Nat) :
    s'.entry k = c.fat k := by
  change (s'.seen (s'.vol.fatSec 0 k)).word (k * 4 % 512) 4 % 268435456 =
    (c.disk (c.vol.fatSec 0 k)).word (k * 4 % 512) 4 % 268435456
  rw [h, hv]

theorem seen_of_clean (hc : s.secCacheDirty = false) : s.seen = s.disk := by
  funext p
  unfold Drv.seen
  rw [hc, if_neg (fun h => by cases h.1)]

/-- What the cache holds, the driver sees. -/
theorem Drv.Tidy.seen_held (hs : s.Tidy) (hne : s.secCacheLba ≠ 0xFFFFFFFF) :
    s.seen (s.secCacheLba % 268435456) = s.secCache := by
  unfold Drv.seen
  split
  · rfl
  · next h =>
    have hclean : s.secCacheDirty = false := by simpa using h
    exact ((hs hclean).resolve_left hne).symm

theorem secFlush_leads (hs : s.Tidy) (hr : secFlush.Runs s o s') : s.Leads s' ∧
    s'.seen = s.seen ∧ (o = true → s'.secCacheDirty = false ∧ (s.secCacheDirty = true →
      s'.log = (s.secCacheLba % 268435456, s.secCache) :: s.log)) := by
  rcases runs_secFlush hr with ⟨rfl, rfl, hclean⟩ | ⟨rfl, -, rfl | rfl⟩ | ⟨rfl, hdirty, rfl⟩
  · exact ⟨.refl hs, rfl, fun _ => ⟨hclean, fun hd => by rw [hclean] at hd; cases hd⟩⟩
  · exact ⟨.refl hs, rfl, nofun⟩
  · exact ⟨⟨hs, rfl, rfl, rfl, List.suffix_rfl⟩, rfl, nofun⟩
  · refine ⟨⟨fun _ => Or.inr ?_, rfl, rfl, rfl, List.suffix_cons _ _⟩, ?_,
      fun _ => ⟨rfl, fun _ => rfl⟩⟩
    · exact (Function.update_self (s.secCacheLba % 268435456) s.secCache s.disk).symm
    · rw [seen_of_clean rfl]
      funext p
      change Function.update s.disk (s.secCacheLba % 268435456) s.secCache p = s.seen p
      unfold Drv.seen
      by_cases hp : s.secCacheLba % 268435456 = p
      · rw [if_pos ⟨hdirty, hp⟩, ← hp, Function.update_self]
      · rw [if_neg (fun h => hp h.2), Function.update_of_ne (Ne.symm hp)]

theorem secRead_leads (hs : s.Tidy) (hne : lba ≠ 0xFFFFFFFF) (hr : (secRead lba).Runs s o s') :
    s.Leads s' ∧ s'.seen = s.seen ∧
      (o = true → s'.secCacheLba = lba ∧ s'.secCache = s.seen (lba % 268435456)) := by
  rcases runs_secRead hr with ⟨rfl, rfl, rfl⟩ | ⟨-, o', s₁, hflush, hcase⟩
  · exact ⟨.refl hs, rfl, fun _ => ⟨rfl, (hs.seen_held hne).symm⟩⟩
  · obtain ⟨hl, hseen, hclean⟩ := secFlush_leads hs hflush
    rcases hcase with ⟨-, rfl, rfl⟩ | ⟨-, rfl, rfl | rfl⟩ | ⟨ho, rfl, rfl⟩
    · exact ⟨hl, hseen, nofun⟩
    · exact ⟨hl, hseen, nofun⟩
    · exact ⟨⟨hl.tidy, hl.vol, hl.sectors, hl.fds, hl.log⟩, hseen, nofun⟩
    · obtain ⟨hd, -⟩ := hclean ho
      rw [seen_of_clean hd] at hseen
      refine ⟨⟨fun _ => Or.inr rfl, hl.vol, hl.sectors, hl.fds, hl.log⟩, ?_,
        fun _ => ⟨rfl, congrFun hseen _⟩⟩
      rw [seen_of_clean (by exact hd)]
      exact hseen

/-- Patching the cache changes the sector that it holds. -/
theorem secUpdate_leads {g : Sector → Sector} {u : Unit} (hr : (secUpdate g).Runs s u s') :
    s.Leads s' ∧ s'.secCacheDirty = true ∧ s'.secCacheLba = s.secCacheLba ∧
      s'.secCache = g s.secCache ∧
      s'.seen = Function.update s.seen (s.secCacheLba % 268435456) (g s.secCache) := by
  obtain rfl := runs_modify.mp hr
  refine ⟨⟨nofun, rfl, rfl, rfl, List.suffix_rfl⟩, rfl, rfl, rfl, ?_⟩
  funext p
  unfold Drv.seen
  by_cases hp : s.secCacheLba % 268435456 = p
  · rw [if_pos ⟨rfl, hp⟩, ← hp, Function.update_self]
  · rw [if_neg (fun h => hp h.2), Function.update_of_ne (Ne.symm hp), if_neg (fun h => hp h.2)]

def Drv.Fetches (s : Drv) (lba : Nat) : Prop := ∃ t, (secRead lba).Runs s true t

theorem fetches_held (s : Drv) : s.Fetches s.secCacheLba := by
  refine ⟨s, runs_bind.mpr ⟨s, s, runs_asks.mpr ⟨rfl, rfl⟩, ?_⟩⟩
  rw [if_pos rfl]
  exact runs_pure.mpr ⟨rfl, rfl⟩

/-- A sector that is read, patched and flushed: what the driver sees changes where the read
succeeds, whatever becomes of the flush. -/
theorem runs_patch {g : Sector → Sector} {a b z r : α} (hs : s.Tidy) (hne : lba ≠ 0xFFFFFFFF)
    (hr : (do
      if ← secRead lba then
        secUpdate g
        if ← secFlush then pure a else pure b
      else pure z : Prog Drv α).Runs s r s') : s.Leads s' ∧
    ((r = z ∧ ¬ s.Fetches lba ∧ s'.seen = s.seen) ∨ ((r = a ∨ r = b) ∧ s.Fetches lba ∧
      s'.seen = Function.update s.seen (lba % 268435456) (g (s.seen (lba % 268435456))))) := by
  obtain ⟨o, s₁, hread, hr₁⟩ := runs_bind.mp hr
  obtain ⟨hl, hseen, hcache⟩ := secRead_leads hs hne hread
  cases o with
  | false =>
      obtain ⟨rfl, rfl⟩ := runs_pure.mp hr₁
      refine ⟨hl, Or.inl ⟨rfl, ?_, hseen⟩⟩
      rintro ⟨t, ht⟩
      cases (hread.det ht).1
  | true =>
      obtain ⟨hlba, hheld⟩ := hcache rfl
      rw [if_pos rfl] at hr₁
      obtain ⟨u, s₂, hup, hr₂⟩ := runs_bind.mp hr₁
      obtain ⟨hl₂, -, -, -, hseen₂⟩ := secUpdate_leads hup
      rw [hseen, hlba, hheld] at hseen₂
      obtain ⟨o', s₃, hflush, hr₃⟩ := runs_bind.mp hr₂
      obtain ⟨hl₃, hseen₃, -⟩ := secFlush_leads hl₂.tidy hflush
      have hall := (hl.trans hl₂).trans hl₃
      have hseen' := hseen₃.trans hseen₂
      cases o' with
      | true =>
          obtain ⟨rfl, rfl⟩ := runs_pure.mp hr₃
          exact ⟨hall, Or.inr ⟨Or.inl rfl, ⟨s₁, hread⟩, hseen'⟩⟩
      | false =>
          obtain ⟨rfl, rfl⟩ := runs_pure.mp hr₃
          exact ⟨hall, Or.inr ⟨Or.inr rfl, ⟨s₁, hread⟩, hseen'⟩⟩

theorem disk_setCopies_congr (hv : c'.vol = c.vol) (hd : c'.disk = c.disk) (n f : Nat) :
    (c'.setCopies k x n f).disk = (c.setCopies k x n f).disk := by
  induction n generalizing c c' f with
  | zero => exact hd
  | succ n ih =>
      refine ih ?_ ?_ (f + 1)
      · exact hv
      · unfold Store.put
        rw [hv, hd]

/-- `fat_set` patches the copies up to the first that cannot be read or flushed. -/
theorem fatSetCopies_leads {r : Option Bool} (hv : s.vol.Sound s.sectors) (hk : s.vol.InRange k)
    (hf : f + n ≤ s.vol.numFats) (hs : s.Tidy)
    (hr : (forUntil (fatSetCopy s.vol k x) n f).Runs s r s') : s.Leads s' ∧
    ∃ m ≤ n, s'.seen = (s.shown.setCopies k (x % 268435456) m f).disk ∧
      (0 < m ↔ 0 < n ∧ s.Fetches (s.vol.fatSec f k)) := by
  induction n generalizing s f with
  | zero =>
      obtain ⟨-, rfl⟩ := runs_pure.mp hr
      exact ⟨.refl hs, 0, Nat.le_refl 0, rfl, by omega⟩
  | succ n ih =>
      obtain ⟨o, s₁, h₁, hrest⟩ := runs_bind.mp hr
      have hlt := hv.fatSec_lt_sectors (f := f) (by omega) (hv.hasEntry hk)
      have h28 := hv.lba28
      rw [fatSetCopy, hv.fatCopy_eq (by omega) (hv.hasEntry hk)] at h₁
      obtain ⟨hl, hcase⟩ := runs_patch hs (by omega) h₁
      rw [Nat.mod_eq_of_lt (hlt.trans_le h28)] at hcase
      rcases hcase with ⟨rfl, hno, hseen⟩ | ⟨ho, hyes, hseen⟩
      · obtain ⟨-, rfl⟩ := runs_pure.mp hrest
        exact ⟨hl, 0, Nat.zero_le _, hseen, by simp [hno]⟩
      rw [(hv.hasEntry hk).fatOffset_eq] at hseen
      rcases ho with rfl | rfl
      · rw [← hl.vol] at hrest
        obtain ⟨hl', m, hm, hseen', -⟩ := ih (by rw [hl.vol, hl.sectors]; exact hv)
          (by rw [hl.vol]; exact hk) (by rw [hl.vol]; omega) hl.tidy hrest
        refine ⟨hl.trans hl', m + 1, by omega, ?_, by simp [hyes]⟩
        rw [hseen']
        exact @disk_setCopies_congr (s.shown.put (s.vol.fatSec f k)
          ((s.seen (s.vol.fatSec f k)).patch (k * 4 % 512) (leBytes 4 (x % 268435456)))) s₁.shown
          k _ hl.vol hseen m (f + 1)
      · obtain ⟨-, rfl⟩ := runs_pure.mp hrest
        exact ⟨hl, 1, by omega, hseen, by simp [hyes]⟩

/-- The entry is written where the first copy can be read, and no other changes. -/
theorem fatSet_leads {ok : Bool} (hv : s.vol.Sound s.sectors) (hk : s.vol.InRange k)
    (hx : x < 268435456) (hs : s.Tidy) (hr : (fatSet k x).Runs s ok s') : s.Leads s' ∧
    ∀ j, s.vol.InRange j → ((j ≠ k ∨ ¬ s.Fetches (s.vol.fatSec 0 k)) → s'.entry j = s.entry j) ∧
      (j = k ∧ s.Fetches (s.vol.fatSec 0 k) → s'.entry j = x) := by
  obtain ⟨c, s₁, h₁, hr₁⟩ := runs_bind.mp hr
  obtain ⟨rfl, rfl⟩ := runs_asks.mp h₁
  obtain ⟨early, s₂, h₂, hr₂⟩ := runs_bind.mp hr₁
  obtain ⟨-, rfl⟩ := runs_pure.mp hr₂
  obtain ⟨hl, m, -, hseen, hm⟩ := fatSetCopies_leads hv hk (by omega) hs h₂
  have hentry : ∀ j, s₁.vol.InRange j →
      s'.entry j = if j = k ∧ 0 < m then x else s₁.entry j := by
    intro j hj
    rw [Drv.entry_of_seen hseen (by rw [Store.sameVars_setCopies .. |>.vol]; exact hl.vol),
      Nat.mod_eq_of_lt hx]
    exact Store.fat_setCopies (c := s₁.shown) hv hk hj hx
  have hfats := hv.fats
  refine ⟨hl, fun j hj => ⟨fun hno => ?_, fun hyes => ?_⟩⟩
  · rw [hentry j hj, if_neg]
    rintro ⟨rfl, hpos⟩
    exact hno.elim (fun h => h rfl) fun h => h (hm.mp hpos).2
  · rw [hentry j hj, if_pos ⟨hyes.1, hm.mpr ⟨hfats, hyes.2⟩⟩]

theorem fatGet_leads (hv : s.vol.Sound s.sectors) (hk : s.vol.InRange k) (hs : s.Tidy)
    (hr : (fatGet k).Runs s x s') : s.Leads s' ∧ s'.seen = s.seen ∧
    (s.Fetches (s.vol.fatSec 0 k) → x = s.entry k ∧ s'.secCacheLba = s.vol.fatSec 0 k) ∧
      (¬ s.Fetches (s.vol.fatSec 0 k) → x = 0x0FFFFFF7) := by
  have hlt := hv.fatSec_lt_sectors hv.fats (hv.hasEntry hk)
  have h28 := hv.lba28
  obtain ⟨c, s₁, h₁, hr₁⟩ := runs_bind.mp hr
  obtain ⟨rfl, rfl⟩ := runs_asks.mp h₁
  obtain ⟨o, s₂, h₂, hr₂⟩ := runs_bind.mp hr₁
  rw [hv.fatLbaForCluster_eq (hv.hasEntry hk)] at h₂
  obtain ⟨hl, hseen, hcache⟩ := secRead_leads hs (by omega) h₂
  cases o with
  | false =>
      obtain ⟨rfl, rfl⟩ := runs_pure.mp hr₂
      refine ⟨hl, hseen, ?_, fun _ => rfl⟩
      rintro ⟨t, ht⟩
      cases (h₂.det ht).1
  | true =>
      obtain ⟨hlba, hheld⟩ := hcache rfl
      obtain ⟨b, s₃, h₃, hr₃⟩ := runs_bind.mp hr₂
      obtain ⟨rfl, rfl⟩ := runs_asks.mp h₃
      obtain ⟨rfl, rfl⟩ := runs_pure.mp hr₃
      refine ⟨hl, hseen, fun _ => ⟨?_, hlba⟩, fun hno => absurd ⟨_, h₂⟩ hno⟩
      rw [hheld, (hv.hasEntry hk).fatOffset_eq, Nat.mod_eq_of_lt (hlt.trans_le h28)]
      rfl

/-- Entries are the same where the FAT is. -/
theorem Drv.Leads.entry_eq (h : s.Leads s') (hv : s.vol.Sound s.sectors)
    (hseen : ∀ p < s.vol.dataLba, s'.seen p = s.seen p) (hk : s.vol.InRange k) :
    s'.entry k = s.entry k := by
  change (s'.seen (s'.vol.fatSec 0 k)).word (k * 4 % 512) 4 % 268435456 =
    (s.seen (s.vol.fatSec 0 k)).word (k * 4 % 512) 4 % 268435456
  rw [h.vol, hseen _ (hv.fatSec_lt hv.fats (hv.hasEntry hk))]

/-- Zeroing a cluster past the cache does not touch the FAT. -/
theorem zeroSectors_leads {u : Unit} (hv : s.vol.Sound s.sectors) (hk : s.vol.InRange k)
    (hs : s.Tidy) (hat : AtSlot s.vol s.vol.InRange s)
    (hr : (zeroSectors (s.vol.clusterToLba k) s.vol.secPerClus).Runs s u s') :
    s.Leads s' ∧ ∀ p < s.vol.dataLba, s'.seen p = s.seen p := by
  have hpres : Preserves (fun t => (s.Leads t ∧ ∀ p < s.vol.dataLba, t.seen p = s.seen p) ∧
      AtSlot s.vol s.vol.InRange t) (zeroSectors (s.vol.clusterToLba k) s.vol.secPerClus) := by
    refine (Preserves.forUntil_of_mem fun i _ hi => ?_).bind fun _ => Preserves.pure
    refine Preserves.bind ?_ fun _ => Preserves.pure
    rintro t o t' ⟨⟨hl, hseen⟩, hslot⟩ hw
    have hi' : i < s.vol.secPerClus := by omega
    have hlba : u32 (s.vol.clusterToLba k + i) % 268435456 = s.vol.secLba k i := by
      have hsec : s.vol.clusterToLba k + i = s.vol.secLba k i := by
        rw [hv.clusterToLba_eq hk]
        rfl
      have h28 := hv.lba28
      rw [hsec, hv.u32_secLba hk hi', Nat.mod_eq_of_lt ((hv.secLba_lt hk hi').trans_le h28)]
    rcases runs_ataWrite hw with ⟨-, rfl⟩ | ⟨-, rfl⟩ | ⟨-, rfl⟩
    · exact ⟨⟨hl, hseen⟩, hslot⟩
    · exact ⟨⟨⟨hl.tidy, hl.vol, hl.sectors, hl.fds, hl.log⟩, hseen⟩, hslot⟩
    obtain ⟨hvol, f, y, hf, hy, hkey⟩ := id hslot
    have hcopy : f < s.vol.numFats := hf.elim (fun h0 => h0 ▸ hv.fats) id
    have hfat : s.vol.fatSector f y = s.vol.fatSec f y := hv.fatCopy_eq hcopy (hv.hasEntry hy)
    have hlow := hv.fatSec_lt hcopy (hv.hasEntry hy)
    have hhigh : s.vol.dataLba ≤ s.vol.secLba k i := by
      unfold Vol.secLba
      omega
    rw [hlba]
    refine ⟨⟨⟨fun hclean => ?_, hl.vol, hl.sectors, hl.fds, hl.log.trans (List.suffix_cons _ _)⟩,
      fun p hp => ?_⟩, hslot⟩
    · refine (hl.tidy hclean).imp_right fun hheld => ?_
      change _ = Function.update t.disk (s.vol.secLba k i) _ (t.secCacheLba % 268435456)
      rw [Function.update_of_ne]
      · exact hheld
      · have := Nat.mod_le t.secCacheLba 268435456
        omega
    · rw [← hseen p hp]
      unfold Drv.seen
      change (if _ then _ else Function.update t.disk (s.vol.secLba k i) _ p) = _
      rw [Function.update_of_ne (by omega)]
  exact (hpres _ _ _ ⟨⟨.refl hs, fun _ _ => rfl⟩, hat⟩ hr).1

/-- The FAT is scanned as far as the free cluster `k`. -/
def Drv.Scans (s : Drv) (k : Nat) (s' : Drv) : Prop :=
  (firstFree (u32 (s.vol.totalClusters + 2) - 2) 2).Runs s (some k) s'

/-- Once the entry of the free cluster is written, the one of `prev` can be read, to be
patched. -/
def Drv.Linked (s : Drv) (prev k : Nat) : Prop :=
  ∃ s₁ ok s₂, s.Scans k s₁ ∧ (fatSet k 0x0FFFFFFF).Runs s₁ ok s₂ ∧
    s₂.Fetches (s.vol.fatSec 0 prev)

/-- The scan for a free cluster only reads. -/
theorem firstFree_leads (hv : s.vol.Sound s.sectors) (hs : s.Tidy) {i : Nat} (hi : 2 ≤ i)
    (hn : i + n ≤ s.vol.totalClusters + 2) {r : Option Nat} (hr : (firstFree n i).Runs s r s') :
    s.Leads s' ∧ s'.seen = s.seen := by
  refine Preserves.forUntil_of_mem (I := fun t => s.Leads t ∧ t.seen = s.seen)
    (fun j hij hj => ?_) s r s' ⟨.refl hs, rfl⟩ hr
  rintro t o t' ⟨hl, hseen⟩ hround
  obtain ⟨x, t₁, hget, hrest⟩ := runs_bind.mp hround
  obtain ⟨hl₁, hseen₁, -⟩ := fatGet_leads (by rw [hl.vol, hl.sectors]; exact hv)
    (by rw [hl.vol]; exact ⟨by omega, by omega⟩) hl.tidy hget
  have hgoal := And.intro (hl.trans hl₁) (hseen₁.trans hseen)
  split at hrest
  · obtain ⟨-, rfl⟩ := runs_pure.mp hrest
    exact hgoal
  · obtain ⟨-, rfl⟩ := runs_pure.mp hrest
    exact hgoal

/-- One round of `fat_alloc`. -/
def allocRound (v : Vol) (prev k : Nat) : Prog Drv (Option Nat) := do
  if (← fatGet k) = 0 then
    let _ ← fatSet k 0x0FFFFFFF
    let _ ← if prev = 0 then pure true else fatSet prev k
    zeroSectors (v.clusterToLba k) v.secPerClus
    pure (some k)
  else pure none

theorem fatAlloc_eq (prev : Nat) : fatAlloc prev = (do
    let c ← getStore
    let found ← forUntil (allocRound c.vol prev) (u32 (c.vol.totalClusters + 2) - 2) 2
    pure (found.getD 0)) := rfl

theorem runs_allocRound {v : Vol} {prev : Nat} {r : Option Nat}
    (hr : (allocRound v prev k).Runs s r s') : ∃ x s₁, (fatGet k).Runs s x s₁ ∧
      ((x ≠ 0 ∧ r = none ∧ s' = s₁) ∨ (x = 0 ∧ r = some k ∧ ∃ ok s₂ ok' s₃ u,
        (fatSet k 0x0FFFFFFF).Runs s₁ ok s₂ ∧
        (if prev = 0 then pure true else fatSet prev k).Runs s₂ ok' s₃ ∧
        (zeroSectors (v.clusterToLba k) v.secPerClus).Runs s₃ u s')) := by
  obtain ⟨x, s₁, hget, hrest⟩ := runs_bind.mp hr
  refine ⟨x, s₁, hget, ?_⟩
  split at hrest
  · next hx =>
    obtain ⟨ok, s₂, h₂, hprev⟩ := runs_bind.mp hrest
    have hlast : ∃ ok' s₃ u, (if prev = 0 then pure true else fatSet prev k).Runs s₂ ok' s₃ ∧
        (zeroSectors (v.clusterToLba k) v.secPerClus).Runs s₃ u s' ∧ r = some k := by
      split at hprev
      · next h0 =>
        obtain ⟨ok', s₃, h₃, hzero⟩ := runs_bind.mp hprev
        obtain ⟨u, s₄, h₄, hend⟩ := runs_bind.mp hzero
        obtain ⟨rfl, rfl⟩ := runs_pure.mp hend
        exact ⟨ok', s₃, u, by rw [if_pos h0]; exact h₃, h₄, rfl⟩
      · next h0 =>
        obtain ⟨ok', s₃, h₃, hzero⟩ := runs_bind.mp hprev
        obtain ⟨u, s₄, h₄, hend⟩ := runs_bind.mp hzero
        obtain ⟨rfl, rfl⟩ := runs_pure.mp hend
        exact ⟨ok', s₃, u, by rw [if_neg h0]; exact h₃, h₄, rfl⟩
    obtain ⟨ok', s₃, u, h₃, h₄, rfl⟩ := hlast
    exact Or.inr ⟨hx, rfl, ok, s₂, ok', s₃, u, h₂, h₃, h₄⟩
  · next hx =>
    obtain ⟨rfl, rfl⟩ := runs_pure.mp hrest
    exact Or.inl ⟨hx, rfl, rfl⟩

/-- A round that goes on is one of the scan. -/
theorem runs_allocRound_none {v : Vol} {prev : Nat} (hr : (allocRound v prev k).Runs s none s') :
    (do if (← fatGet k) = 0 then pure (some k) else pure none : Prog Drv (Option Nat)).Runs
      s none s' := by
  obtain ⟨x, s₁, hget, ⟨hx, -, rfl⟩ | ⟨-, hsome, -⟩⟩ := runs_allocRound hr
  · refine runs_bind.mpr ⟨x, s', hget, ?_⟩
    rw [if_neg hx]
    exact runs_pure.mpr ⟨rfl, rfl⟩
  · cases hsome

/-- The answer 0 means that the scan of the FAT finds no free entry. -/
theorem fatAlloc_zero_iff {prev : Nat} : (fatAlloc prev).Runs s 0 s' ↔
    (firstFree (u32 (s.vol.totalClusters + 2) - 2) 2).Runs s none s' := by
  refine ⟨fun hr => ?_, fatAlloc_of_firstFree⟩
  rw [fatAlloc_eq] at hr
  obtain ⟨c, s₁, h₁, hrun⟩ := runs_bind.mp hr
  obtain ⟨rfl, rfl⟩ := runs_asks.mp h₁
  obtain ⟨found, s₂, h₂, hend⟩ := runs_bind.mp hrun
  obtain ⟨h0, rfl⟩ := runs_pure.mp hend
  cases found with
  | none => exact runs_forUntil_none (fun _ _ _ => runs_allocRound_none) h₂
  | some a =>
      obtain ⟨m, u, -, -, hround, -⟩ := runs_forUntil_find (fun _ _ _ => runs_allocRound_none) h₂
      obtain ⟨x, u₁, -, ⟨-, hnone, -⟩ | ⟨-, hsome, -⟩⟩ := runs_allocRound hround
      · cases hnone
      · rw [Option.some.injEq] at hsome
        rw [Option.getD_some] at h0
        omega

/-- What `fat_alloc` does to the entries that the driver sees. -/
structure Drv.Allots (s : Drv) (prev k : Nat) (s' : Drv) : Prop where
  range : s.vol.InRange k
  free : s.entry k = 0
  scans : ∃ t, s.Scans k t
  linked : prev ≠ 0 → s.Linked prev k → s'.entry prev = k
  last : ¬ (prev = k ∧ s.Linked prev k) → s'.entry k = 0x0FFFFFFF
  other : ∀ j, s.vol.InRange j → j ≠ k → ¬ (j = prev ∧ s.Linked prev k) → s'.entry j = s.entry j

theorem fatAlloc_leads {prev : Nat} (hv : s.vol.Sound s.sectors) (hs : s.Tidy)
    (hprev : prev = 0 ∨ s.vol.InRange prev) (hr : (fatAlloc prev).Runs s k s') :
    s.Leads s' ∧ (k = 0 → s'.seen = s.seen) ∧ (k ≠ 0 → s.Allots prev k s') := by
  have htot := hv.total_le
  have h32 : u32 (s.vol.totalClusters + 2) = s.vol.totalClusters + 2 := u32_of_lt (by omega)
  by_cases h0 : k = 0
  · subst h0
    rw [fatAlloc_zero_iff] at hr
    obtain ⟨hl, hseen⟩ := firstFree_leads hv hs (Nat.le_refl 2) (by omega) hr
    exact ⟨hl, fun _ => hseen, fun h => absurd rfl h⟩
  rw [fatAlloc_eq] at hr
  obtain ⟨c, s₀, hc, hrun⟩ := runs_bind.mp hr
  obtain ⟨rfl, rfl⟩ := runs_asks.mp hc
  obtain ⟨found, t, hfound, hend⟩ := runs_bind.mp hrun
  obtain ⟨hk, rfl⟩ := runs_pure.mp hend
  cases found with
  | none => exact absurd hk h0
  | some a =>
  obtain rfl : k = a := hk
  obtain ⟨m, t, hm, hscan, hround, hfinds⟩ :=
    runs_forUntil_find (fun _ _ _ => runs_allocRound_none) hfound
  obtain ⟨hl, hseen⟩ := firstFree_leads hv hs (Nat.le_refl 2) (by omega) hscan
  obtain ⟨x, s₁, hget, ⟨-, hnone, -⟩ | ⟨hx, hsome, ok, s₂, ok', s₃, u, h₂, h₃, h₄⟩⟩ :=
    runs_allocRound hround
  · cases hnone
  rw [Option.some.injEq] at hsome
  rw [← hsome] at hget hfinds h₂ h₃ h₄
  have hrange : s₀.vol.InRange k := ⟨by omega, by omega⟩
  obtain ⟨hl₁, hseen₁, hyes, hno⟩ := fatGet_leads (s := t) (by rw [hl.vol, hl.sectors]; exact hv)
    (by rw [hl.vol]; exact hrange) hl.tidy hget
  have hfetch : t.Fetches (t.vol.fatSec 0 k) := by
    by_contra hcon
    rw [hno hcon] at hx
    cases hx
  obtain ⟨hx₁, hkey⟩ := hyes hfetch
  rw [hx, hl.entry_eq hv (fun p _ => congrFun hseen p) hrange] at hx₁
  have hl' := hl.trans hl₁
  have hsound : s₁.vol.Sound s₁.sectors := by
    rw [hl'.vol, hl'.sectors]
    exact hv
  have hscans : s₀.Scans k s₁ := by
    refine hfinds k s₁ (runs_bind.mpr ⟨x, s₁, hget, ?_⟩)
    rw [if_pos hx]
    exact runs_pure.mpr ⟨rfl, rfl⟩
  have hfetch₁ : s₁.Fetches (s₁.vol.fatSec 0 k) := by
    rw [hl₁.vol, ← hkey]
    exact fetches_held s₁
  obtain ⟨hl₂, hent₂⟩ := fatSet_leads hsound (by rw [hl'.vol]; exact hrange) (by decide) hl'.tidy h₂
  rw [hl'.vol] at hent₂ hfetch₁
  have hat₁ : AtSlot s₀.vol s₀.vol.InRange s₁ := by
    refine ⟨hl'.vol, 0, k, Or.inl rfl, hrange, ?_⟩
    rw [hkey, hl.vol]
    exact (hv.fatCopy_eq hv.fats (hv.hasEntry hrange)).symm
  have hat₂ := AtSlot.fatSet hrange _ _ _ hat₁ h₂
  have hl₂' := hl'.trans hl₂
  have hlinked : s₀.Linked prev k ↔ s₂.Fetches (s₀.vol.fatSec 0 prev) := by
    refine ⟨?_, fun hf => ⟨s₁, ok, s₂, hscans, h₂, hf⟩⟩
    rintro ⟨t₁, ok₁, t₂, ht₁, ht₂, hf⟩
    obtain ⟨-, rfl⟩ := hscans.det ht₁
    obtain ⟨-, rfl⟩ := h₂.det ht₂
    exact hf
  obtain ⟨hl₃, hat₃, hent₃⟩ : s₂.Leads s₃ ∧ AtSlot s₀.vol s₀.vol.InRange s₃ ∧
      ∀ j, s₀.vol.InRange j → (¬ (j = prev ∧ s₀.Linked prev k) → s₃.entry j = s₂.entry j) ∧
        (j = prev ∧ s₀.Linked prev k → s₃.entry j = k) := by
    by_cases hp : prev = 0
    · rw [if_pos hp] at h₃
      obtain ⟨-, rfl⟩ := runs_pure.mp h₃
      refine ⟨.refl hl₂'.tidy, hat₂, fun j hj => ⟨fun _ => rfl, fun h => ?_⟩⟩
      have := hj.1
      omega
    · rw [if_neg hp] at h₃
      have hpr := hprev.resolve_left hp
      obtain ⟨hl₃, hent₃⟩ := fatSet_leads (by rw [hl₂'.vol, hl₂'.sectors]; exact hv)
        (by rw [hl₂'.vol]; exact hpr) (by have := hrange.2; omega) hl₂'.tidy h₃
      rw [hl₂'.vol] at hent₃
      refine ⟨hl₃, AtSlot.fatSet hpr _ _ _ hat₂ h₃, fun j hj => ⟨fun hn => ?_, fun hy => ?_⟩⟩
      · refine (hent₃ j hj).1 ?_
        rw [hlinked, not_and_or] at hn
        exact hn
      · exact (hent₃ j hj).2 ⟨hy.1, hlinked.mp hy.2⟩
  have hl₃' := hl₂'.trans hl₃
  rw [← hl₃'.vol] at h₄ hat₃
  obtain ⟨hl₄, hseen₄⟩ := zeroSectors_leads (by rw [hl₃'.vol, hl₃'.sectors]; exact hv)
    (by rw [hl₃'.vol]; exact hrange) hl₃'.tidy hat₃ h₄
  have hent₄ : ∀ j, s₀.vol.InRange j → s'.entry j = s₃.entry j := fun j hj =>
    hl₄.entry_eq (by rw [hl₃'.vol, hl₃'.sectors]; exact hv) hseen₄ (by rw [hl₃'.vol]; exact hj)
  have hold : ∀ j, s₀.vol.InRange j → s₁.entry j = s₀.entry j := fun j hj =>
    hl'.entry_eq hv (fun p _ => congrFun (hseen₁.trans hseen) p) hj
  refine ⟨hl₃'.trans hl₄, fun h => absurd h h0, fun _ => ⟨hrange, hx₁.symm, ⟨s₁, hscans⟩, ?_, ?_, ?_⟩⟩
  · intro hp hlk
    have hpr := hprev.resolve_left hp
    rw [hent₄ prev hpr, (hent₃ prev hpr).2 ⟨rfl, hlk⟩]
  · intro hn
    rw [hent₄ k hrange, (hent₃ k hrange).1 fun h => hn ⟨h.1.symm, h.2⟩]
    exact (hent₂ k hrange).2 ⟨rfl, hfetch₁⟩
  · intro j hj hjk hn
    rw [hent₄ j hj, (hent₃ j hj).1 hn, (hent₂ j hj).1 (Or.inl hjk), hold j hj]

end Chimaera.Fat32
