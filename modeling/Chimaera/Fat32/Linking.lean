/-
Allocation and writing on a device that may fail at any transfer: the link to a
new cluster may get lost, and where it does not, what `fat32_write` stores lies on
clusters that the links reach.
-/
import Chimaera.Fat32.Faults
import Chimaera.Fat32.Trust

namespace Chimaera.Fat32

open Prog

variable {s s' t t' : Drv} {a fd k n prev w : Nat} {buf : List UInt8} {f : Fd}

/-- In the driver's own view, the new cluster ends a chain, and `prev` leads to it. -/
def Drv.Allocated (s : Drv) (prev k : Nat) : Prop :=
  0x0FFFFFF8 ≤ s.entry k ∧ (prev ≠ 0 → s.entry prev = k)

/-- What `fat_alloc` needs for the link of `prev`: the free cluster that it finds is
not `prev` itself, and where the entry of `prev` cannot be read, it is the link already. -/
def Drv.Links (s : Drv) (prev : Nat) : Prop :=
  prev = 0 ∨ ∀ k s₁, s.Scans k s₁ → prev ≠ k ∧ (s.Linked prev k ∨ s.entry prev = k)

theorem Drv.Scans.links_iff (h : s.Scans k t) :
    s.Links prev ↔ prev = 0 ∨ (prev ≠ k ∧ (s.Linked prev k ∨ s.entry prev = k)) := by
  refine or_congr_right ⟨fun hl => hl k t h, fun hl k' t' h' => ?_⟩
  have hk := (h.det h').1
  rw [Option.some.injEq] at hk
  exact hk ▸ hl

/-- The link of `prev` is written, or was there before. -/
theorem Drv.Allots.allocated_iff (h : s.Allots prev k s') (hv : s.vol.Sound s.sectors)
    (hprev : prev = 0 ∨ s.vol.InRange prev) : s'.Allocated prev k ↔ s.Links prev := by
  have heoc := hv.not_eoc h.range
  obtain ⟨t, ht⟩ := h.scans
  rw [ht.links_iff]
  constructor
  · rintro ⟨hlast, hlink⟩
    by_cases hp : prev = 0
    · exact Or.inl hp
    have hlk := hlink hp
    have hne : prev ≠ k := by
      rintro rfl
      omega
    refine Or.inr ⟨hne, ?_⟩
    by_cases hl : s.Linked prev k
    · exact Or.inl hl
    · rw [h.other prev (hprev.resolve_left hp) hne fun hn => hl hn.2] at hlk
      exact Or.inr hlk
  · rintro (rfl | ⟨hne, hcase⟩)
    · have hlast := h.last fun hn => absurd (hn.1 ▸ h.range) (by rintro ⟨h2, -⟩; omega)
      exact ⟨by omega, fun h0 => absurd rfl h0⟩
    · refine ⟨by have := h.last fun hn => hne hn.1; omega, fun hp => ?_⟩
      by_cases hl : s.Linked prev k
      · exact h.linked hp hl
      · rw [h.other prev (hprev.resolve_left hp) hne fun hn => hl hn.2]
        exact hcase.resolve_left hl

/-- Where the entry can be read, it is what `fat_get` answers. -/
theorem Drv.Fetches.fatGet (h : s.Fetches (s.vol.fatSec 0 k)) (hv : s.vol.Sound s.sectors)
    (hk : s.vol.InRange k) (hs : s.Tidy) : (Fat32.fatGet k).Answers s (s.entry k) := by
  obtain ⟨t, ht⟩ := h
  have hr : (Fat32.fatGet k).Runs s (t.secCache.word (fatOffsetInSector k) 4 % 268435456) t := by
    refine runs_bind.mpr ⟨_, _, runs_asks.mpr ⟨rfl, rfl⟩, ?_⟩
    refine runs_bind.mpr ⟨true, t, by rw [hv.fatLbaForCluster_eq (hv.hasEntry hk)]; exact ht, ?_⟩
    exact runs_bind.mpr ⟨_, _, runs_asks.mpr ⟨rfl, rfl⟩, runs_pure.mpr ⟨rfl, rfl⟩⟩
  exact ⟨t, ((fatGet_leads hv hk hs hr).2.2.1 ⟨t, ht⟩).1 ▸ hr⟩

/-- Following the links that the driver sees leads from `a` to `k`. -/
def Drv.Reaches (s : Drv) (a k : Nat) : Prop := Relation.ReflTransGen
  (fun x y => s.vol.InRange x ∧ s.entry x = y ∧ IsLink y) a k

theorem Drv.Reaches.mono (h : s.Reaches a k) (hv : s'.vol = s.vol)
    (he : ∀ j, s.vol.InRange j → IsLink (s.entry j) → s'.entry j = s.entry j) :
    s'.Reaches a k := by
  refine Relation.ReflTransGen.mono ?_ a k h
  rintro x y ⟨hx, rfl, hy⟩
  exact ⟨hv.symm ▸ hx, he x hx hy, hy⟩

/-- Links are the same where the FAT is. -/
theorem Drv.Leads.reaches (h : s.Leads s') (hv : s.vol.Sound s.sectors)
    (hseen : ∀ p < s.vol.dataLba, s'.seen p = s.seen p) {b : Nat} (hr : s.Reaches a b) :
    s'.Reaches a b :=
  hr.mono h.vol fun _ hj _ => h.entry_eq hv hseen hj

/-- An allocation behind an end of a chain takes no link away. -/
theorem Drv.Allots.reaches (h : s.Allots prev k s') (hv : s'.vol = s.vol)
    (hend : ¬ IsLink (s.entry prev)) {b : Nat} (hr : s.Reaches a b) : s'.Reaches a b := by
  refine hr.mono hv fun j hj hl => h.other j hj ?_ ?_
  · rintro rfl
    rw [h.free] at hl
    exact absurd hl (by decide)
  · rintro ⟨rfl, -⟩
    exact hend hl

/-- What a step of `fat32_write` past the end of cluster `k` needs: the entry can be read and
stays within the volume, and where it is not a link, `fat_alloc` links the new cluster. -/
def Drv.Advances (t : Drv) (k : Nat) : Prop :=
  t.Fetches (t.vol.fatSec 0 k) ∧ (IsLink (t.entry k) → t.vol.InRange (t.entry k)) ∧
    (¬ IsLink (t.entry k) → ∀ x u, (fatGet k).Runs t x u → u.Links k)

theorem writeNext_leads (ht : t.Tidy) (hv : t.vol.Sound t.sectors) (hk : t.vol.InRange k)
    (hadv : t.Advances k) (hr : (writeNext k).Runs t n t') : t.Leads t' ∧
    (∀ b, t.Reaches a b → t'.Reaches a b) ∧
      (n ≠ 0 → t.vol.InRange n ∧ (t.Reaches a k → t'.Reaches a n)) := by
  obtain ⟨hfetch, hin, hout⟩ := hadv
  obtain ⟨x, u, hget, hrest⟩ := runs_bind.mp hr
  obtain ⟨hl, hseen, hyes, -⟩ := fatGet_leads hv hk ht hget
  obtain ⟨rfl, -⟩ := hyes hfetch
  have hentry : ∀ j, t.vol.InRange j → u.entry j = t.entry j :=
    fun j hj => hl.entry_eq hv (fun p _ => congrFun hseen p) hj
  have hsame : ∀ b, t.Reaches a b → u.Reaches a b :=
    fun b hb => hl.reaches hv (fun p _ => congrFun hseen p) hb
  split at hrest
  · next hend =>
    have hno : ¬ IsLink (t.entry k) := by
      rintro ⟨h2, h8⟩
      omega
    have hvu : u.vol.Sound u.sectors := by
      rw [hl.vol, hl.sectors]
      exact hv
    have hku : u.vol.InRange k := by
      rw [hl.vol]
      exact hk
    obtain ⟨hl', hzero, hallots⟩ := fatAlloc_leads hvu hl.tidy (Or.inr hku) hrest
    by_cases h0 : n = 0
    · exact ⟨hl.trans hl', fun b hb => hl'.reaches hvu (fun p _ => congrFun (hzero h0) p)
        (hsame b hb), fun h => absurd h0 h⟩
    · have hal := hallots h0
      have hkeep : ∀ b, t.Reaches a b → t'.Reaches a b := fun b hb =>
        hal.reaches hl'.vol (by rw [hentry k hk]; exact hno) (hsame b hb)
      have hrange : t.vol.InRange n := hl.vol ▸ hal.range
      obtain ⟨-, hlink⟩ := (hal.allocated_iff hvu (Or.inr hku)).mpr (hout hno _ u hget)
      refine ⟨hl.trans hl', hkeep, fun _ => ⟨hrange, fun hb => (hkeep k hb).tail ⟨?_, ?_, ?_⟩⟩⟩
      · rw [hl'.vol]
        exact hku
      · exact hlink (by have := hk.1; omega)
      · exact ⟨hrange.1, Nat.not_le.mp (hv.not_eoc hrange)⟩
  · next hlink =>
    obtain ⟨rfl, rfl⟩ := runs_pure.mp hrest
    have hl2 : IsLink (t.entry k) := ⟨by omega, by omega⟩
    refine ⟨hl, hsame, fun _ => ⟨hin hl2, fun hb => (hsame k hb).tail ⟨?_, hentry k hk, hl2⟩⟩⟩
    rw [hl.vol]
    exact hk

/-- The device has carried out writes of the first `n` bytes of `buf` since `s`, each to its
place in a cluster of the volume that the links reach from the descriptor's first one. -/
def Drv.Stored (s : Drv) (fd : Nat) (buf : List UInt8) (t : Drv) (n : Nat) : Prop :=
  ∀ i < n, ∃ k b new, s.vol.InRange k ∧ t.Reaches (s.fds fd).cluster k ∧ t.log = new ++ s.log ∧
    (s.vol.secLba k (u32 ((s.fds fd).pos + i) % s.vol.clusterSize / 512), b) ∈ new ∧
      b.byte (u32 ((s.fds fd).pos + i) % 512) = buf.getD i 0

theorem Drv.Stored.mono (h : s.Stored fd buf t n) (hlog : t.log <:+ t'.log)
    (hreach : ∀ k, t.Reaches (s.fds fd).cluster k → t'.Reaches (s.fds fd).cluster k) :
    s.Stored fd buf t' n := by
  obtain ⟨more, hmore⟩ := hlog
  intro i hi
  obtain ⟨k, b, new, hk, hr, hnew, hmem, hb⟩ := h i hi
  refine ⟨k, b, more ++ new, hk, hreach k hr, ?_, List.mem_append_right more hmem, hb⟩
  rw [← hmore, hnew, List.append_assoc]

/-- The state of `fat32_write` after `w` bytes, with the descriptor that it goes on with. -/
structure Drv.Writing (s : Drv) (fd : Nat) (buf : List UInt8) (t : Drv) (w : Nat) (f : Fd) :
    Prop where
  tidy : t.Tidy
  vol : t.vol = s.vol
  sectors : t.sectors = s.sectors
  log : s.log <:+ t.log
  cluster : f.cluster = (s.fds fd).cluster
  pos : f.pos = u32 ((s.fds fd).pos + w)
  cur : s.vol.InRange f.curCluster
  reach : t.Reaches (s.fds fd).cluster f.curCluster
  stored : s.Stored fd buf t w

/-- The rounds go on from a state with the same links. -/
theorem Drv.Writing.leads (h : s.Writing fd buf t w f) (hl : t.Leads t')
    (hreach : ∀ k, t.Reaches (s.fds fd).cluster k → t'.Reaches (s.fds fd).cluster k) :
    s.Writing fd buf t' w f :=
  ⟨hl.tidy, hl.vol.trans h.vol, hl.sectors.trans h.sectors, h.log.trans hl.log, h.cluster, h.pos,
    h.cur, hreach _ h.reach, h.stored.mono hl.log hreach⟩

/-- So they do after an access to the data area. -/
theorem Drv.Writing.data (h : s.Writing fd buf t w f) (hv : s.vol.Sound s.sectors)
    (hl : t.Leads t') (hseen : ∀ p < s.vol.dataLba, t'.seen p = t.seen p) :
    s.Writing fd buf t' w f := by
  refine h.leads hl fun k hk => hl.reaches ?_ ?_ hk
  · rw [h.vol, h.sectors]
    exact hv
  · rw [h.vol]
    exact hseen

/-- Descriptors are no part of what the driver sees. -/
theorem Drv.Writing.putFd {g : Fd} {u : Unit} (h : s.Writing fd buf t w f)
    (hr : (Fat32.putFd fd g).Runs t u t') : s.Writing fd buf t' w f ∧ t'.fds fd = g := by
  obtain rfl := runs_modify.mp hr
  refine ⟨⟨h.tidy, h.vol, h.sectors, h.log, h.cluster, h.pos, h.cur, h.reach.mono rfl ?_,
    h.stored.mono List.suffix_rfl fun k hk => hk.mono rfl ?_⟩, ?_⟩
  · exact fun _ _ _ => rfl
  · exact fun _ _ _ => rfl
  · change Function.update t.fds fd g fd = g
    rw [Function.update_self]

/-- The place of a byte that is written together with the byte at position `pos`. -/
theorem chunk_place {v : Vol} {m pos d : Nat} (hv : v.Sound m) (hpos : pos < 4294967296)
    (hd : pos % v.clusterSize % 512 + d < 512) : u32 (pos + d) % v.clusterSize / 512 =
      pos % v.clusterSize / 512 ∧ u32 (pos + d) % 512 = pos % v.clusterSize % 512 + d := by
  have hcs := hv.clusterSize_eq
  have hspc := hv.spc_pos
  have h512 : pos % v.clusterSize % 512 = pos % 512 := by
    rw [hcs, Nat.mod_mod_of_dvd _ (Nat.dvd_mul_left 512 _)]
  have hlt : pos % v.clusterSize < v.clusterSize := Nat.mod_lt _ (by omega)
  rw [h512] at hd ⊢
  have hno : pos + d < 4294967296 := by omega
  rw [u32_of_lt hno]
  refine ⟨?_, by omega⟩
  have hin : pos % v.clusterSize + d < v.clusterSize := by
    rw [hcs] at *
    generalize pos % (v.secPerClus * 512) = r at *
    omega
  have hmod : (pos + d) % v.clusterSize = pos % v.clusterSize + d := by
    rw [Nat.add_mod, Nat.mod_eq_of_lt (a := d) (by omega), Nat.mod_eq_of_lt hin]
  rw [hmod]
  omega

/-- A sector that is written at the cursor adds its bytes. -/
theorem Drv.Writing.extend {b : Sector} {new : List (Nat × Sector)} {m : Nat}
    (h : s.Writing fd buf t w f) (hv : s.vol.Sound s.sectors) (hlog : t.log = new ++ s.log)
    (hmem : (s.vol.secLba f.curCluster (f.pos % s.vol.clusterSize / 512), b) ∈ new)
    (hm : f.pos % s.vol.clusterSize % 512 + m ≤ 512)
    (hb : ∀ d < m, b.byte (f.pos % s.vol.clusterSize % 512 + d) = buf.getD (w + d) 0) :
    s.Stored fd buf t (w + m) := by
  intro i hi
  by_cases hiw : i < w
  · exact h.stored i hiw
  obtain ⟨d, rfl⟩ := Nat.exists_eq_add_of_le (Nat.not_lt.mp hiw)
  have hd : d < m := by omega
  have hplace : u32 ((s.fds fd).pos + (w + d)) = u32 (f.pos + d) := by
    rw [h.pos]
    unfold u32
    omega
  have hpos : f.pos < 4294967296 := by
    rw [h.pos]
    exact Nat.mod_lt _ (by decide)
  obtain ⟨hsec, hoff⟩ := chunk_place hv hpos (d := d) (by omega)
  refine ⟨f.curCluster, b, new, h.cur, h.reach, hlog, ?_, ?_⟩
  · rw [hplace, hsec]
    exact hmem
  · rw [hplace, hoff]
    exact hb d hd

/-- A chunk that is flushed adds its bytes. -/
theorem Drv.Writing.chunk {d : Nat ⊕ Nat} (h : s.Writing fd buf t w f)
    (hv : s.vol.Sound s.sectors) (hr : (writeChunk fd buf w s.vol f).Runs t d t') :
    (∀ w', d = .inl w' → s.Writing fd buf t' w' (t'.fds fd)) ∧
      ∀ w', d = .inr w' → s.Stored fd buf t' w' := by
  obtain ⟨u, t₁, h₁, hr₁⟩ := runs_bind.mp hr
  have hw₁ := (h.putFd h₁).1
  obtain ⟨o, t₂, h₂, hr₂⟩ := runs_bind.mp hr₁
  have hcs := hv.clusterSize_eq
  have hspc := hv.spc_pos
  have hj : f.pos % s.vol.clusterSize / 512 < s.vol.secPerClus := by
    refine Nat.div_lt_of_lt_mul ?_
    rw [Nat.mul_comm, ← hcs]
    exact Nat.mod_lt _ (by rw [hcs]; omega)
  have hlba : u32 (s.vol.clusterToLba f.curCluster + f.pos % s.vol.clusterSize / 512) =
      s.vol.secLba f.curCluster (f.pos % s.vol.clusterSize / 512) := by
    rw [hv.clusterToLba_eq h.cur]
    exact hv.u32_secLba h.cur hj
  have hlt := hv.secLba_lt h.cur hj
  have h28 := hv.lba28
  have hhigh : s.vol.dataLba ≤ s.vol.secLba f.curCluster (f.pos % s.vol.clusterSize / 512) := by
    unfold Vol.secLba
    omega
  rw [hlba] at h₂
  obtain ⟨hl₂, hseen₂, hcache⟩ := secRead_leads hw₁.tidy (by omega) h₂
  have hw₂ := hw₁.data hv hl₂ fun p _ => congrFun hseen₂ p
  cases o with
  | false =>
      obtain ⟨rfl, rfl⟩ := runs_pure.mp hr₂
      exact ⟨nofun, fun w' hw' => Sum.inr.inj hw' ▸ hw₂.stored⟩
  | true =>
  obtain ⟨hkey, -⟩ := hcache rfl
  obtain ⟨u₂, t₃, h₃, hr₃⟩ := runs_bind.mp hr₂
  obtain ⟨hl₃, hdirty, hkey₃, hheld, hseen₃⟩ := secUpdate_leads h₃
  rw [hkey, Nat.mod_eq_of_lt (hlt.trans_le h28)] at hseen₃
  have hw₃ : s.Writing fd buf t₃ w f := by
    refine hw₂.data hv hl₃ fun p hp => ?_
    rw [hseen₃, Function.update_of_ne (by omega)]
  obtain ⟨o, t₄, h₄, hr₄⟩ := runs_bind.mp hr₃
  obtain ⟨hl₄, hseen₄, hdone⟩ := secFlush_leads hw₃.tidy h₄
  have hw₄ := hw₃.data hv hl₄ fun p _ => congrFun hseen₄ p
  cases o with
  | false =>
      obtain ⟨rfl, rfl⟩ := runs_pure.mp hr₄
      exact ⟨nofun, fun w' hw' => Sum.inr.inj hw' ▸ hw₄.stored⟩
  | true =>
  have hlog := (hdone rfl).2 hdirty
  rw [hkey₃, hkey, Nat.mod_eq_of_lt (hlt.trans_le h28)] at hlog
  obtain ⟨u₄, t₅, h₅, hr₅⟩ := runs_bind.mp hr₄
  obtain ⟨rfl, rfl⟩ := runs_pure.mp hr₅
  refine ⟨fun w' hw' => ?_, nofun⟩
  obtain ⟨hw₅, hfd⟩ := hw₄.putFd h₅
  obtain rfl := Sum.inl.inj hw'
  obtain ⟨old, hold⟩ := hw₃.log
  have hlog₅ : t'.log = t₄.log := by
    obtain rfl := runs_modify.mp h₅
    rfl
  have hmin := Nat.min_le_left (512 - f.pos % s.vol.clusterSize % 512) (buf.length - w)
  have hlen := Nat.min_le_right (512 - f.pos % s.vol.clusterSize % 512) (buf.length - w)
  have h512 := Nat.mod_lt (f.pos % s.vol.clusterSize) (show 0 < 512 by decide)
  generalize min (512 - f.pos % s.vol.clusterSize % 512) (buf.length - w) = m at *
  have hnew : t'.log = (s.vol.secLba f.curCluster (f.pos % s.vol.clusterSize / 512),
      t₃.secCache) :: old ++ s.log := by
    rw [hlog₅, hlog, ← hold, List.cons_append]
  have hst : s.Stored fd buf t' (w + m) := by
    refine hw₅.extend hv hnew List.mem_cons_self (by omega) fun d hd => ?_
    rw [hheld, Block.byte_patch_of_inside]
    · rw [List.getD_eq_getElem?_getD, List.getElem?_take_of_lt hd, List.getElem?_drop,
        ← List.getD_eq_getElem?_getD]
    · rw [List.length_take, List.length_drop]
      omega
    · omega
  rw [hfd]
  refine ⟨hw₅.tidy, hw₅.vol, hw₅.sectors, hw₅.log, hw₅.cluster, ?_, hw₅.cur, hw₅.reach, hst⟩
  change u32 (f.pos + m) = u32 ((s.fds fd).pos + (w + m))
  rw [h.pos]
  unfold u32
  omega

/-- The states between the rounds of `fat32_write`. -/
inductive Drv.WriteRounds (s : Drv) (fd : Nat) (buf : List UInt8) : Nat → Drv → Prop
  | start : WriteRounds s fd buf 0 s
  | next {w w' : Nat} {t t' : Drv} (h : WriteRounds s fd buf w t)
      (hr : (writeStep fd buf w).Runs t (.inl w') t') : WriteRounds s fd buf w' t'

/-- Every round that goes on to another cluster can. -/
def Drv.WritesOn (s : Drv) (fd : Nat) (buf : List UInt8) : Prop :=
  ∀ w t, s.WriteRounds fd buf w t → w < buf.length →
    (t.fds fd).pos % t.vol.clusterSize = 0 → 0 < (t.fds fd).pos →
      t.Advances (t.fds fd).curCluster

/-- One round keeps what is stored reachable, whether or not it goes on. -/
theorem Drv.Writing.step {d : Nat ⊕ Nat} (h : s.Writing fd buf t w (t.fds fd))
    (hv : s.vol.Sound s.sectors) (hadv : w < buf.length →
      (t.fds fd).pos % t.vol.clusterSize = 0 → 0 < (t.fds fd).pos →
        t.Advances (t.fds fd).curCluster)
    (hr : (writeStep fd buf w).Runs t d t') :
    (∀ w', d = .inl w' → s.Writing fd buf t' w' (t'.fds fd)) ∧
      ∀ w', d = .inr w' → s.Stored fd buf t' w' := by
  obtain ⟨c, t₁, h₁, hr₁⟩ := runs_bind.mp hr
  obtain ⟨rfl, rfl⟩ := runs_asks.mp h₁
  split at hr₁
  · obtain ⟨rfl, rfl⟩ := runs_pure.mp hr₁
    exact ⟨nofun, fun w' hw' => Sum.inr.inj hw' ▸ h.stored⟩
  next hw =>
  dsimp only at hr₁
  split at hr₁
  · next hedge =>
    obtain ⟨x, t₂, h₂, hr₂⟩ := runs_bind.mp hr₁
    obtain ⟨hl, hkeep, hcur⟩ := writeNext_leads h.tidy (by rw [h.vol, h.sectors]; exact hv)
      (by rw [h.vol]; exact h.cur) (hadv (by omega) hedge.1 hedge.2) h₂
    have hw₂ := h.leads hl hkeep
    split at hr₂
    · obtain ⟨rfl, rfl⟩ := runs_pure.mp hr₂
      exact ⟨nofun, fun w' hw' => Sum.inr.inj hw' ▸ hw₂.stored⟩
    · next hx =>
      obtain ⟨hrange, hreach⟩ := hcur hx
      rw [h.vol] at hrange hr₂
      have hgo : s.Writing fd buf t₂ w { t₁.fds fd with curCluster := x } :=
        ⟨hw₂.tidy, hw₂.vol, hw₂.sectors, hw₂.log, h.cluster, h.pos, hrange, hreach h.reach,
          hw₂.stored⟩
      exact hgo.chunk hv hr₂
  · rw [h.vol] at hr₁
    exact h.chunk hv hr₁

/-- What `fat32_write` stores lies on clusters that the links reach. -/
theorem fat32Write_stored {d n : Int} (hs : s.Tidy) (hv : s.vol.Sound s.sectors)
    (hpos : (s.fds d.toNat).pos < 4294967296) (hcur : s.vol.InRange (s.fds d.toNat).curCluster)
    (hreach : s.Reaches (s.fds d.toNat).cluster (s.fds d.toNat).curCluster) (hon : s.WritesOn d.toNat buf)
    (hr : (fat32Write d buf).Runs s n s') : s.Stored d.toNat buf s' n.toNat := by
  obtain ⟨c, s₁, h₁, hr₁⟩ := runs_bind.mp hr
  obtain ⟨rfl, rfl⟩ := runs_asks.mp h₁
  split at hr₁
  · obtain ⟨rfl, rfl⟩ := runs_pure.mp hr₁
    exact fun i hi => absurd hi (Nat.not_lt_zero i)
  · obtain ⟨w, s₂, h₂, hr₂⟩ := runs_bind.mp hr₁
    obtain ⟨rfl, rfl⟩ := runs_pure.mp hr₂
    have hst : s₁.Stored d.toNat buf s' w := by
      refine Runs.loop_ind
        (I := fun w t => s₁.WriteRounds d.toNat buf w t ∧
          s₁.Writing d.toNat buf t w (t.fds d.toNat))
        (Q := fun w t => s₁.Stored d.toNat buf t w) ?_ ?_ h₂ ⟨.start, ?_⟩
      · exact fun w t w' t' ⟨hrd, hwr⟩ hstep =>
          ⟨hrd.next hstep, (hwr.step hv (hon w t hrd) hstep).1 w' rfl⟩
      · exact fun w t w' t' ⟨hrd, hwr⟩ hstep => (hwr.step hv (hon w t hrd) hstep).2 w' rfl
      · refine ⟨hs, rfl, rfl, List.suffix_rfl, rfl, (u32_of_lt hpos).symm, hcur, hreach, ?_⟩
        exact fun i hi => absurd hi (Nat.not_lt_zero i)
    intro i hi
    refine hst i (Nat.lt_of_lt_of_le hi ?_)
    unfold i32
    omega

/-- `fat_alloc` leaves a linked cluster exactly where it can come to the entry of `prev`, and
`fat32_write` stores on linked clusters as long as each of its steps to a new one can. -/
theorem alloc_links_iff (hs : s.Tidy) (hv : s.vol.Sound s.sectors) :
    (∀ prev k s', prev = 0 ∨ s.vol.InRange prev → (fatAlloc prev).Runs s k s' →
      ((k ≠ 0 → s'.Allocated prev k) ↔ s.Links prev) ∧
      ∀ j, s.vol.InRange j → s'.Fetches (s'.vol.fatSec 0 j) →
        (fatGet j).Answers s' (s'.entry j)) ∧
    ∀ (fd : Int) buf n s', (s.fds fd.toNat).pos < 4294967296 →
      s.vol.InRange (s.fds fd.toNat).curCluster →
        s.Reaches (s.fds fd.toNat).cluster (s.fds fd.toNat).curCluster →
          s.WritesOn fd.toNat buf → (fat32Write fd buf).Runs s n s' →
            s.Stored fd.toNat buf s' n.toNat := by
  refine ⟨fun prev k s' hprev hr => ?_, fun fd buf n s' hpos hcur hreach hon hr =>
    fat32Write_stored hs hv hpos hcur hreach hon hr⟩
  obtain ⟨hl, -, hallots⟩ := fatAlloc_leads hv hs hprev hr
  refine ⟨?_, fun j hj hf => hf.fatGet (by rw [hl.vol, hl.sectors]; exact hv)
    (by rw [hl.vol]; exact hj) hl.tidy⟩
  by_cases h0 : k = 0
  · subst h0
    refine iff_of_true (fun h => absurd rfl h) (Or.inr fun k t hscan => ?_)
    cases (hscan.det (fatAlloc_zero_iff.mp hr)).1
  · rw [← (hallots h0).allocated_iff hv hprev]
    exact ⟨fun h => h h0, fun h _ => h⟩

/-- A FAT of two sectors, the first of them all used, with a descriptor at the end of
cluster 2; transfer number 3 fails. -/
def lost : Drv :=
  { unmounted 203 fun lba => if lba = 1 then fun _ => 0xFF else Block.zero 512 with
    vol := ⟨0, 1, 1, 2, 2, 1, 3, 200⟩
    volMounted := true
    ataOk := fun n => n != 3
    fds := fun _ => ⟨true, true, 2, 2, 3, 0, 512, 512, 2⟩ }

theorem lost_alloc : ((fatAlloc 2).run 10 lost).map (fun r => (r.1, r.2.entry 2)) =
    some (128, 0x0FFFFFFF) := by
  decide +kernel

theorem lost_write : ((fat32Write 0 [0x58]).run 10 lost).map
    (fun r => (r.1, r.2.entry 2, r.2.log.map Prod.fst)) =
      some (1, 0x0FFFFFFF, [129, 129, 2]) := by
  decide +kernel

theorem lost_sound : lost.vol.Sound lost.sectors := by
  constructor <;> decide

theorem lost_tidy : lost.Tidy := fun _ => Or.inl rfl

/-- The new cluster 128 is used, with no link to it, and a byte is written there. -/
theorem not_alloc_links :
    (¬ ∀ s prev k s', s.Tidy → s.vol.Sound s.sectors → prev = 0 ∨ s.vol.InRange prev →
      (fatAlloc prev).Runs s k s' → k ≠ 0 → s'.Allocated prev k) ∧
    ¬ ∀ s (fd : Int) buf n s', s.Tidy → s.vol.Sound s.sectors →
      (s.fds fd.toNat).pos < 4294967296 → s.vol.InRange (s.fds fd.toNat).curCluster →
        s.Reaches (s.fds fd.toNat).cluster (s.fds fd.toNat).curCluster →
          (fat32Write fd buf).Runs s n s' → s.Stored fd.toNat buf s' n.toNat := by
  constructor
  · intro hclaim
    obtain ⟨⟨k, t⟩, hr, ht⟩ := Option.map_eq_some_iff.mp lost_alloc
    simp only [Prod.mk.injEq] at ht
    obtain ⟨rfl, hent⟩ := ht
    have hlink := (hclaim lost 2 128 t lost_tidy lost_sound (Or.inr (by decide)) ⟨10, hr⟩
      (by decide)).2 (by decide)
    rw [hent] at hlink
    cases hlink
  · intro hclaim
    obtain ⟨⟨n, t⟩, hr, ht⟩ := Option.map_eq_some_iff.mp lost_write
    simp only [Prod.mk.injEq] at ht
    obtain ⟨rfl, hent, hlog⟩ := ht
    obtain ⟨k, b, new, -, hreach, hnew, hmem, -⟩ := hclaim lost 0 [0x58] 1 t lost_tidy lost_sound
      (by decide) (by decide) .refl ⟨10, hr⟩ 0 (by decide)
    have hk : k = 2 := by
      rcases Relation.ReflTransGen.cases_head hreach with h | ⟨y, ⟨-, hy, hlink⟩, -⟩
      · exact h.symm
      · change t.entry 2 = y at hy
        rw [hent] at hy
        exact absurd (hy ▸ hlink) (by decide)
    rw [hnew, List.map_append] at hlog
    have hin : lost.vol.secLba k 0 ∈ [129, 129, 2] :=
      hlog ▸ List.mem_append_left _ (List.mem_map.mpr ⟨_, hmem, rfl⟩)
    rw [hk] at hin
    exact absurd hin (by decide)

/-- The same volume with a link from cluster 2 to cluster 3, on a device without failures. -/
def linked : Drv :=
  { lost with
    ataOk := fun _ => true
    disk := fun lba =>
      if lba = 1 then Block.patch (fun _ => 0xFF) 8 (leBytes 4 3) else Block.zero 512 }

theorem linked_writesOn : linked.WritesOn 0 [0x58] := by
  have hrounds : ∀ w t, linked.WriteRounds 0 [0x58] w t → (w = 0 ∧ t = linked) ∨ w = 1 := by
    intro w t h
    induction h with
    | start => exact Or.inl ⟨rfl, rfl⟩
    | @next w w' t t' _ hr ih =>
        rcases ih with ⟨rfl, rfl⟩ | rfl
        · have hstep : ((writeStep 0 [0x58] 0).run 10 linked).map Prod.fst = some (.inl 1) := by
            decide +kernel
          obtain ⟨⟨d, u⟩, hrun, rfl⟩ := Option.map_eq_some_iff.mp hstep
          exact Or.inr (Sum.inl.inj (hr.det ⟨10, hrun⟩).1)
        · obtain ⟨c, u, -, hr'⟩ := runs_bind.mp hr
          cases (runs_pure.mp hr').1
  intro w t h hw _ _
  rcases hrounds w t h with ⟨rfl, rfl⟩ | rfl
  · have hread : ((secRead 1).run 10 linked).map Prod.fst = some true := by
      decide +kernel
    obtain ⟨⟨o, u⟩, hrun, rfl⟩ := Option.map_eq_some_iff.mp hread
    exact ⟨⟨u, 10, hrun⟩, fun _ => by decide +kernel, fun hno => absurd (by decide +kernel) hno⟩
  · cases hw with
    | step h => cases h

theorem alloc_links_linked :
    (∃ s', (fat32Write 0 [0x58]).Runs linked 1 s' ∧ linked.Stored 0 [0x58] s' 1) ∧
      ∃ s', (fatAlloc 2).Runs lost 128 s' ∧ (s'.Allocated 2 128 ↔ lost.Links 2) := by
  constructor
  · have hwrite : ((fat32Write 0 [0x58]).run 10 linked).map Prod.fst = some 1 := by
      decide +kernel
    obtain ⟨⟨n, t⟩, hr, rfl⟩ := Option.map_eq_some_iff.mp hwrite
    exact ⟨t, ⟨10, hr⟩, (alloc_links_iff (s := linked) (fun _ => Or.inl rfl) lost_sound).2 0 [0x58] 1 t
      (by decide) (by decide) .refl linked_writesOn ⟨10, hr⟩⟩
  · obtain ⟨⟨k, t⟩, hr, ht⟩ := Option.map_eq_some_iff.mp lost_alloc
    obtain rfl : k = 128 := (Prod.mk.inj ht).1
    refine ⟨t, ⟨10, hr⟩, ?_⟩
    rw [← ((alloc_links_iff lost_tidy lost_sound).1 2 128 t (Or.inr (by decide)) ⟨10, hr⟩).1]
    exact ⟨fun h _ => h, fun h => h (by decide)⟩

end Chimaera.Fat32
