/-
The volume as the directory and file code sees it: links, cluster contents and
the driver's variables, without addresses, copies of the FAT or a cache.
`Holds x Q w` runs `x` on any disk that shows the view `w`.
-/
import Chimaera.Fat32.Geometry
import Chimaera.Links

namespace Chimaera.Fat32

open Prog

structure View where
  vol : Vol
  fat : Nat → Nat
  sec : Nat → Nat → Sector
  mounted : Bool
  readonly : Bool
  fds : Nat → Fd
  heapPtr : Nat

/-- What a driver state shows; numbers that are no clusters show zeros. -/
def Store.view (c : Store) : View where
  vol := c.vol
  fat k := if c.vol.InRange k then c.fat k else 0
  sec k j := if c.vol.InRange k ∧ j < c.vol.secPerClus then c.sec k j else Block.zero 512
  mounted := c.volMounted
  readonly := c.volReadonly
  fds := c.fds
  heapPtr := c.heapPtr

/-- A sound volume with equal FATs that shows `w`. -/
structure Store.Shows (c : Store) (w : View) : Prop where
  view : c.view = w
  sound : c.vol.Sound c.sectors
  mirrored : c.Mirrored

namespace View

def setFat (w : View) (k x : Nat) : View := { w with fat := Function.update w.fat k x }

def setSec (w : View) (k j : Nat) (b : Sector) : View :=
  { w with sec := Function.update w.sec k (Function.update (w.sec k) j b) }

def zeroCluster (w : View) (k : Nat) : View :=
  { w with sec := Function.update w.sec k fun _ => Block.zero 512 }

def setFd (w : View) (fd : Nat) (f : Fd) : View :=
  { w with fds := Function.update w.fds fd f }

/-- Cluster `k`, zeroed, as a chain of its own or behind `prev`. -/
def alloc (w : View) (prev k : Nat) : View :=
  (if prev = 0 then w.setFat k 0x0FFFFFFF
    else (w.setFat k 0x0FFFFFFF).setFat prev k).zeroCluster k

def freeChain (w : View) (xs : List Nat) : View :=
  { w with fat := fun k => if k ∈ xs then 0 else w.fat k }

def freeCount (w : View) : Nat :=
  (List.range w.vol.totalClusters).countP fun i => w.fat (i + 2) == 0

/-- The chain of clusters that starts at `a`. -/
def Chain (w : View) (a : Nat) (xs : List Nat) : Prop :=
  Links.Chain w.fat w.vol.InRange (fun x => 0x0FFFFFF8 ≤ x) a xs

variable {w : View} {k j x : Nat}

@[simp] theorem vol_setFat : (w.setFat k x).vol = w.vol := rfl
@[simp] theorem sec_setFat : (w.setFat k x).sec = w.sec := rfl
@[simp] theorem fds_setFat : (w.setFat k x).fds = w.fds := rfl
@[simp] theorem fat_setFat : (w.setFat k x).fat = Function.update w.fat k x := rfl
@[simp] theorem vol_setSec {b : Sector} : (w.setSec k j b).vol = w.vol := rfl
@[simp] theorem fat_setSec {b : Sector} : (w.setSec k j b).fat = w.fat := rfl
@[simp] theorem fds_setSec {b : Sector} : (w.setSec k j b).fds = w.fds := rfl
@[simp] theorem sec_setSec {b : Sector} : (w.setSec k j b).sec =
    Function.update w.sec k (Function.update (w.sec k) j b) := rfl
@[simp] theorem vol_zeroCluster : (w.zeroCluster k).vol = w.vol := rfl
@[simp] theorem fat_zeroCluster : (w.zeroCluster k).fat = w.fat := rfl
@[simp] theorem fds_zeroCluster : (w.zeroCluster k).fds = w.fds := rfl
@[simp] theorem sec_zeroCluster : (w.zeroCluster k).sec =
    Function.update w.sec k fun _ => Block.zero 512 := rfl
@[simp] theorem vol_setFd {f : Fd} : (w.setFd k f).vol = w.vol := rfl
@[simp] theorem fat_setFd {f : Fd} : (w.setFd k f).fat = w.fat := rfl
@[simp] theorem sec_setFd {f : Fd} : (w.setFd k f).sec = w.sec := rfl
@[simp] theorem fds_setFd {f : Fd} : (w.setFd k f).fds = Function.update w.fds k f := rfl
@[simp] theorem vol_freeChain {xs : List Nat} : (w.freeChain xs).vol = w.vol := rfl
@[simp] theorem sec_freeChain {xs : List Nat} : (w.freeChain xs).sec = w.sec := rfl
@[simp] theorem fds_freeChain {xs : List Nat} : (w.freeChain xs).fds = w.fds := rfl
@[simp] theorem fat_freeChain {xs : List Nat} :
    (w.freeChain xs).fat = fun k => if k ∈ xs then 0 else w.fat k := rfl

@[simp] theorem vol_alloc {prev : Nat} : (w.alloc prev k).vol = w.vol := by
  unfold alloc
  split <;> rfl

@[simp] theorem fds_alloc {prev : Nat} : (w.alloc prev k).fds = w.fds := by
  unfold alloc
  split <;> rfl

@[simp] theorem sec_alloc {prev : Nat} : (w.alloc prev k).sec =
    Function.update w.sec k fun _ => Block.zero 512 := by
  unfold alloc
  split <;> rfl

theorem fat_alloc {prev : Nat} (hne : prev ≠ k) (i : Nat) : (w.alloc prev k).fat i =
    if i = k then 0x0FFFFFFF else if prev ≠ 0 ∧ i = prev then k else w.fat i := by
  unfold alloc
  by_cases hp : prev = 0
  · simp [hp, Function.update_apply]
  · by_cases hi : i = k
    · subst hi
      simp [hp, Ne.symm hne]
    · simp [hp, Function.update_apply, hi]

theorem freeCount_eq_zero : w.freeCount = 0 ↔ ∀ k, w.vol.InRange k → w.fat k ≠ 0 := by
  unfold freeCount
  rw [List.countP_eq_zero]
  constructor
  · intro h k hk h0
    have := h (k - 2) (by rw [List.mem_range]; have := hk.1; have := hk.2; omega)
    rw [Nat.sub_add_cancel hk.1, h0] at this
    simp at this
  · intro h i hi
    rw [List.mem_range] at hi
    simpa using h (i + 2) ⟨by omega, by omega⟩

theorem freeCount_congr {w' : View} (hv : w'.vol = w.vol) (hf : w'.fat = w.fat) :
    w'.freeCount = w.freeCount := by
  unfold freeCount
  rw [hv, hf]

/-- A cluster that is taken from the free ones. -/
theorem freeCount_taken {w' : View} (hv : w'.vol = w.vol) (hk : w.vol.InRange k)
    (h0 : w.fat k = 0) (hk' : w'.fat k ≠ 0) (hsame : ∀ i, i ≠ k → (w'.fat i = 0 ↔ w.fat i = 0)) :
    w'.freeCount + 1 = w.freeCount := by
  have hk2 := hk.1
  have hsplit : List.range w.vol.totalClusters = List.range (k - 2) ++
      (k - 2) :: (List.range (w.vol.totalClusters - (k - 1))).map (k - 1 + ·) := by
    have hlt := hk.2
    have hsum : w.vol.totalClusters = k - 2 + 1 + (w.vol.totalClusters - (k - 1)) := by omega
    conv_lhs => rw [hsum]
    rw [List.range_add, List.range_succ, List.append_assoc]
    have hidx : k - 2 + 1 = k - 1 := by omega
    rw [hidx]
    rfl
  have hfat : ∀ i, i + 2 ≠ k → (w'.fat (i + 2) == 0) = (w.fat (i + 2) == 0) := by
    intro i hi
    rw [Bool.eq_iff_iff, beq_iff_eq, beq_iff_eq]
    exact hsame _ hi
  unfold freeCount
  rw [hv, hsplit]
  simp only [List.countP_append, List.countP_cons, List.countP_map]
  have h₁ : (List.range (k - 2)).countP (fun i => w'.fat (i + 2) == 0) =
      (List.range (k - 2)).countP fun i => w.fat (i + 2) == 0 := by
    apply List.countP_congr
    intro i hi
    rw [List.mem_range] at hi
    rw [hfat i (by omega)]
  have h₂ : ∀ n, (List.range n).countP ((fun i => w'.fat (i + 2) == 0) ∘ (k - 1 + ·)) =
      (List.range n).countP ((fun i => w.fat (i + 2) == 0) ∘ (k - 1 + ·)) := by
    intro n
    apply List.countP_congr
    intro i _
    rw [Function.comp_apply, Function.comp_apply, hfat _ (by omega)]
  have hback : k - 2 + 2 = k := by omega
  rw [h₁, h₂, hback, h0]
  simp [hk']
  omega

theorem freeCount_alloc {prev : Nat} (hne : prev ≠ k) (hk : w.vol.InRange k) (h0 : w.fat k = 0)
    (hp0 : prev ≠ 0 → w.fat prev ≠ 0) : (w.alloc prev k).freeCount + 1 = w.freeCount := by
  have hk2 := hk.1
  refine freeCount_taken vol_alloc hk h0 ?_ fun i hi => ?_
  · rw [fat_alloc hne, if_pos rfl]
    decide
  · rw [fat_alloc hne, if_neg hi]
    split
    · next h =>
        rw [h.2]
        have := hp0 h.1
        have hk0 : k ≠ 0 := by omega
        simp [this, hk0]
    · rfl

/-- The clusters of a chain are free again. -/
theorem freeCount_freeChain {xs : List Nat} (hnd : xs.Nodup) (hr : ∀ x ∈ xs, w.vol.InRange x)
    (hnz : ∀ x ∈ xs, w.fat x ≠ 0) : (w.freeChain xs).freeCount = w.freeCount + xs.length := by
  induction xs with
  | nil => exact freeCount_congr rfl (by simp)
  | cons x xs ih =>
      obtain ⟨hx, hnd'⟩ := List.nodup_cons.mp hnd
      have htaken : (w.freeChain xs).freeCount + 1 = (w.freeChain (x :: xs)).freeCount := by
        refine freeCount_taken rfl (hr x List.mem_cons_self) ?_ ?_ fun i hi => ?_
        · exact if_pos List.mem_cons_self
        · change ite _ _ _ ≠ _
          rw [if_neg hx]
          exact hnz x List.mem_cons_self
        · change ite _ _ _ = _ ↔ ite _ _ _ = _
          simp only [List.mem_cons, or_iff_right hi]
      have := ih hnd' (fun y hy => hr y (List.mem_cons_of_mem x hy))
        fun y hy => hnz y (List.mem_cons_of_mem x hy)
      rw [List.length_cons]
      omega

end View

/-- What the calls keep: the volume and the driver's variables, and no cluster
goes bad. -/
structure View.Evolves (w w' : View) : Prop where
  vol : w'.vol = w.vol
  mounted : w'.mounted = w.mounted
  readonly : w'.readonly = w.readonly
  heapPtr : w'.heapPtr = w.heapPtr
  bad : ∀ k, w'.fat k = 0x0FFFFFF7 → w.fat k = 0x0FFFFFF7

namespace View.Evolves

variable {w w' w'' : View} {k : Nat}

theorem refl : w.Evolves w := ⟨rfl, rfl, rfl, rfl, fun _ h => h⟩

theorem trans (h : w.Evolves w') (h' : w'.Evolves w'') : w.Evolves w'' :=
  ⟨h'.vol.trans h.vol, h'.mounted.trans h.mounted, h'.readonly.trans h.readonly,
    h'.heapPtr.trans h.heapPtr, fun k hk => h.bad k (h'.bad k hk)⟩

theorem setFd {fd : Nat} {f : Fd} : w.Evolves (w.setFd fd f) :=
  ⟨rfl, rfl, rfl, rfl, fun _ h => h⟩

theorem setSec {j : Nat} {b : Sector} : w.Evolves (w.setSec k j b) :=
  ⟨rfl, rfl, rfl, rfl, fun _ h => h⟩

theorem freeChain {xs : List Nat} : w.Evolves (w.freeChain xs) := by
  refine ⟨rfl, rfl, rfl, rfl, fun i hi => ?_⟩
  rw [View.fat_freeChain] at hi
  by_cases hm : i ∈ xs
  · simp [hm] at hi
  · simpa [hm] using hi

theorem alloc {prev n : Nat} (hs : w.vol.Sound n) (hk : w.vol.InRange k) (hne : prev ≠ k) :
    w.Evolves (w.alloc prev k) := by
  refine ⟨View.vol_alloc, ?_, ?_, ?_, fun i hi => ?_⟩
  · unfold View.alloc
    split <;> rfl
  · unfold View.alloc
    split <;> rfl
  · unfold View.alloc
    split <;> rfl
  · have htot := hs.total_le
    have hlt := hk.2
    rw [View.fat_alloc hne] at hi
    split at hi
    · omega
    · split at hi
      · omega
      · exact hi

end View.Evolves

namespace Store.Shows

variable {c : Store} {w : View} {k j x : Nat}

theorem vol (h : c.Shows w) : c.vol = w.vol := congrArg View.vol h.view
theorem mounted (h : c.Shows w) : c.volMounted = w.mounted := congrArg View.mounted h.view
theorem readonly (h : c.Shows w) : c.volReadonly = w.readonly := congrArg View.readonly h.view
theorem fds (h : c.Shows w) : c.fds = w.fds := congrArg View.fds h.view
theorem heapPtr (h : c.Shows w) : c.heapPtr = w.heapPtr := congrArg View.heapPtr h.view

theorem fat (h : c.Shows w) (hk : w.vol.InRange k) : c.fat k = w.fat k := by
  rw [← h.view]
  exact (if_pos (h.vol ▸ hk)).symm

theorem sec (h : c.Shows w) (hk : w.vol.InRange k) (hj : j < w.vol.secPerClus) :
    c.sec k j = w.sec k j := by
  rw [← h.view]
  exact (if_pos (h.vol ▸ ⟨hk, hj⟩)).symm

/-- A change of the disk that keeps the variables. -/
theorem of_sameVars {c' : Store} {fat' : Nat → Nat} {sec' : Nat → Nat → Sector}
    (h : c.Shows w) (hv : SameVars c c') (hm : c'.Mirrored)
    (hfat : ∀ i, w.vol.InRange i → c'.fat i = fat' i)
    (hfat0 : ∀ i, ¬ w.vol.InRange i → fat' i = 0)
    (hsec : ∀ i l, w.vol.InRange i → l < w.vol.secPerClus → c'.sec i l = sec' i l)
    (hsec0 : ∀ i l, ¬ (w.vol.InRange i ∧ l < w.vol.secPerClus) →
      sec' i l = Block.zero 512) : c'.Shows { w with fat := fat', sec := sec' } := by
  refine ⟨?_, by rw [hv.vol, hv.sectors]; exact h.sound, hm⟩
  cases h.view
  simp only [Store.view, View.mk.injEq]
  refine ⟨hv.vol, ?_, ?_, hv.mounted, hv.readonly, hv.fds, hv.heapPtr⟩
  · funext i
    by_cases hi : c.vol.InRange i
    · rw [if_pos (hv.vol ▸ hi)]
      exact hfat i hi
    · rw [if_neg (hv.vol ▸ hi)]
      exact (hfat0 i hi).symm
  · funext i l
    by_cases hi : c.vol.InRange i ∧ l < c.vol.secPerClus
    · rw [if_pos (hv.vol ▸ hi)]
      exact hsec i l hi.1 hi.2
    · rw [if_neg (hv.vol ▸ hi)]
      exact (hsec0 i l hi).symm

theorem fat_eq_zero (h : c.Shows w) {i : Nat} (hi : ¬ w.vol.InRange i) : w.fat i = 0 := by
  rw [← h.view]
  exact if_neg (h.vol ▸ hi)

theorem sec_eq_zero (h : c.Shows w) {i l : Nat}
    (hi : ¬ (w.vol.InRange i ∧ l < w.vol.secPerClus)) : w.sec i l = Block.zero 512 := by
  rw [← h.view]
  exact if_neg (h.vol ▸ hi)

theorem congr {w' : View} (h : c.Shows w) (hw : w = w') : c.Shows w' := hw ▸ h

theorem setFat (h : c.Shows w) (hk : w.vol.InRange k) (hx : x < 268435456) :
    (c.setFat k x).Shows (w.setFat k x) := by
  have hkc : c.vol.InRange k := h.vol ▸ hk
  refine h.of_sameVars sameVars_setFat (mirrored_setFat h.sound hkc h.mirrored) ?_ ?_ ?_ ?_
  · intro i hi
    rw [fat_setFat h.sound hkc (h.vol ▸ hi) hx, Function.update_apply, h.fat hi]
  · intro i hi
    rw [Function.update_of_ne (by rintro rfl; exact hi hk)]
    exact h.fat_eq_zero hi
  · intro i l hi hl
    rw [sec_setFat h.sound hkc, h.sec hi hl]
  · exact fun i l hi => h.sec_eq_zero hi

theorem setSec (h : c.Shows w) (hk : w.vol.InRange k) (hj : j < w.vol.secPerClus)
    (b : Sector) : (c.setSec k j b).Shows (w.setSec k j b) := by
  have hge : c.vol.dataLba ≤ c.vol.secLba k j := by
    unfold Vol.secLba
    omega
  refine h.of_sameVars (sameVars_put _ _) (mirrored_put_data h.sound hge h.mirrored)
    ?_ ?_ ?_ ?_
  · intro i hi
    exact (fat_put_data h.sound hge (h.vol ▸ hi)).trans (h.fat hi)
  · exact fun i hi => h.fat_eq_zero hi
  · intro i l hi hl
    rw [Store.setSec, Store.sec, vol_put, disk_put]
    by_cases heq : c.vol.secLba i l = c.vol.secLba k j
    · rw [h.vol] at heq
      obtain ⟨rfl, rfl⟩ := Vol.Sound.secLba_inj hi hk hl hj heq
      rw [if_pos rfl, Function.update_self, Function.update_self]
    · rw [if_neg heq, ← Store.sec, h.sec hi hl, Function.update_apply]
      split
      · next hik =>
          subst hik
          rw [Function.update_of_ne]
          rintro rfl
          exact heq rfl
      · rfl
  · intro i l hi
    rw [Function.update_apply]
    split
    · next hik =>
        subst hik
        rw [Function.update_of_ne (by rintro rfl; exact hi ⟨hk, hj⟩)]
        exact h.sec_eq_zero hi
    · exact h.sec_eq_zero hi

/-- Zeroing the first `n` sectors of a cluster. -/
theorem zeroSome (h : c.Shows w) (hk : w.vol.InRange k) {n s : Nat}
    (hn : s + n ≤ w.vol.secPerClus) : (c.zeroFrom (c.vol.secLba k 0) n s).Shows
      { w with sec := Function.update w.sec k fun l =>
          if s ≤ l ∧ l < s + n then Block.zero 512 else w.sec k l } := by
  induction n generalizing c w s with
  | zero =>
      have hsame : (fun l => if s ≤ l ∧ l < s + 0 then Block.zero 512 else w.sec k l) =
          w.sec k := by
        funext l
        rw [if_neg (by omega)]
      rw [hsame, Function.update_eq_self]
      exact h
  | succ n ih =>
      have hput := h.setSec hk (j := s) (by omega) (Block.zero 512)
      have hrest := ih hput hk (s := s + 1) (by rw [View.vol_setSec]; omega)
      have hlba : c.vol.secLba k 0 + s = c.vol.secLba k s := by
        unfold Vol.secLba
        omega
      have hvol : (c.setSec k s (Block.zero 512)).vol = c.vol := rfl
      rw [hvol] at hrest
      rw [zeroFrom, hlba]
      refine hrest.congr ?_
      unfold View.setSec
      congr 1
      funext i
      simp only [Function.update_apply]
      by_cases hi : i = k
      · simp only [hi, if_true]
        funext l
        simp only [Function.update_apply]
        by_cases hl : l = s
        · rw [if_neg (by omega), if_pos hl, if_pos (by omega)]
        · by_cases hin : s + 1 ≤ l ∧ l < s + 1 + n
          · rw [if_pos hin, if_pos (by omega)]
          · rw [if_neg hin, if_neg hl, if_neg (by omega)]
      · simp only [hi, if_false]

theorem zeroCluster (h : c.Shows w) (hk : w.vol.InRange k) :
    (c.zeroFrom (c.vol.secLba k 0) c.vol.secPerClus 0).Shows (w.zeroCluster k) := by
  have hspc : c.vol.secPerClus = w.vol.secPerClus := by rw [h.vol]
  rw [hspc]
  refine (h.zeroSome hk (n := w.vol.secPerClus) (s := 0) (by omega)).congr ?_
  unfold View.zeroCluster
  congr 2
  funext l
  by_cases hl : l < w.vol.secPerClus
  · rw [if_pos (by omega)]
  · rw [if_neg (by omega), h.sec_eq_zero (by omega)]

/-- Allocating a cluster. -/
theorem alloc (h : c.Shows w) (hk : w.vol.InRange k) {prev : Nat}
    (hprev : prev = 0 ∨ w.vol.InRange prev) : (c.alloc prev k).Shows (w.alloc prev k) := by
  have htot : w.vol.totalClusters + 2 ≤ 0x0FFFFFF7 := h.vol ▸ h.sound.total_le
  have hset := h.setFat hk (x := 0x0FFFFFFF) (by omega)
  unfold Store.alloc Store.hook View.alloc
  by_cases hp : prev = 0
  · simp only [hp, if_true]
    have hzero := hset.zeroCluster (k := k) hk
    rwa [sameVars_setFat.vol] at hzero
  · simp only [hp, if_false]
    have hlink := hset.setFat (k := prev) (x := k) (hprev.resolve_left hp)
      (by have := hk.2; omega)
    have hzero := hlink.zeroCluster (k := k) hk
    rwa [sameVars_setFat.vol, sameVars_setFat.vol] at hzero

theorem setFd (h : c.Shows w) (fd : Nat) (f : Fd) : (c.setFd fd f).Shows (w.setFd fd f) := by
  cases h.view
  exact ⟨rfl, h.sound, h.mirrored⟩

end Store.Shows

variable {α β γ : Type}

/-- Run `x` on any disk that shows `w`. -/
def Holds (x : Prog Drv α) (Q : α → View → Prop) (w : View) : Prop :=
  ∀ c : Store, c.Shows w → On x (fun a c' => ∃ w', c'.Shows w' ∧ Q a w') c

/-- As `Holds`, with sector `j` of cluster `k` in the cache. -/
def HoldsAt (k j : Nat) (x : Prog Drv α) (Q : α → View → Prop) (w : View) : Prop :=
  ∀ c : Store, c.Shows w →
    OnAt (c.vol.secLba k j) x (fun a c' => ∃ w', c'.Shows w' ∧ Q a w') c

section Rules

variable {Q : α → View → Prop} {R : β → View → Prop} {w : View} {k j x : Nat}

/-- From the view back to the driver. -/
theorem Holds.wp {x : Prog Drv α} (h : Holds x Q w) {s : Drv} (hs : s.Ready)
    (hw : s.toStore.Shows w) :
    x.wp (fun a s' => s'.Ready ∧ ∃ w', s'.toStore.Shows w' ∧ Q a w') s :=
  h s.toStore hw s hs rfl

/-- A property of the outcome that has the same truth in every outcome shown. -/
theorem Holds.wp_iff {x : Prog Drv α} {P : α → Drv → Prop} {q : Prop} {s : Drv}
    (h : Holds x (fun a w' => ∀ s' : Drv, s'.Ready → s'.toStore.Shows w' → (P a s' ↔ q)) w)
    (hs : s.Ready) (hw : s.toStore.Shows w) : x.wp P s ↔ q := by
  obtain ⟨a, s', hr, hs', w', hw', hiff⟩ := h.wp hs hw
  rw [hr.wp_iff]
  exact hiff s' hs' hw'

theorem Holds.pure {a : α} (h : Q a w) : Holds (pure a) Q w :=
  fun _ hc => On.pure ⟨w, hc, h⟩

theorem Holds.bind {x : Prog Drv α} {f : α → Prog Drv β}
    (h : Holds x (fun a w' => Holds (f a) R w') w) : Holds (x >>= f) R w := by
  intro c hc
  apply On.bind
  refine (h c hc).mono ?_
  rintro a c' ⟨w', hc', hf⟩
  exact hf c' hc'

theorem Holds.mono {x : Prog Drv α} {Q' : α → View → Prop} (h : Holds x Q w)
    (hq : ∀ a w', Q a w' → Q' a w') : Holds x Q' w := by
  intro c hc
  refine (h c hc).mono ?_
  rintro a c' ⟨w', hc', hf⟩
  exact ⟨w', hc', hq a w' hf⟩

/-- Run a program whose effect is known, then the rest. -/
theorem Holds.seq {x : Prog Drv α} {f : α → Prog Drv β} (h : Holds x Q w)
    (hf : ∀ a w', Q a w' → Holds (f a) R w') : Holds (x >>= f) R w :=
  Holds.bind (h.mono hf)

theorem Holds.getStore {f : Store → Prog Drv β}
    (h : ∀ c, c.Shows w → Holds (f c) R w) : Holds (getStore >>= f) R w :=
  fun c hc => On.getStore (h c hc c hc)

theorem Holds.putFd {fd : Nat} {d : Fd} {f : Unit → Prog Drv β}
    (h : Holds (f ()) R (w.setFd fd d)) : Holds (putFd fd d >>= f) R w :=
  fun c hc => On.putFd (h (c.setFd fd d) (hc.setFd fd d))

/-- The geometry of a view that a disk shows is sound. -/
theorem Holds.of_sound {x : Prog Drv α} (h : ∀ n, w.vol.Sound n → Holds x Q w) :
    Holds x Q w :=
  fun c hc => h c.sectors (hc.vol ▸ hc.sound) c hc

/-- One round of a loop. -/
theorem Holds.loop {body : β → Prog Drv (β ⊕ α)} {b : β}
    (h : Holds (body b) (fun d w' => match d with
      | .inl b' => Holds (loop body b') Q w'
      | .inr a => Q a w') w) : Holds (loop body b) Q w := by
  intro c hc
  apply On.loop
  refine (h c hc).mono ?_
  rintro (b' | a) c' ⟨w', hc', hd⟩
  · exact hd c' hc'
  · exact ⟨w', hc', hd⟩

theorem Holds.loop_of_measure {body : β → Prog Drv (β ⊕ α)} (inv : β → View → Prop)
    (measure : β → View → Nat)
    (hstep : ∀ b w, inv b w → Holds (body b) (fun d w' => match d with
      | .inl b' => inv b' w' ∧ measure b' w' < measure b w
      | .inr a => Q a w') w)
    {b : β} (hinv : inv b w) : Holds (Prog.loop body b) Q w := by
  induction hm : measure b w using Nat.strong_induction_on generalizing b w with
  | h m ih =>
      apply Holds.loop
      refine (hstep b w hinv).mono ?_
      rintro (b' | a) w' hd
      · exact ih _ (hm ▸ hd.2) hd.1 rfl
      · exact hd

theorem HoldsAt.of_holds {x : Prog Drv α} (h : Holds x Q w) : HoldsAt k j x Q w :=
  fun c hc => OnAt.of_on (h c hc)

theorem Holds.fatGet (hk : w.vol.InRange k) {f : Nat → Prog Drv β}
    (h : Holds (f (w.fat k)) R w) : Holds (fatGet k >>= f) R w := by
  intro c hc
  apply On.fatGet hc.sound (hc.vol ▸ hk)
  rw [hc.fat hk]
  exact h c hc

/-- `fat_alloc` answers the smallest free cluster, or 0 when there is none. -/
theorem Holds.fatAlloc {prev : Nat} (hprev : prev = 0 ∨ w.vol.InRange prev)
    {f : Nat → Prog Drv β}
    (hfull : (∀ k, w.vol.InRange k → w.fat k ≠ 0) → Holds (f 0) R w)
    (hfree : ∀ k, w.vol.InRange k → w.fat k = 0 → (∀ l, 2 ≤ l → l < k → w.fat l ≠ 0) →
      Holds (f k) R (w.alloc prev k)) : Holds (fatAlloc prev >>= f) R w := by
  intro c hc
  have hent : prev = 0 ∨ c.vol.HasEntry prev :=
    hprev.imp_right fun hp => hc.sound.hasEntry (hc.vol ▸ hp)
  apply On.fatAlloc hc.sound hent
  · intro hall
    refine hfull (fun k hk => ?_) c hc
    rw [← hc.fat hk]
    exact hall k (hc.vol ▸ hk)
  · rintro k ⟨hk, h0, hfirst⟩
    rw [hc.vol] at hk
    refine hfree k hk ((hc.fat hk).symm.trans h0) (fun l hl hlt => ?_) _ (hc.alloc hk hprev)
    have hr : w.vol.InRange l := ⟨hl, lt_trans hlt hk.2⟩
    rw [← hc.fat hr]
    exact hfirst l (hc.vol ▸ hr) hlt

theorem Holds.secRead {lba : Nat} (hlba : lba = w.vol.secLba k j) (hk : w.vol.InRange k)
    (hj : j < w.vol.secPerClus) {f : Bool → Prog Drv β} (h : HoldsAt k j (f true) R w) :
    Holds (secRead lba >>= f) R w := by
  intro c hc
  have hkc : c.vol.InRange k := hc.vol ▸ hk
  rw [hlba, ← hc.vol]
  apply On.secRead (hc.sound.secLba_lt hkc (hc.vol ▸ hj))
  exact h c hc

theorem HoldsAt.cached (hk : w.vol.InRange k) (hj : j < w.vol.secPerClus)
    {f : Sector → Prog Drv β} (h : HoldsAt k j (f (w.sec k j)) R w) :
    HoldsAt k j (cached >>= f) R w := by
  intro c hc
  apply OnAt.cached (hc.sound.secLba_lt (hc.vol ▸ hk) (hc.vol ▸ hj))
  rw [← Store.sec, hc.sec hk hj]
  exact h c hc

theorem HoldsAt.update_flush (hk : w.vol.InRange k) (hj : j < w.vol.secPerClus)
    {g : Sector → Sector} {f : Bool → Prog Drv β}
    (h : Holds (f true) R (w.setSec k j (g (w.sec k j)))) :
    HoldsAt k j (secUpdate g >>= fun _ => secFlush >>= f) R w := by
  intro c hc
  apply OnAt.update_flush (hc.sound.secLba_lt (hc.vol ▸ hk) (hc.vol ▸ hj))
  rw [← Store.sec, hc.sec hk hj]
  exact h _ (hc.setSec hk hj _)

/-- The heap grants `n` bytes, or the pointer would pass its end. -/
theorem Holds.kmalloc_heap {n : Nat} {g : Bool → Prog Drv β}
    (hno : 2097152 < u32 (w.heapPtr + u32 (n + 3) / 4 * 4) → Holds (g false) R w)
    (hyes : u32 (w.heapPtr + u32 (n + 3) / 4 * 4) ≤ 2097152 →
      Holds (g true) R { w with heapPtr := u32 (w.heapPtr + u32 (n + 3) / 4 * 4) }) :
    Holds (Fat32.kmalloc n >>= g) R w := by
  rw [Fat32.kmalloc, bind_assoc]
  apply Holds.getStore
  intro c hc
  simp only
  rw [hc.heapPtr]
  split
  · next hlt =>
    rw [pure_bind]
    exact hno hlt
  · next hle =>
    rw [bind_assoc]
    intro c' hc'
    refine On.modifyStore rfl rfl ?_
    rw [pure_bind]
    refine hyes (by omega) _ ⟨?_, hc'.sound, hc'.mirrored⟩
    cases hc'.view
    rfl

/-- `kmalloc` changes the heap pointer only. -/
theorem Holds.kmalloc {n : Nat} {g : Bool → Prog Drv β}
    (hg : ∀ b w', w'.vol = w.vol → w'.fat = w.fat → w'.sec = w.sec → Holds (g b) R w') :
    Holds (Fat32.kmalloc n >>= g) R w :=
  Holds.kmalloc_heap (fun _ => hg false w rfl rfl rfl) fun _ => hg true _ rfl rfl rfl

end Rules

end Chimaera.Fat32
