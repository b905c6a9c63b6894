/-
Positions in a directory: the number of a slot, its place on the disk, and how
the iterators get from one slot to the next.
-/
import Chimaera.Fat32.Geometry
import Chimaera.Links
import Mathlib.Data.List.GetD

namespace Chimaera.Fat32

open Prog

def Vol.perCluster (v : Vol) : Nat := 16 * v.secPerClus

section Index

variable {s i : Nat}

theorem index_succ (h : i % (16 * s) + 1 < 16 * s) :
    (i + 1) / (16 * s) = i / (16 * s) ∧ (i + 1) % (16 * s) = i % (16 * s) + 1 := by
  have hi : i + 1 = 16 * s * (i / (16 * s)) + (i % (16 * s) + 1) := by
    have := Nat.div_add_mod i (16 * s)
    omega
  rw [hi, Nat.mul_add_div (by omega), Nat.mul_add_mod, Nat.div_eq_of_lt h, Nat.mod_eq_of_lt h]
  omega

theorem index_wrap (h : i % (16 * s) + 1 = 16 * s) :
    (i + 1) / (16 * s) = i / (16 * s) + 1 ∧ (i + 1) % (16 * s) = 0 := by
  have hi : i + 1 = 16 * s * (i / (16 * s) + 1) + 0 := by
    have := Nat.div_add_mod i (16 * s)
    rw [Nat.mul_add]
    omega
  rw [hi, Nat.mul_add_div (by omega), Nat.mul_add_mod]
  simp

theorem index_mod16 : i % (16 * s) % 16 = i % 16 := Nat.mod_mul_right_mod i 16 s

theorem index_lt (hs : 1 ≤ s) : i % (16 * s) / 16 < s := by
  have := Nat.mod_lt i (show 0 < 16 * s by omega)
  omega

/-- A slot is told by its cluster, sector and place in the sector. -/
theorem index_ext {j : Nat} (hq : i / (16 * s) = j / (16 * s))
    (hd : i % (16 * s) / 16 = j % (16 * s) / 16) (hm : i % 16 = j % 16) : i = j := by
  have h₁ := Nat.div_add_mod i (16 * s)
  have h₂ := Nat.div_add_mod j (16 * s)
  have h₃ := index_mod16 (s := s) (i := i)
  have h₄ := index_mod16 (s := s) (i := j)
  rw [hq] at h₁
  omega

end Index

theorem perCluster_pos {v : Vol} {n : Nat} (h : v.Sound n) : 0 < v.perCluster := by
  have := h.spc_pos
  unfold Vol.perCluster
  omega

/-- The position of slot `i` of the directory with the clusters `xs`; `e`
shifts the running number that the driver keeps beside it. -/
def posAt (v : Vol) (e : Nat) (xs : List Nat) (i : Nat) : DirPos :=
  ⟨xs.getD (i / v.perCluster) 0, u32 (e + i),
    v.secLba (xs.getD (i / v.perCluster) 0) (i % v.perCluster / 16), i % 16 * 32⟩

/-- The sector and offset of slot `i` of the directory with the clusters `xs`. -/
def slotPlace (v : Vol) (xs : List Nat) (i : Nat) : Nat × Nat :=
  ((posAt v 0 xs i).lba, (posAt v 0 xs i).off)

/-- The raw entry in slot `i`. -/
def Store.slot (c : Store) (xs : List Nat) (i : Nat) : DirEntry :=
  (c.disk (slotPlace c.vol xs i).1).slice (slotPlace c.vol xs i).2 32

/-- The slots of the clusters `xs`, in order. -/
def Store.slots (c : Store) (xs : List Nat) : List DirEntry :=
  (List.range (xs.length * c.vol.perCluster)).map (c.slot xs)

namespace Store

/-- The chain of clusters that starts at `a`, in the first FAT. -/
def Chain (c : Store) (a : Nat) (xs : List Nat) : Prop :=
  Links.Chain c.fat c.vol.InRange (fun x => 0x0FFFFFF8 ≤ x) a xs

variable {c : Store} {a i : Nat} {xs : List Nat}

theorem length_slots : (c.slots xs).length = xs.length * c.vol.perCluster := by
  simp [slots]

theorem getElem_slots (h : i < (c.slots xs).length) : (c.slots xs)[i] = c.slot xs i := by
  simp [slots]

theorem Chain.inRange (h : c.Chain a xs) {k : Nat} (hk : k ∈ xs) : c.vol.InRange k :=
  Links.Chain.mem_ok h k hk

theorem Chain.fat_getD (h : c.Chain a xs) (hi : i + 1 < xs.length) :
    c.fat (xs.getD i 0) = xs.getD (i + 1) 0 := by
  rw [List.getD_eq_getElem _ _ hi, List.getD_eq_getElem _ _ (Nat.lt_of_succ_lt hi)]
  exact Links.Path.next_getElem h.choose_spec.2 hi

theorem Chain.nodup (h : c.Chain a xs) (hs : c.vol.Sound c.sectors) : xs.Nodup :=
  Links.Chain.nodup (fun _ hk => hs.not_eoc hk) h

def mark (c : Store) (p : Nat × Nat) : Store :=
  c.put p.1 ((c.disk p.1).patch p.2 [0xE5])

/-- Mark the `n` slots from slot `i` on. -/
def marks (c : Store) (xs : List Nat) : Nat → Nat → Store
  | _, 0 => c
  | i, n + 1 => (c.mark (slotPlace c.vol xs i)).marks xs (i + 1) n

/-- Clear the FAT entries of the clusters `xs`. -/
def freeChain : Store → List Nat → Store
  | c, [] => c
  | c, k :: ks => (c.setFat k 0).freeChain ks

theorem sameVars_mark {p : Nat × Nat} : SameVars c (c.mark p) := sameVars_put _ _

theorem sameVars_freeChain : SameVars c (c.freeChain xs) := by
  induction xs generalizing c with
  | nil => exact SameVars.refl c
  | cons k ks ih => exact sameVars_setFat.trans ih

/-- Entries off a chain do not matter to it. -/
theorem Chain.setFat {k x : Nat} (h : c.Chain a xs) (hs : c.vol.Sound c.sectors)
    (hk : c.vol.InRange k) (hx : x < 268435456) (hno : k ∉ xs) : (c.setFat k x).Chain a xs := by
  unfold Chain
  rw [sameVars_setFat.vol]
  refine Links.Chain.congr h fun y hy => ?_
  rw [fat_setFat hs hk (h.inRange hy) hx, if_neg]
  rintro rfl
  exact hno hy

/-- Marking an entry outside the FATs, or one that is marked, changes no chain. -/
theorem Chain.mark {p : Nat × Nat} (h : c.Chain a xs) (hs : c.vol.Sound c.sectors)
    (hp : c.vol.dataLba ≤ p.1 ∨ byteAt c.disk p = 0xE5) : (c.mark p).Chain a xs := by
  refine Links.Chain.congr h fun k hk => ?_
  have hk' := h.inRange hk
  rcases hp with hdata | hmarked
  · exact fat_put_data hs hdata hk'
  · have hsame : (c.disk p.1).patch p.2 [0xE5] = c.disk p.1 := by
      refine Block.ext_byte fun o ho => ?_
      rw [Block.byte_patch _ _ _ ho]
      split
      · next hin =>
        obtain rfl : p.2 = o := by
          rw [List.length_singleton] at hin
          omega
        rw [Nat.sub_self]
        exact hmarked.symm
      · rfl
    rw [fat, fat, Store.mark, vol_put, hsame, disk_put]
    split
    · next heq => rw [heq]
    · rfl

end Store

theorem getD_eq_getLastD {xs : List Nat} {i : Nat} (hlen : xs.length = i + 1) :
    xs.getD i 0 = xs.getLastD 0 := by
  have hi : i < xs.length := by omega
  rw [List.getD_eq_getElem _ _ hi, List.getLastD_eq_getLast?, List.getLast?_eq_getElem?, hlen,
    Nat.add_sub_cancel, List.getElem?_eq_getElem hi, Option.getD_some]

theorem eq_append_getLastD {α : Type} {xs : List α} (h : xs ≠ []) (d : α) :
    xs = xs.dropLast ++ [xs.getLastD d] := by
  rw [List.getLastD_eq_getLast?, List.getLast?_eq_some_getLast h, Option.getD_some,
    List.dropLast_append_getLast h]

theorem Store.Chain.fat_last {c : Store} {a : Nat} {xs : List Nat} (h : c.Chain a xs)
    (hne : xs ≠ []) : 0x0FFFFFF8 ≤ c.fat (xs.getLastD 0) := by
  have hsplit : c.Chain a (xs.dropLast ++ [xs.getLastD 0]) := by
    rw [← eq_append_getLastD hne 0]
    exact h
  exact Links.Chain.fin_next_last hsplit

/-- The clusters of a directory that hold its slots. -/
theorem div_lt_length {n i : Nat} {xs : List Nat} (hi : i < xs.length * n) : i / n < xs.length :=
  Nat.div_lt_of_lt_mul (by rw [Nat.mul_comm]; exact hi)

theorem getD_mem {n i : Nat} {xs : List Nat} (hi : i < xs.length * n) : xs.getD (i / n) 0 ∈ xs := by
  rw [List.getD_eq_getElem _ _ (div_lt_length hi)]
  exact List.getElem_mem _

/-- The last slot is in the last cluster. -/
theorem getD_last {n i : Nat} {xs : List Nat} (hi : i + 1 = xs.length * n) :
    xs.getD (i / n) 0 = xs.getLastD 0 := by
  have hlt : i / n < xs.length := div_lt_length (by omega)
  have hn : 0 < n := Nat.pos_of_ne_zero (by rintro rfl; omega)
  have hdm := Nat.div_add_mod i n
  have hmod := Nat.mod_lt i hn
  have hle : xs.length * n ≤ (i / n + 1) * n := by
    rw [Nat.succ_mul, Nat.mul_comm (i / n)]
    omega
  have := Nat.le_of_mul_le_mul_right hle hn
  exact getD_eq_getLastD (by omega)

theorem slotPlace_off_lt (v : Vol) (xs : List Nat) (i : Nat) : (slotPlace v xs i).2 + 32 ≤ 512 := by
  simp only [slotPlace, posAt]
  omega

theorem overwritten_mark {c : Store} {p : Nat × Nat} (hp : p.2 + 32 ≤ 512) :
    Overwritten 0xE5 {p} c.disk (c.mark p).disk := by
  have h := overwritten_update (d := c.disk) (l := p.1) (x := 0xE5) (k := 1)
    (show p.2 + 1 ≤ 512 by omega)
  have hset : {q : Nat × Nat | q.1 = p.1 ∧ p.2 ≤ q.2 ∧ q.2 < p.2 + 1} = {p} := by
    ext q
    simp only [Set.mem_ofPred_eq, Set.mem_singleton_iff, Prod.ext_iff]
    omega
  rwa [hset] at h

theorem dataLba_le_slotPlace (v : Vol) (xs : List Nat) (i : Nat) :
    v.dataLba ≤ (slotPlace v xs i).1 := by
  simp only [slotPlace, posAt, Vol.secLba]
  omega

theorem Store.Chain.slotPlace_lt {c : Store} {a i : Nat} {xs : List Nat} (h : c.Chain a xs)
    (hs : c.vol.Sound c.sectors) (hi : i < xs.length * c.vol.perCluster) :
    (slotPlace c.vol xs i).1 < c.sectors :=
  hs.secLba_lt (h.inRange (getD_mem hi)) (index_lt hs.spc_pos)

theorem posAt_inj {v : Vol} {n e i j : Nat} {xs : List Nat} (hs : v.Sound n) (hnd : xs.Nodup)
    (hr : ∀ x ∈ xs, v.InRange x) (hi : i < xs.length * v.perCluster)
    (hj : j < xs.length * v.perCluster) (hlba : (posAt v e xs i).lba = (posAt v e xs j).lba)
    (hoff : (posAt v e xs i).off = (posAt v e xs j).off) : i = j := by
  have hqi := div_lt_length hi
  have hqj := div_lt_length hj
  simp only [posAt] at hlba hoff
  rw [List.getD_eq_getElem _ _ hqi, List.getD_eq_getElem _ _ hqj] at hlba
  obtain ⟨hk, hd⟩ := Vol.Sound.secLba_inj (hr _ (List.getElem_mem hqi))
    (hr _ (List.getElem_mem hqj)) (index_lt hs.spc_pos) (index_lt hs.spc_pos) hlba
  exact index_ext ((hnd.getElem_inj_iff).mp hk) hd (by omega)

section Next

variable {v : Vol} {e i n k j : Nat} {xs : List Nat}

/-- The next slot of the same sector. -/
theorem posAt_succ_off (hspc : 1 ≤ v.secPerClus) (h : i % 16 * 32 + 32 < 512) :
    posAt v e xs (i + 1) = ⟨(posAt v e xs i).cluster, u32 (e + (i + 1)), (posAt v e xs i).lba,
      i % 16 * 32 + 32⟩ := by
  have hlt := Nat.mod_lt i (show 0 < 16 * v.secPerClus by omega)
  have h16 : i % (16 * v.secPerClus) % 16 = i % 16 := index_mod16
  obtain ⟨hd, hm⟩ := index_succ (show i % (16 * v.secPerClus) + 1 < 16 * v.secPerClus by omega)
  have hsec : (i + 1) % (16 * v.secPerClus) / 16 = i % (16 * v.secPerClus) / 16 := by omega
  have hoff : (i + 1) % 16 * 32 = i % 16 * 32 + 32 := by omega
  unfold posAt Vol.perCluster
  rw [hd, hsec, hoff]

/-- The first slot of the next sector. -/
theorem posAt_succ_lba (hmore : i % v.perCluster + 1 < v.perCluster)
    (h : ¬ i % 16 * 32 + 32 < 512) : posAt v e xs (i + 1) =
      ⟨(posAt v e xs i).cluster, u32 (e + (i + 1)), (posAt v e xs i).lba + 1, 0⟩ := by
  unfold Vol.perCluster at hmore
  have h16 : i % (16 * v.secPerClus) % 16 = i % 16 := index_mod16
  obtain ⟨hd, hm⟩ := index_succ hmore
  have hsec : (i + 1) % (16 * v.secPerClus) / 16 = i % (16 * v.secPerClus) / 16 + 1 := by omega
  have hoff : (i + 1) % 16 * 32 = 0 := by omega
  unfold posAt Vol.perCluster
  rw [hd, hsec, hoff]
  rfl

/-- The first slot of the next cluster. -/
theorem posAt_succ_cluster (hwrap : i % v.perCluster + 1 = v.perCluster) :
    posAt v e xs (i + 1) = ⟨xs.getD (i / v.perCluster + 1) 0, u32 (e + (i + 1)),
      v.secLba (xs.getD (i / v.perCluster + 1) 0) 0, 0⟩ := by
  unfold Vol.perCluster at hwrap
  have h16 : i % (16 * v.secPerClus) % 16 = i % 16 := index_mod16
  obtain ⟨hd, hm⟩ := index_wrap hwrap
  have hoff : (i + 1) % 16 * 32 = 0 := by omega
  unfold posAt Vol.perCluster
  rw [hd, hm, hoff]

/-- The driver tells by the next sector's number how far it is in the cluster. -/
theorem Vol.Sound.succ_lba (hs : v.Sound n) (hk : v.InRange k) (hj : j < v.secPerClus) :
    u32 (v.secLba k j + 1) = v.secLba k j + 1 ∧
      sub32 (v.secLba k j + 1) (v.clusterToLba k) = j + 1 ∧
      v.secLba k j + 1 ≠ v.clusterToLba k := by
  have hlt := hs.secLba_lt hk hj
  have h28 := hs.lba28
  rw [hs.clusterToLba_eq hk]
  refine ⟨u32_of_lt (by omega), ?_, ?_⟩
  · rw [sub32_of_le (by unfold Vol.secLba; omega) (by omega)]
    unfold Vol.secLba
    omega
  · unfold Vol.secLba
    omega

end Next

section Rules

variable {β γ : Type} {R : β → Store → Prop} {c : Store} {a e i j m : Nat} {xs : List Nat}

/-- The step from slot `i`, in sector `l` of cluster `k`, to the next one, which
the driver and the checker both have: `A` is made of the next place, `B` of the
end of the chain. -/
theorem On.nextSlot (hs : c.vol.Sound c.sectors) (hch : c.Chain a xs)
    (hi : i < xs.length * c.vol.perCluster) {k l : Nat}
    (hkdef : k = xs.getD (i / c.vol.perCluster) 0)
    (hldef : l = c.vol.secLba k (i % c.vol.perCluster / 16)) {A : Nat → Nat → Nat → γ}
    {B : Nat → γ} {Q : γ → Store → Prop}
    (hnext : i + 1 < xs.length * c.vol.perCluster →
      Q (A (posAt c.vol 0 xs (i + 1)).cluster (posAt c.vol 0 xs (i + 1)).lba
        (posAt c.vol 0 xs (i + 1)).off) c)
    (hend : i + 1 = xs.length * c.vol.perCluster →
      Q (B (c.vol.secLba (xs.getLastD 0) c.vol.secPerClus)) c) :
    On (
      if i % 16 * 32 + 32 < 512 then Pure.pure (A k l (i % 16 * 32 + 32))
      else if sub32 (u32 (l + 1)) (c.vol.clusterToLba k) % c.vol.secPerClus = 0 ∧
          u32 (l + 1) ≠ c.vol.clusterToLba k then do
        let next ← Fat32.fatGet k
        if 0x0FFFFFF8 ≤ next ∨ next < 2 then Pure.pure (B (u32 (l + 1)))
        else Pure.pure (A next (c.vol.clusterToLba next) 0)
      else Pure.pure (A k (u32 (l + 1)) 0)) Q c := by
  subst hkdef hldef
  have hq := div_lt_length hi
  have hk := hch.inRange (getD_mem hi)
  have hj : i % c.vol.perCluster / 16 < c.vol.secPerClus := index_lt hs.spc_pos
  have hlt := Nat.mod_lt i (perCluster_pos hs)
  have h16 : i % c.vol.perCluster % 16 = i % 16 := index_mod16
  have hper : c.vol.perCluster = 16 * c.vol.secPerClus := rfl
  have hge := Nat.mul_le_mul_right c.vol.perCluster hq
  have hdm := Nat.div_add_mod i c.vol.perCluster
  rw [Nat.mul_comm] at hdm
  rw [Nat.succ_mul] at hge
  by_cases hoff : i % 16 * 32 + 32 < 512
  · rw [if_pos hoff]
    have hres := hnext (by omega)
    rw [posAt_succ_off hs.spc_pos hoff] at hres
    exact On.pure hres
  obtain ⟨hlba, hsub, hne⟩ := hs.succ_lba hk hj
  rw [if_neg hoff]
  simp only [hlba, hsub, ne_eq, hne, not_false_eq_true, and_true]
  by_cases hmore : i % c.vol.perCluster + 1 < c.vol.perCluster
  · have hdiv : i % c.vol.perCluster / 16 + 1 < c.vol.secPerClus := by omega
    rw [if_neg (by rw [Nat.mod_eq_of_lt hdiv]; omega)]
    have hres := hnext (by omega)
    rw [posAt_succ_lba hmore hoff] at hres
    exact On.pure hres
  have hwrap : i % c.vol.perCluster + 1 = c.vol.perCluster := by omega
  have hdiv : i % c.vol.perCluster / 16 + 1 = c.vol.secPerClus := by omega
  rw [if_pos (by rw [hdiv, Nat.mod_self])]
  apply On.fatGet hs hk
  by_cases hlast : i / c.vol.perCluster + 1 < xs.length
  · have htot := hs.total_le
    have hin' : c.vol.InRange (xs.getD (i / c.vol.perCluster + 1) 0) := by
      rw [List.getD_eq_getElem _ _ hlast]
      exact hch.inRange (List.getElem_mem _)
    rw [hch.fat_getD hlast, if_neg (by have := hin'.1; have := hin'.2; omega),
      hs.clusterToLba_eq hin']
    have hge' := Nat.mul_le_mul_right c.vol.perCluster hlast
    rw [Nat.succ_mul, Nat.succ_mul] at hge'
    have hres := hnext (by omega)
    rw [posAt_succ_cluster hwrap] at hres
    exact On.pure hres
  · have hlen : xs.length = i / c.vol.perCluster + 1 := by omega
    have hgl : xs.getD (i / c.vol.perCluster) 0 = xs.getLastD 0 := getD_eq_getLastD hlen
    have hfin := hch.fat_last (List.ne_nil_of_length_pos (by rw [hlen]; exact Nat.succ_pos _))
    have hbehind : c.vol.secLba (xs.getLastD 0) (i % c.vol.perCluster / 16) + 1 =
        c.vol.secLba (xs.getLastD 0) c.vol.secPerClus := by
      rw [← hdiv]
      rfl
    rw [hgl, if_pos (Or.inl hfin), hbehind]
    refine On.pure (hend ?_)
    rw [hlen, Nat.succ_mul]
    omega

/-- The next slot, or the end of the directory. -/
theorem On.dirNext (hs : c.vol.Sound c.sectors) (hch : c.Chain a xs)
    (hi : i < xs.length * c.vol.perCluster) {f : Bool × DirPos → Prog Drv β}
    (hnext : i + 1 < xs.length * c.vol.perCluster →
      On (f (true, posAt c.vol e xs (i + 1))) R c)
    (hend : i + 1 = xs.length * c.vol.perCluster → ∀ pos, pos.cluster = xs.getLastD 0 →
      On (f (false, pos)) R c) :
    On (dirNext (posAt c.vol e xs i) >>= f) R c := by
  have hidx : u32 (u32 (e + i) + 1) = u32 (e + (i + 1)) := by
    unfold u32
    omega
  apply On.bind
  rw [Fat32.dirNext]
  apply On.getStore
  refine On.nextSlot (γ := Bool × DirPos) hs hch hi rfl rfl
    (A := fun k l o => (true, ⟨k, u32 (u32 (e + i) + 1), l, o⟩))
    (B := fun l => (false, ⟨xs.getD (i / c.vol.perCluster) 0, u32 (u32 (e + i) + 1), l, 0⟩))
    (Q := fun r c' => On (f r) R c') (fun h => ?_) fun h => hend h _ (getD_last h)
  rw [hidx]
  exact hnext h

theorem On.dirReadEntry (hs : c.vol.Sound c.sectors) (hch : c.Chain a xs)
    (hi : i < xs.length * c.vol.perCluster) {f : Option DirEntry → Prog Drv β}
    (h : On (f (some (c.slot xs i))) R c) :
    On (dirReadEntry (posAt c.vol e xs i) >>= f) R c := by
  have hk := hch.inRange (getD_mem hi)
  have hlt : (posAt c.vol e xs i).lba < c.sectors := hs.secLba_lt hk (index_lt hs.spc_pos)
  rw [Fat32.dirReadEntry, bind_assoc]
  apply On.secRead hlt
  rw [if_pos rfl, bind_assoc]
  apply OnAt.cached hlt
  rw [pure_bind]
  exact OnAt.of_on h

/-- Every link of a chain is read before its entry is cleared. -/
theorem On.fatFreeChain (hs : c.vol.Sound c.sectors) (hch : c.Chain a xs)
    {f : Unit → Prog Drv β} (h : On (f ()) R (c.freeChain xs)) :
    On (fatFreeChain a >>= f) R c := by
  apply On.bind
  rw [Fat32.fatFreeChain]
  induction xs generalizing a c with
  | nil =>
      apply On.loop
      rw [if_neg (by have := Links.Chain.nil_iff.mp hch; omega)]
      exact On.pure h
  | cons k ks ih =>
      have hnd := List.nodup_cons.mp (hch.nodup hs)
      obtain ⟨rfl, hk, hrest⟩ := Links.Chain.cons_iff.mp hch
      have hlt := hs.not_eoc hk
      apply On.loop
      rw [if_pos ⟨hk.1, by omega⟩]
      apply On.fatGet hs hk
      apply On.fatSet hs (hs.hasEntry hk)
      rw [Nat.zero_mod]
      refine OnAt.of_on (On.pure (ih ?_ (Store.Chain.setFat hrest hs hk (by omega) hnd.1) h))
      rw [Store.sameVars_setFat.vol, Store.sameVars_setFat.sectors]
      exact hs

/-- A round of the deletion loop of `fat32_unlink`. -/
theorem On.unlinkStep (hs : c.vol.Sound c.sectors) (hch : c.Chain a xs) (hij : i ≤ j)
    (hj : j < xs.length * c.vol.perCluster) {Q : DirPos ⊕ Unit → Store → Prop}
    (hstop : i = j → Q (.inr ()) (c.mark (slotPlace c.vol xs i)))
    (hgo : i < j → Q (.inl (posAt c.vol 0 xs (i + 1))) (c.mark (slotPlace c.vol xs i))) :
    On (Fat32.unlinkStep (posAt c.vol 0 xs j) (posAt c.vol 0 xs i)) Q c := by
  have hi := lt_of_le_of_lt hij hj
  have hlt := hch.slotPlace_lt hs hi
  rw [Fat32.unlinkStep]
  apply On.secRead hlt
  rw [if_pos rfl]
  apply OnAt.update_flush hlt
  rcases Nat.eq_or_lt_of_le hij with rfl | hlt'
  · rw [if_pos ⟨rfl, rfl⟩]
    exact On.pure (hstop rfl)
  · rw [if_neg]
    · refine On.dirNext (c := c.mark (slotPlace c.vol xs i)) hs
        (hch.mark hs (Or.inl (dataLba_le_slotPlace _ _ _))) hi (fun _ => On.pure (hgo hlt'))
        fun hend => ?_
      change i + 1 = xs.length * c.vol.perCluster at hend
      omega
    · rintro ⟨hlba, hoff⟩
      have := posAt_inj hs (hch.nodup hs) (fun x hx => hch.inRange hx) hi hj hlba hoff
      omega

/-- The deletion loop of `fat32_unlink`, also where the run goes on in another
sector or cluster. -/
theorem On.unlinkLoop (hs : c.vol.Sound c.sectors) (hch : c.Chain a xs)
    (hj : i + m < xs.length * c.vol.perCluster) {f : Unit → Prog Drv β}
    (h : On (f ()) R (c.marks xs i (m + 1))) :
    On (Prog.loop (Fat32.unlinkStep (posAt c.vol 0 xs (i + m))) (posAt c.vol 0 xs i) >>= f) R c := by
  apply On.bind
  induction m generalizing c i with
  | zero =>
      apply On.loop
      exact On.unlinkStep hs hch (Nat.le_refl _) hj (fun _ => h) fun hlt => absurd hlt (by omega)
  | succ m ih =>
      apply On.loop
      refine On.unlinkStep hs hch (by omega) hj (fun heq => absurd heq (by omega)) fun _ => ?_
      have hidx : i + (m + 1) = i + 1 + m := by omega
      rw [hidx] at hj ⊢
      exact ih (c := c.mark (slotPlace c.vol xs i)) hs
        (hch.mark hs (Or.inl (dataLba_le_slotPlace _ _ _))) hj h

end Rules

end Chimaera.Fat32
