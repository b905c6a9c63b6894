/-
The checker's own directory iterator, beside the driver's.  Inside a chain both
go through the same slots; the checker's does not notice the end of the chain,
and the repairs step back from it by one sector.
-/
import Chimaera.Fat32.Empty
import Chimaera.Fat32.Positions
import Chimaera.Fat32.Preserve

namespace Chimaera.Fat32

open Prog

/-- The checker's iterator before slot `i`; before slot number `length`, behind
the last sector of the last cluster. -/
def iterAt (v : Vol) (xs : List Nat) (i : Nat) : DirIter :=
  if i < xs.length * v.perCluster then
    ⟨(posAt v 0 xs i).cluster, (posAt v 0 xs i).lba, (posAt v 0 xs i).off⟩
  else ⟨xs.getLastD 0, v.secLba (xs.getLastD 0) v.secPerClus, 0⟩

/-- A round of reading on with `dir_read_entry` and `dir_next`. -/
def dirRound (p : DirPos × List DirEntry) :
    Prog Drv ((DirPos × List DirEntry) ⊕ List DirEntry) := do
  match ← dirReadEntry p.1 with
  | none => pure (.inr p.2)
  | some e =>
      let (more, pos) ← dirNext p.1
      if more then pure (.inl (pos, p.2 ++ [e])) else pure (.inr (p.2 ++ [e]))

/-- The entries from `dir_pos_init` until `dir_next` answers false. -/
def dirSequence (cluster : Nat) : Prog Drv (List DirEntry) := do
  let c ← getStore
  loop dirRound (dirPosInit c.vol cluster, [])

/-- A round of reading on with `fsck_dir_iter_next`. -/
def fsckRound (p : DirIter × List DirEntry) :
    Prog Drv ((DirIter × List DirEntry) ⊕ List DirEntry) := do
  match ← fsckDirIterNext p.1 with
  | none => pure (.inr p.2)
  | some (e, it) => pure (.inl (it, p.2 ++ [e]))

/-- The entries from `fsck_dir_iter_init` until `fsck_dir_iter_next` answers
false. -/
def fsckSequence (cluster : Nat) : Prog Drv (List DirEntry) := do
  let c ← getStore
  loop fsckRound (fsckDirIterInit c.vol cluster, [])

section Rules

variable {β : Type} {R : β → Store → Prop} {c : Store} {a i : Nat} {xs : List Nat}

theorem Store.Chain.ne_nil (h : c.Chain a xs) (ha : c.vol.InRange a)
    (hs : c.vol.Sound c.sectors) : xs ≠ [] := by
  have := hs.total_le
  have := ha.2
  obtain ⟨ys, rfl⟩ := Links.Chain.head_mem h (by omega)
  simp

theorem Store.Chain.head (h : c.Chain a xs) (hne : xs ≠ []) : xs.getD 0 0 = a := by
  obtain ⟨k, ys, rfl⟩ := List.exists_cons_of_ne_nil hne
  exact (Links.Chain.cons_iff.mp h).1.symm

theorem Store.Chain.slots_pos (hs : c.vol.Sound c.sectors) (hne : xs ≠ []) :
    0 < xs.length * c.vol.perCluster :=
  Nat.mul_pos (List.length_pos_iff.mpr hne) (perCluster_pos hs)

theorem Store.Chain.clusterToLba_head (h : c.Chain a xs) (hne : xs ≠ [])
    (hs : c.vol.Sound c.sectors) : c.vol.clusterToLba a = c.vol.secLba a 0 := by
  apply hs.clusterToLba_eq
  rw [← h.head hne, List.getD_eq_getElem _ _ (List.length_pos_iff.mpr hne)]
  exact h.inRange (List.getElem_mem _)

theorem Store.Chain.dirPosInit_eq (h : c.Chain a xs) (hne : xs ≠ [])
    (hs : c.vol.Sound c.sectors) : dirPosInit c.vol a = posAt c.vol 0 xs 0 := by
  rw [dirPosInit, h.clusterToLba_head hne hs]
  simp only [posAt, Nat.zero_div, Nat.zero_mod, Nat.zero_mul, h.head hne]
  rfl

theorem Store.Chain.fsckDirIterInit_eq (h : c.Chain a xs) (hne : xs ≠ [])
    (hs : c.vol.Sound c.sectors) : fsckDirIterInit c.vol a = iterAt c.vol xs 0 := by
  rw [fsckDirIterInit, h.clusterToLba_head hne hs, iterAt, if_pos (Store.Chain.slots_pos hs hne)]
  simp only [posAt, Nat.zero_div, Nat.zero_mod, Nat.zero_mul, h.head hne]

/-- The checker's step from a slot of the chain. -/
theorem On.fsckDirIterNext (hs : c.vol.Sound c.sectors) (hch : c.Chain a xs)
    (hi : i < xs.length * c.vol.perCluster) {f : Option (DirEntry × DirIter) → Prog Drv β}
    (h : On (f (some (c.slot xs i, iterAt c.vol xs (i + 1)))) R c) :
    On (fsckDirIterNext (iterAt c.vol xs i) >>= f) R c := by
  have hlt := hch.slotPlace_lt hs hi
  apply On.bind
  rw [iterAt, if_pos hi, Fat32.fsckDirIterNext]
  apply On.getStore
  apply On.secRead hlt
  rw [if_pos rfl]
  apply OnAt.cached hlt
  dsimp only
  refine OnAt.of_on (On.nextSlot (γ := Option (DirEntry × DirIter)) hs hch hi rfl rfl
    (A := fun k l o => some (c.slot xs i, ⟨k, l, o⟩))
    (B := fun l => some (c.slot xs i, ⟨xs.getD (i / c.vol.perCluster) 0, l, 0⟩))
    (Q := fun r c' => On (f r) R c') (fun hnext => ?_) fun hend => ?_)
  · rw [iterAt, if_pos hnext] at h
    exact h
  · rw [iterAt, if_neg (by omega)] at h
    rw [getD_last hend]
    exact h

end Rules

section Sequences

variable {c : Store} {s : Drv} {a i : Nat} {xs : List Nat}

theorem On.dirRound (hs : c.vol.Sound c.sectors) (hch : c.Chain a xs)
    (hi : i < xs.length * c.vol.perCluster) {acc : List DirEntry}
    {Q : (DirPos × List DirEntry) ⊕ List DirEntry → Store → Prop}
    (hnext : i + 1 < xs.length * c.vol.perCluster →
      Q (.inl (posAt c.vol 0 xs (i + 1), acc ++ [c.slot xs i])) c)
    (hend : i + 1 = xs.length * c.vol.perCluster → Q (.inr (acc ++ [c.slot xs i])) c) :
    On (Fat32.dirRound (posAt c.vol 0 xs i, acc)) Q c := by
  rw [Fat32.dirRound]
  apply On.dirReadEntry hs hch hi
  refine On.dirNext hs hch hi (fun h => ?_) fun h pos _ => ?_
  · exact On.pure (hnext h)
  · exact On.pure (hend h)

/-- The driver reads the slots of the chain, each once and in order. -/
theorem Store.Chain.dirSequence (hch : c.Chain a xs) (hne : xs ≠ [])
    (hs : c.vol.Sound c.sectors) : On (dirSequence a) (fun l c' => l = c.slots xs ∧ c' = c) c := by
  rw [Fat32.dirSequence]
  apply On.getStore
  rw [hch.dirPosInit_eq hne hs]
  suffices h : ∀ n i, i + (n + 1) = xs.length * c.vol.perCluster →
      On (loop Fat32.dirRound (posAt c.vol 0 xs i, (List.range i).map (c.slot xs)))
        (fun l c' => l = c.slots xs ∧ c' = c) c by
    have hpos : 0 < xs.length * c.vol.perCluster := slots_pos hs hne
    exact h (xs.length * c.vol.perCluster - 1) 0 (by omega)
  intro n
  induction n with
  | zero =>
      intro i hi
      refine On.loop (On.dirRound hs hch (by omega) (fun h => by omega) fun h => ⟨?_, rfl⟩)
      rw [slots, ← h, List.range_succ, List.map_append]
      rfl
  | succ n ih =>
      intro i hi
      refine On.loop (On.dirRound hs hch (by omega) (fun h => ?_) fun h => by omega)
      have hrest := ih (i + 1) (by omega)
      rw [List.range_succ, List.map_append] at hrest
      exact hrest

theorem On.fsckRound (hs : c.vol.Sound c.sectors) (hch : c.Chain a xs)
    (hi : i < xs.length * c.vol.perCluster) {acc : List DirEntry} :
    On (Fat32.fsckRound (iterAt c.vol xs i, acc))
      (fun r c' => r = .inl (iterAt c.vol xs (i + 1), acc ++ [c.slot xs i]) ∧ c' = c) c := by
  rw [Fat32.fsckRound]
  exact On.fsckDirIterNext hs hch hi (On.pure ⟨rfl, rfl⟩)

/-- The checker's sequence begins with the first `i` slots of the chain. -/
theorem Store.Chain.fsckSequence_from (hch : s.toStore.Chain a xs) (hne : xs ≠ [])
    (hs : s.vol.Sound s.sectors) (hready : s.Ready) (hi : i ≤ xs.length * s.vol.perCluster) :
    ∃ s' : Drv, s'.Ready ∧ s'.toStore = s.toStore ∧ ∀ l t, (fsckSequence a).Runs s l t ↔
      (loop fsckRound (iterAt s.vol xs i, (List.range i).map (s.toStore.slot xs))).Runs s' l t := by
  induction i with
  | zero =>
      refine ⟨s, hready, rfl, fun l t => ?_⟩
      rw [fsckSequence, getStore, Runs.bind_iff (runs_asks.mpr ⟨rfl, rfl⟩),
        hch.fsckDirIterInit_eq hne hs]
      rfl
  | succ i ih =>
      obtain ⟨s', hready', hstore, hiff⟩ := ih (by omega)
      obtain ⟨s₁, hready₁, hstore₁, hround⟩ := (On.fsckRound (i := i) hs hch (by omega)).runs
        hready' hstore
      refine ⟨s₁, hready₁, hstore₁, fun l t => ?_⟩
      rw [hiff, Runs.loop_iff hround, List.range_succ, List.map_append]
      rfl

/-- The place behind the chain, where the checker's iterator stays. -/
theorem Store.Chain.behind_le (hch : c.Chain a xs) (hne : xs ≠ []) (hs : c.vol.Sound c.sectors) :
    c.vol.secLba (xs.getLastD 0) c.vol.secPerClus ≤ c.sectors := by
  have hmem : xs.getLastD 0 ∈ xs := by
    rw [List.getLastD_eq_getLast?, List.getLast?_eq_some_getLast hne]
    exact List.getLast_mem hne
  have hspc := hs.spc_pos
  have hlt := hs.secLba_lt (j := c.vol.secPerClus - 1) (hch.inRange hmem) (by omega)
  unfold Vol.secLba at hlt ⊢
  omega

/-- A round that can read its sector delivers an entry. -/
theorem fsckRound_delivers {it : DirIter} {acc : List DirEntry} (hready : s.Ready)
    (hlba : it.lba % 268435456 < s.sectors) (hoff : it.off + 32 < 512) :
    (fsckRound (it, acc)).wp
      (fun r _ => ∃ e, r = .inl ({ it with off := it.off + 32 }, acc ++ [e])) s := by
  rw [fsckRound, fsckDirIterNext, getStore]
  simp only [wp_bind, wp_asks]
  refine (secRead_wraps hready hlba).mono fun ok s' hok => ?_
  rw [hok, if_pos rfl, cached]
  simp only [wp_bind, wp_asks, hoff, if_true, wp_pure]
  exact ⟨_, rfl⟩

/-- A sequence never loses an entry that it has delivered. -/
theorem fsckSequence_grows {p : DirIter × List DirEntry} {l : List DirEntry} {t : Drv}
    (hr : (loop fsckRound p).Runs s l t) : p.2.length ≤ l.length := by
  refine Runs.loop_ind (I := fun q _ => p.2.length ≤ q.2.length)
    (Q := fun l _ => p.2.length ≤ l.length) (fun q s q' s' hle hq => ?_)
    (fun q s l s' hle hq => ?_) hr (Nat.le_refl _)
  · obtain ⟨o, s₁, -, hq⟩ := runs_bind.mp hq
    cases o with
    | none => cases (runs_pure.mp hq).1
    | some r =>
        obtain ⟨heq, -⟩ := runs_pure.mp hq
        cases heq
        rw [List.length_append]
        omega
  · obtain ⟨o, s₁, -, hq⟩ := runs_bind.mp hq
    cases o with
    | none =>
        obtain ⟨heq, -⟩ := runs_pure.mp hq
        cases heq
        exact hle
    | some r => cases (runs_pure.mp hq).1

/-- Where the sector behind the chain can be read, the checker delivers more than
the slots of the chain. -/
theorem Store.Chain.fsckSequence_longer (hch : s.toStore.Chain a xs) (hne : xs ≠ [])
    (hs : s.vol.Sound s.sectors) (hready : s.Ready)
    (hlba : s.vol.secLba (xs.getLastD 0) s.vol.secPerClus % 268435456 < s.sectors)
    {l : List DirEntry} (hl : (fsckSequence a).Answers s l) :
    (s.toStore.slots xs).length < l.length := by
  obtain ⟨t, hl⟩ := hl
  obtain ⟨s', hready', hstore, hiff⟩ := hch.fsckSequence_from hne hs hready (Nat.le_refl _)
  have hrest := (hiff l t).mp hl
  rw [iterAt, if_neg (Nat.lt_irrefl _)] at hrest
  have hlba' : s.vol.secLba (xs.getLastD 0) s.vol.secPerClus % 268435456 < s'.sectors := by
    rw [hstore]
    exact hlba
  obtain ⟨r, s₁, hround, e, rfl⟩ := @fsckRound_delivers s'
    ⟨xs.getLastD 0, s.vol.secLba (xs.getLastD 0) s.vol.secPerClus, 0⟩ (s.toStore.slots xs) hready'
    hlba' (by simp)
  have hgrows := fsckSequence_grows ((Runs.loop_iff hround).mp hrest)
  rw [List.length_append] at hgrows
  exact hgrows

/-- Where it cannot, the checker stops behind the chain. -/
theorem Store.Chain.fsckSequence_stops (hch : s.toStore.Chain a xs) (hne : xs ≠ [])
    (hs : s.vol.Sound s.sectors) (hready : s.Ready)
    (hlba : s.vol.secLba (xs.getLastD 0) s.vol.secPerClus = s.sectors)
    (h28 : s.sectors < 268435456) : (fsckSequence a).Answers s (s.toStore.slots xs) := by
  obtain ⟨s', hready', hstore, hiff⟩ := hch.fsckSequence_from hne hs hready (Nat.le_refl _)
  have hstop : On (loop fsckRound (iterAt s.vol xs (xs.length * s.vol.perCluster),
      s.toStore.slots xs)) (fun l c' => l = s.toStore.slots xs ∧ c' = s.toStore) s.toStore := by
    rw [iterAt, if_neg (Nat.lt_irrefl _), hlba]
    apply On.loop
    rw [fsckRound, fsckDirIterNext, bind_assoc]
    apply On.getStore
    rw [bind_assoc]
    have hno : s.sectors ≠ 0xFFFFFFFF := by omega
    refine On.secRead_fail (by rw [Nat.mod_eq_of_lt h28]) hno ?_
    exact On.pure ⟨rfl, rfl⟩
  obtain ⟨t, -, -, hrun⟩ := hstop.runs hready' hstore
  exact ⟨t, (hiff _ t).mpr hrun⟩

theorem fresh_chain {n : Nat} (h1 : 1 ≤ n) (h : n ≤ 1000) : (fresh n).toStore.Chain 2 [2] := by
  have hb := fresh_blank h1 h
  have hr : (freshVol n).InRange 2 := hb.root ▸ hb.sound.root
  refine Links.Chain.cons_iff.mpr ⟨rfl, hr, Links.Chain.nil_iff.mpr ?_⟩
  rw [hb.fat_eq hr]
  decide

/-- The two iterators deliver the slots of the chain, and nothing else, exactly
when the chain ends with the device. -/
theorem Store.Chain.sequences_iff (hch : s.toStore.Chain a xs) (ha : s.vol.InRange a)
    (hs : s.vol.Sound s.sectors) (hready : s.Ready) :
    ((Fat32.dirSequence a).Answers s (s.toStore.slots xs) ∧
      (fsckSequence a).Answers s (s.toStore.slots xs)) ↔
      s.vol.secLba (xs.getLastD 0) s.vol.secPerClus = s.sectors ∧ s.sectors < 268435456 := by
  have hne := hch.ne_nil ha hs
  constructor
  · rintro ⟨-, hl⟩
    have hle := hch.behind_le hne hs
    have h28 := hs.lba28
    have hpos := hs.secLba_lt ha hs.spc_pos
    by_contra hcond
    refine absurd (hch.fsckSequence_longer hne hs hready ?_ hl) (Nat.lt_irrefl _)
    rcases Nat.lt_or_eq_of_le hle with hlt | heq
    · rwa [Nat.mod_eq_of_lt (by omega)]
    · have hfull : ¬ s.sectors < 268435456 := fun h => hcond ⟨heq, h⟩
      rw [heq, show s.sectors = 268435456 by omega, Nat.mod_self]
      omega
  · rintro ⟨heq, h28⟩
    obtain ⟨t, -, -, hrun⟩ := (hch.dirSequence hne hs).runs hready rfl
    exact ⟨⟨t, hrun⟩, hch.fsckSequence_stops hne hs hready heq h28⟩

/-- On a disk whose only cluster is the root directory's they agree. -/
theorem sequences_fresh_one :
    (Fat32.dirSequence 2).Answers (fresh 1) ((fresh 1).toStore.slots [2]) ∧
      (fsckSequence 2).Answers (fresh 1) ((fresh 1).toStore.slots [2]) :=
  have hb := fresh_blank (n := 1) (by omega) (by omega)
  (Store.Chain.sequences_iff (fresh_chain (by omega) (by omega)) (hb.root ▸ hb.sound.root)
    hb.sound (fresh_ready (by omega))).mpr ⟨rfl, by decide⟩

/-- The root directory of a small formatted disk: the checker goes on into the
free clusters behind it. -/
theorem not_sequences_fresh : (fresh 4).toStore.Chain 2 [2] ∧
    ¬ ∃ l, (dirSequence 2).Answers (fresh 4) l ∧ (fsckSequence 2).Answers (fresh 4) l := by
  have hch := fresh_chain (n := 4) (by omega) (by omega)
  have hs := (fresh_blank (n := 4) (by omega) (by omega)).sound
  have hready := fresh_ready (n := 4) (by omega)
  refine ⟨hch, ?_⟩
  rintro ⟨l, hdir, hfsck⟩
  obtain ⟨t, -, -, hrun⟩ := (hch.dirSequence (by simp) hs).runs hready rfl
  have hl : l = (fresh 4).toStore.slots [2] := Answers.det hdir ⟨t, hrun⟩
  subst hl
  exact absurd (hch.fsckSequence_longer (by simp) hs hready (by decide) hfsck) (Nat.lt_irrefl _)

end Sequences

end Chimaera.Fat32
