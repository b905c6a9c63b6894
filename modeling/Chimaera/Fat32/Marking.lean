/-
`fsck_mark_chain`: which clusters it marks, and when it reports a cross-link.
-/
import Chimaera.Fat32.Empty
import Mathlib.Order.Interval.Finset.Nat

namespace Chimaera.Fat32

open Prog Links

variable {total start dirCluster entryIdx b c guard : Nat} {owner : Nat × Nat} {fat : Nat → Nat}
  {xs ys : List Nat} {w : Walk} {s : Drv}

/-- The cluster numbers that `fsck_mark_chain` follows. -/
def Markable (total c : Nat) : Prop := 2 ≤ c ∧ c < u32 (total + 2)

/-- The FAT content is `fat`: this is what `fat_get` answers, now and later on. -/
def Drv.Serves (s : Drv) (total : Nat) (fat : Nat → Nat) : Prop :=
  ∃ I : Drv → Prop, I s ∧ ∀ t c, I t → Markable total c → ∃ t', (fatGet c).Runs t (fat c) t' ∧ I t'

/-- The next cluster of a chain; 0, which is none, at its end. -/
def chainLink (fat : Nat → Nat) (c : Nat) : Nat := if 0x0FFFFFF8 ≤ fat c then 0 else fat c

/-- A cluster of the volume whose bit is clear. -/
def Walk.Clear (w : Walk) (total c : Nat) : Prop := Markable total c ∧ w.bmp (c - 2) = false

/-- The clusters `xs` are marked, and given an owner. -/
def Walk.mark (w : Walk) (xs : List Nat) (owner : Nat × Nat) : Walk :=
  { w with
    bmp := fun i => w.bmp i || decide (i + 2 ∈ xs)
    refs := fun i => if i + 2 ∈ xs then owner else w.refs i }

def Walk.Crosses (w : Walk) (total c : Nat) (owner : Nat × Nat) : Prop :=
  Markable total c ∧ w.bmp (c - 2) = true ∧ w.refs (c - 2) ≠ owner

/-- A cross-link is counted. -/
def Walk.crossed (w : Walk) : Walk :=
  { w with
    stats := { w.stats with
      crosslinkClusters := w.stats.crosslinkClusters + 1
      crosslinkRepaired := w.stats.crosslinkRepaired + 1 }
    needReadonly := false }

instance : Decidable (Markable total c) := inferInstanceAs (Decidable (_ ∧ _))

instance : Decidable (w.Crosses total c owner) := inferInstanceAs (Decidable (_ ∧ _ ∧ _))

@[simp] theorem Walk.mark_nil : w.mark [] owner = w := by
  simp [Walk.mark]

theorem Walk.mark_append : w.mark (xs ++ ys) owner = (w.mark xs owner).mark ys owner := by
  simp only [Walk.mark, List.mem_append, Walk.mk.injEq, and_true]
  constructor
  · funext i
    simp [Bool.or_assoc]
  · funext i
    by_cases hy : i + 2 ∈ ys
    · simp [hy]
    · simp [hy]

/-- One cluster is marked. -/
theorem Walk.mark_singleton (hc : 2 ≤ c) : w.mark [c] owner = { w with
    bmp := Function.update w.bmp (c - 2) true
    refs := Function.update w.refs (c - 2) owner } := by
  have hidx : ∀ i, i + 2 = c ↔ i = c - 2 := by omega
  simp only [Walk.mark, List.mem_singleton, hidx, Walk.mk.injEq, and_true]
  constructor
  · funext i
    by_cases hi : i = c - 2
    · simp [hi]
    · simp [hi]
  · funext i
    by_cases hi : i = c - 2
    · simp [hi]
    · simp [hi]

/-- The marked clusters are distinct numbers of the volume, so there are not more of them than
it has, and all of its clusters are marked if there are that many. -/
theorem markable_count (hnd : xs.Nodup) (hr : ∀ x ∈ xs, Markable total x) :
    xs.length ≤ total ∧ (total ≤ xs.length → ∀ x, Markable total x → x ∈ xs) := by
  have hsub : xs.toFinset ⊆ Finset.Ico 2 (u32 (total + 2)) := by
    intro x hx
    exact Finset.mem_Ico.mpr (hr x (List.mem_toFinset.mp hx))
  have hle : u32 (total + 2) ≤ total + 2 := Nat.mod_le _ _
  have hcard := Finset.card_le_card hsub
  rw [Nat.card_Ico, List.toFinset_card_of_nodup hnd] at hcard
  refine ⟨by omega, fun hfull x hx => ?_⟩
  have heq := Finset.eq_of_subset_of_card_le hsub
    (by rw [Nat.card_Ico, List.toFinset_card_of_nodup hnd]; omega)
  rw [← List.mem_toFinset, heq]
  exact Finset.mem_Ico.mpr hx

section Rounds

variable {I : Drv → Prop} {t : Drv}

/-- A cluster met before belongs to the owner, so no cross-link is seen there. -/
theorem Walk.crosses_mark (hx : ∀ x ∈ xs, w.Clear total x) :
    (w.mark xs owner).Crosses total c owner ↔ w.Crosses total c owner := by
  unfold Walk.Crosses
  refine and_congr_right fun hc => ?_
  have hidx : c - 2 + 2 = c := Nat.sub_add_cancel hc.1
  by_cases hmem : c ∈ xs
  · have hclear := (hx c hmem).2
    simp [Walk.mark, hidx, hmem, hclear]
  · simp [Walk.mark, hidx, hmem]

/-- A round at a clear cluster marks it and looks up the next one. -/
theorem markStep_clear (hc : Markable total c) (hbit : w.bmp (c - 2) = false)
    (hg : guard < total) : markStep start dirCluster entryIdx total (c, guard, w) =
      fatGet c >>= fun next => if 0x0FFFFFF8 ≤ next ∨ next = 0
        then pure (.inr (w.mark [c] (dirCluster, entryIdx)))
        else pure (.inl (next, guard + 1, w.mark [c] (dirCluster, entryIdx))) := by
  rw [Walk.mark_singleton hc.1, markStep, if_pos ⟨hc.1, hc.2, hg⟩]
  dsimp only
  rw [hbit, if_neg Bool.false_ne_true]

/-- A round at a cluster that is set ends the walk. -/
theorem markStep_set (hne : start ≠ dirCluster) (hc : Markable total c)
    (hbit : w.bmp (c - 2) = true) (hg : guard < total) :
    markStep start dirCluster entryIdx total (c, guard, w) =
      pure (.inr (if w.Crosses total c (dirCluster, entryIdx) then w.crossed else w)) := by
  rw [markStep, if_pos ⟨hc.1, hc.2, hg⟩]
  dsimp only
  rw [if_pos hbit, if_neg hne]
  by_cases hown : w.refs (c - 2) = (dirCluster, entryIdx)
  · have hno : ¬ w.Crosses total c (dirCluster, entryIdx) := fun h => h.2.2 hown
    rw [if_neg (fun h => h hown), if_neg hno]
  · have hyes : w.Crosses total c (dirCluster, entryIdx) := ⟨hc, hbit, hown⟩
    rw [if_pos hown, if_pos hyes]
    rfl

theorem markStep_out (h : ¬ (Markable total c ∧ guard < total)) :
    markStep start dirCluster entryIdx total (c, guard, w) = pure (.inr w) := by
  rw [markStep, if_neg (fun hg => h ⟨⟨hg.1, hg.2.1⟩, hg.2.2⟩)]

/-- The walk from `a`, with `done` behind it and `rest` ahead. -/
theorem markRounds_runs (entryIdx : Nat) (hne : start ≠ dirCluster) {a : Nat} {done rest : List Nat}
    (hget : ∀ t c, I t → Markable total c → ∃ t', (fatGet c).Runs t (fat c) t' ∧ I t')
    (hpath : Path (chainLink fat) (w.Clear total) start done a)
    (hrest : Path (chainLink fat) (w.Clear total) a rest b) (hnd : (done ++ rest).Nodup)
    (hstop : ¬ w.Clear total b ∨ b ∈ done ++ rest) (ht : I t) :
    ∃ t', (loop (markStep start dirCluster entryIdx total)
      (a, done.length, w.mark done (dirCluster, entryIdx))).Runs t
        (if w.Crosses total b (dirCluster, entryIdx)
          then (w.mark (done ++ rest) (dirCluster, entryIdx)).crossed
          else w.mark (done ++ rest) (dirCluster, entryIdx)) t' := by
  induction rest generalizing done a t with
  | nil =>
      obtain rfl : a = b := hrest
      rw [List.append_nil] at *
      refine ⟨t, runs_loop.mpr (Or.inr ?_)⟩
      have hcross : (w.mark done (dirCluster, entryIdx)).Crosses total a (dirCluster, entryIdx) ↔
          w.Crosses total a (dirCluster, entryIdx) := Walk.crosses_mark hpath.mem_ok
      by_cases hgo : Markable total a ∧ done.length < total
      · have hbit : (w.mark done (dirCluster, entryIdx)).bmp (a - 2) = true := by
          have hidx : a - 2 + 2 = a := Nat.sub_add_cancel hgo.1.1
          by_cases hm : a ∈ done
          · simp [Walk.mark, hidx, hm]
          · have hset : w.bmp (a - 2) = true := by
              rcases hstop with hno | hmem
              · exact eq_true_of_ne_false fun h => hno ⟨hgo.1, h⟩
              · exact absurd hmem hm
            simp [Walk.mark, hset]
        rw [markStep_set hne hgo.1 hbit hgo.2, runs_pure]
        exact ⟨by simp only [hcross], rfl⟩
      · have hno : ¬ w.Crosses total a (dirCluster, entryIdx) := by
          intro h
          have hfull := (markable_count hnd fun x hx => (hpath.mem_ok x hx).1).2
            (Nat.le_of_not_lt fun hlt => hgo ⟨h.1, hlt⟩) a h.1
          exact absurd h.2.1 (by simp [(hpath.mem_ok a hfull).2])
        rw [markStep_out hgo, if_neg hno, runs_pure]
        exact ⟨rfl, rfl⟩
  | cons x rest ih =>
      obtain ⟨rfl, hx, hrest⟩ := hrest
      have hsplit : done ++ a :: rest = (done ++ [a]) ++ rest := by simp
      rw [hsplit] at hnd hstop ⊢
      have hnd' : (done ++ [a]).Nodup := (List.nodup_append.mp hnd).1
      have hpath' : Path (chainLink fat) (w.Clear total) start (done ++ [a]) (chainLink fat a) :=
        path_append.mpr ⟨a, hpath, rfl, hx, rfl⟩
      have hg : done.length < total := by
        have := (markable_count hnd' fun x hx => (hpath'.mem_ok x hx).1).1
        rw [List.length_append, List.length_singleton] at this
        omega
      have hbit : (w.mark done (dirCluster, entryIdx)).bmp (a - 2) = false := by
        have hidx : a - 2 + 2 = a := Nat.sub_add_cancel hx.1.1
        have hnot : a ∉ done := by
          intro hm
          exact (List.nodup_append.mp hnd').2.2 a hm a List.mem_cons_self rfl
        simp [Walk.mark, hidx, hnot, hx.2]
      obtain ⟨t₁, hrun, hI₁⟩ := hget t a ht hx.1
      have hstep := @markStep_clear total start dirCluster entryIdx a done.length
        (w.mark done (dirCluster, entryIdx)) hx.1 hbit hg
      rw [← Walk.mark_append] at hstep
      by_cases hlast : 0x0FFFFFF8 ≤ fat a ∨ fat a = 0
      · have hzero : chainLink fat a = 0 := by
          unfold chainLink
          rcases hlast with h | h <;> simp [h]
        have hno : ¬ Markable total 0 := fun h => absurd h.1 (by decide)
        rw [hzero] at hrest
        cases rest with
        | cons y rest =>
            obtain ⟨rfl, hy, -⟩ := hrest
            exact absurd hy.1 hno
        | nil =>
            obtain rfl : 0 = b := hrest
            refine ⟨t₁, runs_loop.mpr (Or.inr ?_)⟩
            rw [hstep, hrun.bind_iff, if_pos hlast, runs_pure, List.append_nil,
              if_neg fun h => hno h.1]
            exact ⟨rfl, rfl⟩
      · have hnext : chainLink fat a = fat a := if_neg fun h => hlast (Or.inl h)
        obtain ⟨t', hrun'⟩ := ih hpath' hrest hnd hstop hI₁
        refine ⟨t', runs_loop.mpr (Or.inl ⟨_, t₁, ?_, hrun'⟩)⟩
        rw [hstep, hrun.bind_iff, if_neg hlast, runs_pure, hnext, List.length_append,
          List.length_singleton]
        exact ⟨rfl, rfl⟩

end Rounds

/-- `fsck_mark_chain` marks the longest part of the chain that runs through distinct clear
clusters, for its owner and nothing else, and it counts a cross-link if and only if that part
ends at a cluster that was marked for another owner. -/
theorem fsckMarkChain_exact (hne : start ≠ dirCluster) (hs : s.Serves total fat) :
    ∃ xs b w' s', (fsckMarkChain start dirCluster entryIdx total w).Runs s w' s' ∧
      Longest (chainLink fat) (w.Clear total) start xs b ∧
      (∀ ys c, Path (chainLink fat) (w.Clear total) start ys c → ys.Nodup → ys <+: xs) ∧
      (∀ i, w'.bmp i = true ↔ w.bmp i = true ∨ i + 2 ∈ xs) ∧
      (∀ i, w'.refs i = if i + 2 ∈ xs then (dirCluster, entryIdx) else w.refs i) ∧
      w'.stats.crosslinkRepaired = w.stats.crosslinkRepaired +
        if w.Crosses total b (dirCluster, entryIdx) then 1 else 0 := by
  obtain ⟨I, hI, hget⟩ := hs
  have hfin : ∀ x, w.Clear total x → x ∈ Finset.Ico 2 (u32 (total + 2)) :=
    fun x hx => Finset.mem_Ico.mpr hx.1
  obtain ⟨xs, b, hpath, hnd, hstop⟩ : ∃ xs b, Path (chainLink fat) (w.Clear total) start xs b ∧
      xs.Nodup ∧ (¬ w.Clear total b ∨ b ∈ xs) := exists_path start hfin
  have hstart : Path (chainLink fat) (w.Clear total) start [] start := rfl
  obtain ⟨s', hrun⟩ := markRounds_runs entryIdx hne hget hstart hpath hnd hstop hI
  have hlong : Longest (chainLink fat) (w.Clear total) start xs b := ⟨hpath, hnd, hstop⟩
  rw [List.nil_append, List.length_nil, Walk.mark_nil] at hrun
  refine ⟨xs, b, _, s', hrun, hlong, fun ys c => hlong.isPrefix, fun i => ?_, fun i => ?_, ?_⟩
  · split <;> simp [Walk.crossed, Walk.mark]
  · split <;> simp [Walk.crossed, Walk.mark]
  · split <;> simp [Walk.crossed, Walk.mark]

/-- Over a working device `fat_get` answers the entries of the first FAT. -/
theorem Drv.Ready.serves (ht : s.Ready) (hs : s.vol.Sound s.sectors) :
    s.Serves s.vol.totalClusters s.fat := by
  refine ⟨fun t => t.Ready ∧ t.toStore = s.toStore, ⟨ht, rfl⟩, ?_⟩
  rintro t c ⟨ht', heq⟩ hc
  have hrange : t.vol.InRange c := by
    have htot := hs.total_le
    rw [heq]
    refine ⟨hc.1, ?_⟩
    rw [← u32_of_lt (n := s.vol.totalClusters + 2) (by omega)]
    exact hc.2
  have hon : On (fatGet c) (fun x d => x = t.fat c ∧ d = t.toStore) t.toStore := by
    have := On.fatGet (f := fun x => pure x) (R := fun x d => x = t.fat c ∧ d = t.toStore)
      (heq ▸ hs) hrange (On.pure ⟨rfl, rfl⟩)
    rwa [bind_pure] at this
  obtain ⟨t', ht'', hstore, hrun⟩ := hon.runs ht' rfl
  exact ⟨t', by rwa [heq] at hrun, ht'', hstore.trans heq⟩

def Walk.unmarked : Walk := ⟨fun _ => false, fun _ => (0, 0), .init, false⟩

/-- A volume whose clusters 3, 4 and 5 are linked. -/
def threaded : Drv :=
  { fresh 4 with
    disk := fun lba =>
      if lba = 32 ∨ lba = 40 then
        ((fatHead.patch 12 (leBytes 4 4)).patch 16 (leBytes 4 5)).patch 20 (leBytes 4 0x0FFFFFFF)
      else Block.zero 512 }

/-- The tables once the entry 0 of cluster 2 has been given cluster 5. -/
def Walk.met : Walk :=
  ⟨fun i => decide (i = 3), fun i => if i = 3 then (2, 0) else (0, 0), .init, false⟩

theorem threaded_longest : Longest (chainLink threaded.fat) (Walk.Clear .met 4) 3 [3, 4] 5 := by
  have h3 : chainLink threaded.fat 3 = 4 := by decide +kernel
  have h4 : chainLink threaded.fat 4 = 5 := by decide +kernel
  refine ⟨⟨rfl, ⟨by decide, rfl⟩, ?_⟩, by decide, Or.inl fun h => absurd h.2 (by decide)⟩
  rw [h3]
  exact ⟨rfl, ⟨by decide, rfl⟩, h4⟩

/-- The chain of cluster 3 is walked for another entry: 3 and 4 become its clusters, and the
cross-link at 5 is counted. -/
theorem fsckMarkChain_exact_threaded : 3 ≠ 2 ∧ threaded.Serves 4 threaded.fat ∧
    ∃ w' s', (fsckMarkChain 3 2 1 4 .met).Runs threaded w' s' ∧
      (∀ i, w'.bmp i = true ↔ i = 1 ∨ i = 2 ∨ i = 3) ∧
      w'.refs 1 = (2, 1) ∧ w'.refs 2 = (2, 1) ∧ w'.refs 3 = (2, 0) ∧
      w'.stats.crosslinkRepaired = 1 := by
  have hready : threaded.Ready := ⟨rfl, fun _ => rfl, rfl, Or.inl rfl, by decide⟩
  have hs : threaded.Serves 4 threaded.fat :=
    hready.serves (fresh_blank (n := 4) (by omega) (by omega)).sound
  refine ⟨by decide, hs, ?_⟩
  obtain ⟨xs, b, w', s', hrun, hlong, -, hbmp, hrefs, hcount⟩ :=
    @fsckMarkChain_exact 4 3 2 1 _ .met _ (by decide) hs
  obtain ⟨rfl, rfl⟩ := hlong.unique threaded_longest
  refine ⟨w', s', hrun, fun i => ?_, hrefs 1, hrefs 2, hrefs 3, hcount⟩
  rw [hbmp]
  simp only [Walk.met, decide_eq_true_eq, List.mem_cons, List.not_mem_nil, or_false]
  omega

end Chimaera.Fat32
