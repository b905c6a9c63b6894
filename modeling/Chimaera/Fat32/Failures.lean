/-
What a call that fails leaves in the descriptor table.  `fat32_open` keeps the
slot that it has filled when there is no cluster for the file, and `fat32_seek`
leaves the descriptor on the cluster where the links stop it.
-/
import Chimaera.Fat32.Endings
import Chimaera.Fat32.Faults
import Chimaera.Fat32.Opening

namespace Chimaera.Fat32

open Prog

variable {α : Type} {s s' t : Drv} {F : Nat → Fd} {fd k n last : Nat} {r : Int} {path : CStr}

def Drv.withFds (s : Drv) (F : Nat → Fd) : Drv := { s with fds := F }

/-- The program does not look at the descriptor table. -/
abbrev Blindfold (x : Prog Drv α) : Prop := ∀ F, Blind (fun s => s.withFds F) x

theorem blind_ataRead (lba : Nat) : Blindfold (ataRead lba) := by
  intro F
  refine Blind.asks_bind (fun _ => rfl) fun s => Blind.ite ?_ Blind.pure
  exact Blind.bind (Blind.modify fun _ => rfl) fun _ => Blind.ite Blind.pure Blind.pure

theorem blind_ataWrite (lba : Nat) (b : Sector) : Blindfold (ataWrite lba b) := by
  intro F
  refine Blind.asks_bind (fun _ => rfl) fun s => Blind.ite ?_ Blind.pure
  refine Blind.bind (Blind.modify fun _ => rfl) fun _ => Blind.ite ?_ Blind.pure
  exact Blind.bind (Blind.modify fun _ => rfl) fun _ => Blind.pure

theorem blind_secFlush : Blindfold secFlush := by
  intro F
  refine Blind.asks_bind (fun _ => rfl) fun s => Blind.ite ?_ Blind.pure
  refine Blind.bind (blind_ataWrite _ _ F) fun b => Blind.ite ?_ Blind.pure
  exact Blind.bind (Blind.modify fun _ => rfl) fun _ => Blind.pure

theorem blind_secRead (lba : Nat) : Blindfold (secRead lba) := by
  intro F
  refine Blind.asks_bind (fun _ => rfl) fun s => Blind.ite Blind.pure ?_
  refine Blind.bind (blind_secFlush F) fun b => Blind.ite ?_ Blind.pure
  refine Blind.bind (blind_ataRead lba F) fun o => ?_
  cases o with
  | none => exact Blind.pure
  | some b => exact Blind.bind (Blind.modify fun _ => rfl) fun _ => Blind.pure

theorem blind_fatGet (k : Nat) : Blindfold (fatGet k) := by
  intro F
  refine Blind.asks_bind (fun _ => rfl) fun s => Blind.bind (blind_secRead _ F) fun b => ?_
  exact Blind.ite (Blind.asks_bind (fun _ => rfl) fun _ => Blind.pure) Blind.pure

theorem blind_fatSet (k x : Nat) : Blindfold (fatSet k x) := by
  intro F
  refine Blind.asks_bind (fun _ => rfl) fun s => Blind.bind (Blind.forUntil (fun f => ?_) _ _)
    fun _ => Blind.pure
  refine Blind.bind (blind_secRead _ F) fun b => Blind.ite ?_ Blind.pure
  refine Blind.bind (Blind.modify fun _ => rfl) fun _ => Blind.bind (blind_secFlush F) fun b' => ?_
  exact Blind.ite Blind.pure Blind.pure

theorem blind_fatFreeChain (k : Nat) : Blindfold (fatFreeChain k) := by
  intro F
  refine Blind.loop (fun c => Blind.ite ?_ Blind.pure) _
  exact Blind.bind (blind_fatGet c F) fun _ => Blind.bind (blind_fatSet c 0 F) fun _ => Blind.pure

theorem blind_firstFree (n k : Nat) : Blindfold (firstFree n k) := by
  intro F
  refine Blind.forUntil (fun k => Blind.bind (blind_fatGet k F) fun x => ?_) _ _
  exact Blind.ite Blind.pure Blind.pure

theorem patches_fds (F : Nat → Fd) : Patches fun s => s.fds = F :=
  ⟨⟨fun _ h => h, fun _ _ h _ _ => h, fun _ h _ => h⟩, fun _ _ h => h⟩

theorem allocs_fds (F : Nat → Fd) : Allocs (fun _ => True) fun s => s.fds = F :=
  ⟨patches_fds F, fun _ _ h _ => h⟩

theorem fatAlloc_fds {prev : Nat} : Preserves (fun s => s.fds = F) (fatAlloc prev) :=
  (allocs_fds F).fatAlloc.preserves erase_fatAlloc

/-- The chain that `fat32_open` frees. -/
def freeOld (k : Nat) : Prog Drv Unit := if 2 ≤ k then fatFreeChain k else pure ()

theorem blind_freeOld (k : Nat) : Blindfold (freeOld k) :=
  fun F => Blind.ite (blind_fatFreeChain k F) Blind.pure

theorem openExisting_write_eq (fd : Nat) (p : PathInfo) : openExisting fd true p = (do
    putFd fd ⟨true, true, p.entry.cluster, p.dirCluster, p.pos.lba, p.pos.off, p.entry.size, 0,
      p.entry.cluster⟩
    freeOld p.entry.cluster
    let fresh ← fatAlloc 0
    if fresh = 0 then pure Err.full.code
    else
      putFd fd ⟨true, true, fresh, p.dirCluster, p.pos.lba, p.pos.off, 0, 0, fresh⟩
      let _ ← dirWriteEntry p.pos (DirEntry.setSize (DirEntry.setCluster p.entry fresh) 0)
      pure (fd : Int)) := by
  unfold openExisting freeOld
  simp only [if_true]
  congr 1
  funext _
  split <;> rfl

/-- The path names a file, and with the chain of that freed the scan of the FAT finds no
free entry. -/
def OpensFull (s : Drv) (path : CStr) : Prop :=
  ∃ p s₁ s₂ s₃, (pathStat path).Runs s (some p) s₁ ∧ p.entry.isDir = false ∧
    (freeOld p.entry.cluster).Runs s₁ () s₂ ∧
    (firstFree (u32 (s₂.vol.totalClusters + 2) - 2) 2).Runs s₂ none s₃

/-- What takes a slot and then fails has opened a file on a full volume. -/
theorem runs_openExisting {p : PathInfo} {r : Int} (hr : (openExisting fd true p).Runs s r t) :
    0 ≤ r ∨ ∃ s₂ s₃, (freeOld p.entry.cluster).Runs s () s₂ ∧
      (firstFree (u32 (s₂.vol.totalClusters + 2) - 2) 2).Runs s₂ none s₃ := by
  rw [openExisting_write_eq] at hr
  obtain ⟨a, t₁, h₁, hr₁⟩ := runs_bind.mp hr
  obtain rfl := runs_modify.mp h₁
  obtain ⟨b, t₂, h₂, hr₂⟩ := runs_bind.mp hr₁
  obtain ⟨fresh, t₃, h₃, hr₃⟩ := runs_bind.mp hr₂
  by_cases h0 : fresh = 0
  · subst h0
    have hfree := blind_freeOld _ s.fds _ _ _ h₂
    exact Or.inr ⟨_, _, hfree, blind_firstFree _ _ s.fds _ _ _ (fatAlloc_zero_iff.mp h₃)⟩
  · rw [if_neg h0] at hr₃
    obtain ⟨c, t₄, -, hr₄⟩ := runs_bind.mp hr₃
    obtain ⟨d, t₅, -, hr₅⟩ := runs_bind.mp hr₄
    obtain ⟨rfl, -⟩ := runs_pure.mp hr₅
    exact Or.inl (Int.natCast_nonneg fd)

theorem openExisting_runs_full (fd : Nat) {p : PathInfo} {s₂ s₃ : Drv}
    (hfree : (freeOld p.entry.cluster).Runs s () s₂)
    (hfull : (firstFree (u32 (s₂.vol.totalClusters + 2) - 2) 2).Runs s₂ none s₃) :
    ∃ t, (openExisting fd true p).Runs s Err.full.code t ∧ (t.fds fd).isOpen = true := by
  rw [openExisting_write_eq]
  obtain ⟨G, hG⟩ : ∃ G, G = Function.update s.fds fd ⟨true, true, p.entry.cluster, p.dirCluster,
    p.pos.lba, p.pos.off, p.entry.size, 0, p.entry.cluster⟩ := ⟨_, rfl⟩
  refine ⟨s₃.withFds G, runs_bind.mpr ⟨(), s.withFds G, runs_modify.mpr (by rw [hG]; rfl), ?_⟩, ?_⟩
  · refine runs_bind.mpr ⟨(), _, blind_freeOld _ G _ _ _ hfree, ?_⟩
    refine runs_bind.mpr ⟨0, _, fatAlloc_zero_iff.mpr (blind_firstFree _ _ G _ _ _ hfull), ?_⟩
    exact runs_pure.mpr ⟨rfl, rfl⟩
  · change (G fd).isOpen = true
    rw [hG, Function.update_self]

/-- Creating a file takes its slot last. -/
theorem openCreate_fds {path : CStr} {r : Int} (hr : (openCreate fd path).Runs s r t)
    (hneg : r < 0) : t.fds = s.fds := by
  have hadd := fun k name attr first size =>
    (@Allocs.dirAddEntry _ _ (allocs_fds s.fds) k name attr first size).preserves erase_dirAddEntry
  obtain ⟨⟨parent, name⟩, s₁, h₁, hr₁⟩ := runs_bind.mp hr
  have hs₁ := (patches_fds s.fds).pathResolveParent _ _ _ rfl h₁
  dsimp only at hr₁
  split at hr₁
  · obtain ⟨-, rfl⟩ := runs_pure.mp hr₁
    exact hs₁
  obtain ⟨fresh, s₂, h₂, hr₂⟩ := runs_bind.mp hr₁
  have hs₂ := fatAlloc_fds _ _ _ hs₁ h₂
  split at hr₂
  · obtain ⟨-, rfl⟩ := runs_pure.mp hr₂
    exact hs₂
  obtain ⟨o, s₃, h₃, hr₃⟩ := runs_bind.mp hr₂
  have hs₃ := hadd _ _ _ _ _ _ _ _ hs₂ h₃
  cases o with
  | none =>
      obtain ⟨u, s₄, h₄, hr₄⟩ := runs_bind.mp hr₃
      obtain ⟨-, rfl⟩ := runs_pure.mp hr₄
      exact (patches_fds s.fds).fatFreeChain _ _ _ hs₃ h₄
  | some pos =>
      obtain ⟨u, s₄, -, hr₄⟩ := runs_bind.mp hr₃
      obtain ⟨rfl, -⟩ := runs_pure.mp hr₄
      omega

/-- A `fat32_open` that fails leaves every descriptor as it was. -/
def OpenIntact (s : Drv) (path : CStr) (write : Bool) : Prop :=
  ∀ r s', (fat32Open path write).Runs s r s' → r < 0 → s'.fds = s.fds

theorem open_intact_iff (write : Bool) : OpenIntact s path write ↔ ¬ (write = true ∧
    s.volMounted = true ∧ s.volReadonly = false ∧ s.freeFd.isSome ∧ OpensFull s path) := by
  constructor
  · rintro hintact ⟨rfl, hm, hro, hfd, p, s₁, s₂, s₃, hstat, hfile, hfree, hfull⟩
    obtain ⟨fd, hfd⟩ := Option.isSome_iff_exists.mp hfd
    obtain ⟨t, hr, hopen⟩ := openExisting_runs_full fd hfree hfull
    have hrun : (fat32Open path true).Runs s Err.full.code t := by
      refine runs_bind.mpr ⟨_, _, runs_asks.mpr ⟨rfl, rfl⟩, ?_⟩
      rw [hm, hro, hfd]
      refine runs_bind.mpr ⟨_, _, hstat, ?_⟩
      dsimp only
      rw [hfile]
      exact hr
    rw [hintact _ _ hrun (by decide)] at hopen
    have hclosed := List.find?_some hfd
    rw [hopen] at hclosed
    cases hclosed
  · intro hno r t hr hneg
    obtain ⟨c, s₁, h₁, hr₁⟩ := runs_bind.mp hr
    obtain ⟨rfl, rfl⟩ := runs_asks.mp h₁
    split at hr₁
    · obtain ⟨-, rfl⟩ := runs_pure.mp hr₁
      rfl
    next hm =>
    split at hr₁
    · obtain ⟨-, rfl⟩ := runs_pure.mp hr₁
      rfl
    next hro =>
    split at hr₁
    · obtain ⟨-, rfl⟩ := runs_pure.mp hr₁
      rfl
    next fd hfd =>
    obtain ⟨o, s₂, h₂, hr₂⟩ := runs_bind.mp hr₁
    have hs₂ := (patches_fds s₁.fds).pathStat _ _ _ rfl h₂
    cases o with
    | none =>
        dsimp only at hr₂
        split at hr₂
        · exact (openCreate_fds hr₂ hneg).trans hs₂
        · obtain ⟨-, rfl⟩ := runs_pure.mp hr₂
          exact hs₂
    | some p =>
        dsimp only at hr₂
        split at hr₂
        · obtain ⟨-, rfl⟩ := runs_pure.mp hr₂
          exact hs₂
        next hfile =>
        cases write with
        | false =>
            obtain ⟨u, s₃, -, hr₃⟩ := runs_bind.mp hr₂
            obtain ⟨rfl, -⟩ := runs_pure.mp hr₃
            omega
        | true =>
            rcases runs_openExisting hr₂ with h0 | ⟨s₃, s₄, hfree, hfull⟩
            · omega
            refine absurd ⟨rfl, by simpa using hm, by simpa using hro, by rw [hfd]; rfl,
              p, s₂, s₃, s₄, h₂, by simpa using hfile, hfree, hfull⟩ hno

/-- Of `n` links to follow from cluster `k`, as `fat_get` answers them one after the
other, the one of `last` leads to no cluster. -/
inductive LinkStops : Drv → Nat → Nat → Nat → Prop
  | stop {s s' : Drv} {k n next : Nat} (h : (fatGet k).Runs s next s') (hl : ¬ IsLink next) :
      LinkStops s k (n + 1) k
  | next {s s' : Drv} {k n next last : Nat} (h : (fatGet k).Runs s next s') (hl : IsLink next)
      (hr : LinkStops s' next n last) : LinkStops s k (n + 1) last

/-- The loop of `fat32_seek` leaves the descriptor where the links stop. -/
theorem LinkStops.runs (h : LinkStops s k n last) (fd : Nat) {F : Nat → Fd} (hk : (F fd).curCluster = k) :
    ∃ t, (seekChain fd n).Runs (s.withFds F) false t ∧
      t.fds = Function.update F fd { F fd with curCluster := last } := by
  induction h generalizing F with
  | @stop s s' k n next hget hl =>
      refine ⟨s'.withFds F, runs_bind.mpr ⟨_, _, runs_asks.mpr ⟨rfl, rfl⟩, ?_⟩, ?_⟩
      · refine runs_bind.mpr ⟨next, s'.withFds F, hk ▸ blind_fatGet k F _ _ _ hget, ?_⟩
        rw [if_pos (by unfold IsLink at hl; omega)]
        exact runs_pure.mpr ⟨rfl, rfl⟩
      · rw [← hk]
        exact (Function.update_eq_self fd F).symm
  | @next s s' k n next last hget hl _ ih =>
      obtain ⟨t, hr, ht⟩ := ih (F := Function.update F fd { F fd with curCluster := next })
        (by rw [Function.update_self])
      refine ⟨t, runs_bind.mpr ⟨_, _, runs_asks.mpr ⟨rfl, rfl⟩, ?_⟩, ?_⟩
      · refine runs_bind.mpr ⟨next, s'.withFds F, hk ▸ blind_fatGet k F _ _ _ hget, ?_⟩
        rw [if_neg (by unfold IsLink at hl; omega)]
        exact runs_bind.mpr ⟨(), _, runs_modify.mpr rfl, hr⟩
      · rw [ht, Function.update_idem, Function.update_self]

theorem linkStops_of_runs {F : Nat → Fd} (h : (seekChain fd n).Runs (s.withFds F) false t) :
    ∃ last, LinkStops s (F fd).curCluster n last ∧
      t.fds = Function.update F fd { F fd with curCluster := last } := by
  induction n generalizing s F with
  | zero => cases (runs_pure.mp h).1
  | succ n ih =>
      obtain ⟨c, s₁, h₁, hr₁⟩ := runs_bind.mp h
      obtain ⟨rfl, rfl⟩ := runs_asks.mp h₁
      obtain ⟨next, s₂, h₂, hr₂⟩ := runs_bind.mp hr₁
      have hfds : s₂.fds = F := (patches_fds F).fatGet _ _ _ rfl h₂
      have hget := blind_fatGet _ s.fds _ _ _ h₂
      split at hr₂
      · next hstop =>
        obtain ⟨-, rfl⟩ := runs_pure.mp hr₂
        refine ⟨(F fd).curCluster, .stop hget (by unfold IsLink; omega), ?_⟩
        rw [hfds]
        exact (Function.update_eq_self fd F).symm
      · next hgo =>
        obtain ⟨u, s₃, h₃, hr₃⟩ := runs_bind.mp hr₂
        obtain rfl := runs_modify.mp h₃
        have hrest : (seekChain fd n).Runs ((s₂.withFds s.fds).withFds
            (Function.update s₂.fds fd { F fd with curCluster := next })) false t := hr₃
        rw [hfds] at hrest
        obtain ⟨last, hstops, ht⟩ := ih hrest
        rw [Function.update_self] at hstops
        refine ⟨last, .next hget (by unfold IsLink; omega) hstops, ?_⟩
        rw [ht, Function.update_idem, Function.update_self]

/-- A `fat32_seek` that fails leaves its descriptor where it was. -/
def SeekIntact (s : Drv) (fd : Int) (pos : Nat) : Prop :=
  ∀ r s', (fat32Seek fd pos).Runs s r s' → r < 0 →
    (s'.fds fd.toNat).pos = (s.fds fd.toNat).pos ∧
      (s'.fds fd.toNat).curCluster = (s.fds fd.toNat).curCluster

theorem seek_intact_iff (fd : Int) (pos : Nat) : SeekIntact s fd pos ↔ (s.fdOpen fd = true →
    pos ≤ (s.fds fd.toNat).size → ∀ last,
      LinkStops s (s.fds fd.toNat).cluster (pos / s.vol.clusterSize) last →
        last = (s.fds fd.toNat).curCluster) := by
  obtain ⟨f, hf⟩ : ∃ f, f = s.fds fd.toNat := ⟨_, rfl⟩
  obtain ⟨G, hG⟩ : ∃ G, G = Function.update s.fds fd.toNat { f with curCluster := f.cluster } :=
    ⟨_, rfl⟩
  have hself : G fd.toNat = { f with curCluster := f.cluster } := by
    rw [hG, Function.update_self]
  rw [SeekIntact, ← hf]
  constructor
  · intro hintact hopen hle last hstops
    obtain ⟨t, hr, ht⟩ := hstops.runs fd.toNat (F := G) (by rw [hself])
    have hrun : (fat32Seek fd pos).Runs s Err.notFound.code t := by
      refine runs_bind.mpr ⟨_, _, runs_asks.mpr ⟨rfl, rfl⟩, ?_⟩
      rw [hopen]
      dsimp only
      rw [← hf]
      simp only [Bool.not_true, Bool.false_eq_true, if_false, if_neg (Nat.not_lt.mpr hle)]
      refine runs_bind.mpr ⟨(), s.withFds G, runs_modify.mpr (by rw [hG]; rfl), ?_⟩
      exact runs_bind.mpr ⟨false, t, hr, runs_pure.mpr ⟨rfl, rfl⟩⟩
    have hcur := (hintact _ _ hrun (by decide)).2
    rw [ht, Function.update_self] at hcur
    exact hcur
  · intro hcond r t hr hneg
    obtain ⟨c, s₁, h₁, hr₁⟩ := runs_bind.mp hr
    obtain ⟨rfl, rfl⟩ := runs_asks.mp h₁
    split at hr₁
    · obtain ⟨-, rfl⟩ := runs_pure.mp hr₁
      rw [hf]
      exact ⟨rfl, rfl⟩
    next hopen =>
    dsimp only at hr₁
    rw [← hf] at hr₁
    split at hr₁
    · obtain ⟨-, rfl⟩ := runs_pure.mp hr₁
      rw [hf]
      exact ⟨rfl, rfl⟩
    next hle =>
    obtain ⟨u, s₂, h₂, hr₂⟩ := runs_bind.mp hr₁
    obtain rfl := runs_modify.mp h₂
    obtain ⟨b, s₃, h₃, hr₃⟩ := runs_bind.mp hr₂
    cases b with
    | true =>
        obtain ⟨c, s₄, h₄, hr₄⟩ := runs_bind.mp hr₃
        obtain ⟨u', s₅, -, hr₅⟩ := runs_bind.mp hr₄
        obtain ⟨rfl, -⟩ := runs_pure.mp hr₅
        omega
    | false =>
        obtain ⟨-, rfl⟩ := runs_pure.mp hr₃
        obtain ⟨last, hstops, ht⟩ := linkStops_of_runs (F := G) (by rw [hG]; exact h₃)
        rw [hself] at hstops
        rw [ht, Function.update_self, hself]
        exact ⟨rfl, hcond (by simpa using hopen) (Nat.not_lt.mp hle) last hstops⟩

theorem Holds.fatAlloc_zero_iff {w : View} :
    Holds (Fat32.fatAlloc 0) (fun k _ => k = 0 ↔ w.freeCount = 0) w := by
  rw [← bind_pure (Fat32.fatAlloc 0)]
  apply Holds.fatAlloc (Or.inl rfl)
  · exact fun hall => Holds.pure ⟨fun _ => View.freeCount_eq_zero.mpr hall, fun _ => rfl⟩
  · intro k hk h0 _
    refine Holds.pure ⟨fun hk0 => ?_, fun hzero => ?_⟩
    · have := hk.1
      omega
    · exact absurd h0 (View.freeCount_eq_zero.mp hzero k hk)

/-- On a consistent volume, that is a file without clusters, and no free cluster. -/
theorem View.Layout.opensFull_iff {w : View} {ch : Nat → List Nat} {D : List Dir} {T : List Nat}
    (h : w.Layout ch D T) (hs : s.Ready) (hw : s.toStore.Shows w) :
    OpensFull s path ↔ ∃ p, statPath w.vol ch D path = some p ∧ p.entry.isDir = false ∧
      p.entry.cluster = 0 ∧ w.freeCount = 0 := by
  have hstat : Holds (pathStat path) (fun o w' => o = statPath w.vol ch D path ∧ w' = w) w := by
    rw [← bind_pure (pathStat path)]
    exact Holds.pathStat h (Holds.pure ⟨rfl, rfl⟩)
  obtain ⟨o, s₁, hr, hs₁, w₁, hw₁, rfl, rfl⟩ := hstat.wp hs hw
  constructor
  · rintro ⟨p, t₁, s₂, s₃, hp, hfile, hfree, hfull⟩
    obtain ⟨heq, rfl⟩ := hr.det hp
    refine ⟨p, heq, hfile, ?_⟩
    have hzero : (Fat32.fatAlloc 0).Runs s₂ 0 s₃ := fatAlloc_of_firstFree hfull
    by_cases h0 : p.entry.cluster = 0
    · rw [freeOld, if_neg (by omega)] at hfree
      obtain ⟨-, rfl⟩ := runs_pure.mp hfree
      obtain ⟨-, -, -, hiff⟩ := (Holds.fatAlloc_zero_iff.wp hs₁ hw₁).of_runs hzero
      exact ⟨h0, hiff.mp rfl⟩
    · obtain ⟨dir, i, run, ⟨l, j, hd, -, -, hfind, rfl⟩, -⟩ := exists_pathAt h heq hfile
      have he := (entryAt_iff h.tree.nodup hd).mpr (Listing.find_at hfind)
      have hr₁ := h.cluster_inRange he h0
      have hm := List.mem_append_left T (he.mem_starts (v := w₁.vol) h0)
      have hchain := (h.chains.chain _ hm).1
      rw [freeOld, if_pos hr₁.1] at hfree
      have hgone : Holds (fatFreeChain p.entry.cluster)
          (fun _ w' => w' = w₁.freeChain (ch p.entry.cluster)) w₁ := by
        rw [← bind_pure (fatFreeChain p.entry.cluster)]
        exact Holds.fatFreeChain hchain (Holds.pure rfl)
      obtain ⟨hs₂, w₂, hw₂, rfl⟩ := (hgone.wp hs₁ hw₁).of_runs hfree
      obtain ⟨-, -, -, hiff⟩ := (Holds.fatAlloc_zero_iff.wp hs₂ hw₂).of_runs hzero
      refine absurd ?_ (View.freeCount_eq_zero.mp (hiff.mp rfl) _ hr₁)
      rw [View.fat_freeChain]
      exact if_pos (h.chains.mem_self hm)
  · rintro ⟨p, hp, hfile, h0, hzero⟩
    obtain ⟨k, t, halloc, -, -, -, hiff⟩ := Holds.fatAlloc_zero_iff.wp hs₁ hw₁
    obtain rfl := hiff.mpr hzero
    refine ⟨p, s₁, s₁, t, hp ▸ hr, hfile, ?_, fatAlloc_zero_iff.mp halloc⟩
    rw [freeOld, if_neg (by omega)]
    exact runs_pure.mpr ⟨rfl, rfl⟩

/-- Along the chain of a file the links stop at the last cluster. -/
theorem View.Chain.linkStops_iff {w : View} {a : Nat} {xs : List Nat} (hch : w.Chain a xs)
    (hne : xs ≠ []) (hs : s.Ready) (hw : s.toStore.Shows w) :
    LinkStops s a n last ↔ xs.length ≤ n ∧ last = xs.getLast hne := by
  induction xs generalizing a s n with
  | nil => exact absurd rfl hne
  | cons x ys ih =>
      obtain ⟨rfl, hx, hrest⟩ := Links.Chain.cons_iff.mp hch
      have hget : Holds (fatGet a) (fun next w' => next = w.fat a ∧ w' = w) w := by
        rw [← bind_pure (fatGet a)]
        exact Holds.fatGet hx (Holds.pure ⟨rfl, rfl⟩)
      obtain ⟨next, s₁, hr, hs₁, w₁, hw₁, rfl, rfl⟩ := hget.wp hs hw
      cases ys with
      | nil =>
          obtain ⟨b, hb, rfl⟩ := hrest
          have hstop : ¬ IsLink (w₁.fat a) := by
            unfold IsLink
            omega
          constructor
          · intro hstops
            cases hstops with
            | stop hr' hl => exact ⟨by simp, rfl⟩
            | next hr' hl _ =>
                obtain ⟨rfl, -⟩ := hr.det hr'
                exact absurd hl hstop
          · rintro ⟨hle, rfl⟩
            obtain ⟨m, rfl⟩ : ∃ m, n = m + 1 := ⟨n - 1, by simp at hle; omega⟩
            exact .stop hr hstop
      | cons y zs =>
          obtain ⟨hy, hyr, -⟩ := Links.Chain.cons_iff.mp hrest
          have hgo : IsLink (w₁.fat a) := by
            rw [hy]
            exact ⟨hyr.1, Nat.not_le.mp (hw₁.sound.not_eoc (hw₁.vol ▸ hyr))⟩
          rw [hy] at hrest hgo hr
          have hiff := fun m => ih (n := m) hrest (List.cons_ne_nil y zs) hs₁ hw₁
          rw [List.getLast_cons (List.cons_ne_nil y zs)]
          constructor
          · intro hstops
            cases hstops with
            | stop hr' hl =>
                obtain ⟨rfl, -⟩ := hr.det hr'
                exact absurd hgo hl
            | @next _ _ _ m _ _ hr' hl hstops' =>
                obtain ⟨rfl, rfl⟩ := hr.det hr'
                obtain ⟨hle, hlast⟩ := (hiff m).mp hstops'
                exact ⟨Nat.succ_le_succ hle, hlast⟩
          · rintro ⟨hle, hlast⟩
            obtain ⟨m, rfl⟩ : ∃ m, n = m + 1 := ⟨n - 1, by simp at hle; omega⟩
            exact .next hr hgo ((hiff m).mpr ⟨Nat.le_of_succ_le_succ hle, hlast⟩)

/-- What fails leaves the descriptors as they were, exactly where an open for writing
finds a free cluster for the file that it cuts off, and a seek that runs out of links
does so on the cluster where the descriptor is. -/
theorem fails_intact_iff (s : Drv) (path : CStr) (write : Bool) (fd : Int) (pos : Nat) :
    (OpenIntact s path write ↔ ¬ (write = true ∧ s.volMounted = true ∧
      s.volReadonly = false ∧ s.freeFd.isSome ∧ OpensFull s path)) ∧
    (SeekIntact s fd pos ↔ (s.fdOpen fd = true → pos ≤ (s.fds fd.toNat).size → ∀ last,
      LinkStops s (s.fds fd.toNat).cluster (pos / s.vol.clusterSize) last →
        last = (s.fds fd.toNat).curCluster)) :=
  ⟨open_intact_iff write, seek_intact_iff fd pos⟩

/-- Three clusters: the root directory with the files `A`, which fills the other two, and
`B`, which has none. -/
def fullVol : Vol := ⟨0, 1, 1, 1, 2, 1, 2, 3⟩

def full : Drv :=
  { unmounted 5 fun lba =>
      if lba = 1 then
        (((Block.zero 512).patch 8 (leBytes 4 0x0FFFFFFF)).patch 12 (leBytes 4 4)).patch 16
          (leBytes 4 0x0FFFFFFF)
      else if lba = 2 then
        ((Block.zero 512).patch 0 (shortEntry (padTo 11 [0x41]) 0x20 3 1024).toList).patch 32
          (shortEntry (padTo 11 [0x42]) 0x20 0 0).toList
      else Block.zero 512 with
    vol := fullVol
    volMounted := true }

theorem full_open_write : ((fat32Open [0x2F, 0x42] true).run 10 full).map
    (fun r => (r.1, (r.2.fds 0).isOpen)) = some (-3, true) := by
  decide +kernel

theorem full_open_read : ((fat32Open [0x2F, 0x41] false).run 10 full).map
    (fun r => (r.2.fds 0).curCluster) = some 3 := by
  decide +kernel

theorem full_seek : ((fat32Open [0x2F, 0x41] false >>= fun _ => fat32Seek 0 1024).run 10 full).map
    (fun r => (r.1, (r.2.fds 0).curCluster)) = some (-1, 4) := by
  decide +kernel

/-- Opening `B` for writing keeps a slot, and seeking to the end of `A` moves the
descriptor to the last cluster. -/
theorem not_fails_intact :
    (¬ ∀ calls s, Session (fun _ _ => True) full calls s → ∀ path write, OpenIntact s path write) ∧
    ¬ ∀ calls s, Session (fun _ _ => True) full calls s → ∀ fd pos, SeekIntact s fd pos := by
  constructor
  · intro hclaim
    obtain ⟨⟨r, t⟩, hr, ht⟩ := Option.map_eq_some_iff.mp full_open_write
    simp only [Prod.mk.injEq] at ht
    obtain ⟨hneg, hopen⟩ := ht
    have hfds := hclaim [] full (.nil full) [0x2F, 0x42] true r t ⟨10, hr⟩ (by rw [hneg]; decide)
    rw [hfds] at hopen
    cases hopen
  · intro hclaim
    obtain ⟨⟨r, t⟩, hr, ht⟩ := Option.map_eq_some_iff.mp full_seek
    simp only [Prod.mk.injEq] at ht
    obtain ⟨hneg, hlast⟩ := ht
    obtain ⟨fd, s, hs, hseek⟩ := runs_bind.mp ⟨10, hr⟩
    obtain ⟨⟨fd', s'⟩, hr', ht'⟩ := Option.map_eq_some_iff.mp full_open_read
    obtain ⟨rfl, rfl⟩ := hs.det ⟨10, hr'⟩
    have hrun : (ApiCall.open_ [0x2F, 0x41] false).run.Runs full () s :=
      runs_bind.mpr ⟨fd, s, hs, runs_pure.mpr ⟨rfl, rfl⟩⟩
    have hcur := (hclaim [.open_ [0x2F, 0x41] false] s (.cons trivial hrun (.nil s)) 0 1024 r t hseek
      (by rw [hneg]; decide)).2
    change (s.fds 0).curCluster = 3 at ht'
    rw [Int.toNat_zero] at hcur
    rw [ht', hlast] at hcur
    cases hcur

end Chimaera.Fat32
