/-
What every operation of the driver preserves, on a device that may fail at any
transfer.  A property that survives the few things that the sector layer does
to the driver survives all operations built on it.
-/
import Chimaera.Fat32.Zeroing

namespace Chimaera.Fat32

open Prog Logged

variable {α β : Type} {I : Drv → Prop} {P : ZeroWrite → Prop}

/-- Survives reading: a transfer is counted, a dirty cache is flushed, and a
clean cache is loaded. -/
structure Reads (I : Drv → Prop) : Prop where
  tick : ∀ s, I s → I { s with ataOps := s.ataOps + 1 }
  load : ∀ s lba, I s → s.secCacheDirty = false → s.secCacheLba ≠ lba →
    I { s with
      ataOps := s.ataOps + 1
      secCache := s.disk (lba % 268435456)
      secCacheLba := lba }
  flush : ∀ s, I s → s.secCacheDirty = true →
    I { s with
      toStore := s.toStore.put (s.secCacheLba % 268435456) s.secCache
      ataOps := s.ataOps + 1
      secCacheDirty := false }

/-- Survives changes of the cached sector as well. -/
structure Patches (I : Drv → Prop) : Prop extends Reads I where
  patch : ∀ s (f : Sector → Sector), I s → I { s with secCache := f s.secCache, secCacheDirty := true }

/-- Survives the zeroing of sectors past the cache, as long as it is as `P` says. -/
structure Allocs (P : ZeroWrite → Prop) (I : Drv → Prop) : Prop extends Patches I where
  zero : ∀ s lba, I s → P ⟨s.secCacheLba, lba⟩ → I { s with
    toStore := s.toStore.put (lba % 268435456) (Block.zero 512)
    ataOps := s.ataOps + 1 }

/-- Survives everything that the public operations are made of. -/
structure Drives (P : ZeroWrite → Prop) (I : Drv → Prop) : Prop extends Allocs P I where
  setFd : ∀ s fd f, I s → I { s with toStore := s.toStore.setFd fd f }
  heap : ∀ s heapPtr, I s → I { s with heapPtr }

/-- Survives the walks and repairs of the consistency checker as well. -/
structure Repairs (P : ZeroWrite → Prop) (I : Drv → Prop) : Prop extends Drives P I where
  readonly : ∀ s, I s → I { s with volReadonly := true }

/-- Survives any transfer past the cache. -/
structure Checks (I : Drv → Prop) : Prop extends Repairs (fun _ => True) I where
  write : ∀ s lba b, I s → I { s with
    toStore := s.toStore.put (lba % 268435456) b
    ataOps := s.ataOps + 1 }

theorem reads_still (c : Store) : Reads fun s => s.toStore = c ∧ s.secCacheDirty = false where
  tick _ h := h
  load _ _ h _ _ := h
  flush s h hd := by
    rw [h.2] at hd
    cases hd

theorem runs_ataRead {lba : Nat} {o : Option Sector} {s s' : Drv}
    (h : (ataRead lba).Runs s o s') :
    (o = none ∧ s' = s) ∨ (o = none ∧ s' = { s with ataOps := s.ataOps + 1 }) ∨
      (o = some (s.disk (lba % 268435456)) ∧ s' = { s with ataOps := s.ataOps + 1 }) := by
  rw [ataRead, runs_bind] at h
  obtain ⟨d, s₁, h₁, h⟩ := h
  obtain ⟨rfl, rfl⟩ := runs_asks.mp h₁
  split at h
  · obtain ⟨u, s₂, h₂, h⟩ := runs_bind.mp h
    obtain rfl := runs_modify.mp h₂
    split at h
    · obtain ⟨rfl, rfl⟩ := runs_pure.mp h
      exact Or.inr (Or.inr ⟨rfl, rfl⟩)
    · obtain ⟨rfl, rfl⟩ := runs_pure.mp h
      exact Or.inr (Or.inl ⟨rfl, rfl⟩)
  · obtain ⟨rfl, rfl⟩ := runs_pure.mp h
    exact Or.inl ⟨rfl, rfl⟩

theorem runs_ataWrite {lba : Nat} {b : Sector} {o : Bool} {s s' : Drv}
    (h : (ataWrite lba b).Runs s o s') :
    (o = false ∧ s' = s) ∨ (o = false ∧ s' = { s with ataOps := s.ataOps + 1 }) ∨
      (o = true ∧ s' = { s with
        toStore := s.toStore.put (lba % 268435456) b
        ataOps := s.ataOps + 1 }) := by
  rw [ataWrite, runs_bind] at h
  obtain ⟨d, s₁, h₁, h⟩ := h
  obtain ⟨rfl, rfl⟩ := runs_asks.mp h₁
  split at h
  · obtain ⟨u, s₂, h₂, h⟩ := runs_bind.mp h
    obtain rfl := runs_modify.mp h₂
    split at h
    · obtain ⟨u', s₃, h₃, h⟩ := runs_bind.mp h
      obtain rfl := runs_modify.mp h₃
      obtain ⟨rfl, rfl⟩ := runs_pure.mp h
      exact Or.inr (Or.inr ⟨rfl, rfl⟩)
    · obtain ⟨rfl, rfl⟩ := runs_pure.mp h
      exact Or.inr (Or.inl ⟨rfl, rfl⟩)
  · obtain ⟨rfl, rfl⟩ := runs_pure.mp h
    exact Or.inl ⟨rfl, rfl⟩

/-- A flush that answers `true` leaves the cache clean. -/
theorem runs_secFlush {o : Bool} {s s' : Drv} (h : secFlush.Runs s o s') :
    (o = true ∧ s' = s ∧ s.secCacheDirty = false) ∨
      (o = false ∧ s.secCacheDirty = true ∧ (s' = s ∨ s' = { s with ataOps := s.ataOps + 1 })) ∨
      (o = true ∧ s.secCacheDirty = true ∧ s' = { s with
        toStore := s.toStore.put (s.secCacheLba % 268435456) s.secCache
        ataOps := s.ataOps + 1
        secCacheDirty := false }) := by
  rw [secFlush, runs_bind] at h
  obtain ⟨d, s₁, h₁, h⟩ := h
  obtain ⟨rfl, rfl⟩ := runs_asks.mp h₁
  split at h
  · next hd =>
    obtain ⟨o', s₂, h₂, hrest⟩ := runs_bind.mp h
    rcases runs_ataWrite h₂ with ⟨rfl, rfl⟩ | ⟨rfl, rfl⟩ | ⟨rfl, rfl⟩
    · obtain ⟨rfl, rfl⟩ := runs_pure.mp hrest
      exact Or.inr (Or.inl ⟨rfl, hd, Or.inl rfl⟩)
    · obtain ⟨rfl, rfl⟩ := runs_pure.mp hrest
      exact Or.inr (Or.inl ⟨rfl, hd, Or.inr rfl⟩)
    · rw [if_pos rfl] at hrest
      obtain ⟨u, s₃, h₃, hend⟩ := runs_bind.mp hrest
      obtain rfl := runs_modify.mp h₃
      obtain ⟨rfl, rfl⟩ := runs_pure.mp hend
      exact Or.inr (Or.inr ⟨rfl, hd, rfl⟩)
  · next hd =>
    obtain ⟨rfl, rfl⟩ := runs_pure.mp h
    exact Or.inl ⟨rfl, rfl, by simpa using hd⟩

/-- A read that answers `true` leaves the sector in the cache. -/
theorem runs_secRead {lba : Nat} {o : Bool} {s s' : Drv} (h : (secRead lba).Runs s o s') :
    (o = true ∧ s' = s ∧ s.secCacheLba = lba) ∨
      (s.secCacheLba ≠ lba ∧ ∃ o' s₁, secFlush.Runs s o' s₁ ∧
        ((o' = false ∧ o = false ∧ s' = s₁) ∨
          (o' = true ∧ o = false ∧ (s' = s₁ ∨ s' = { s₁ with ataOps := s₁.ataOps + 1 })) ∨
          (o' = true ∧ o = true ∧ s' = { s₁ with
            ataOps := s₁.ataOps + 1
            secCache := s₁.disk (lba % 268435456)
            secCacheLba := lba }))) := by
  rw [secRead, runs_bind] at h
  obtain ⟨d, s₁, h₁, h⟩ := h
  obtain ⟨rfl, rfl⟩ := runs_asks.mp h₁
  split at h
  · next heq =>
    obtain ⟨rfl, rfl⟩ := runs_pure.mp h
    exact Or.inl ⟨rfl, rfl, heq⟩
  · next hne =>
    obtain ⟨o', s₂, h₂, h⟩ := runs_bind.mp h
    refine Or.inr ⟨hne, o', s₂, h₂, ?_⟩
    cases o' with
    | false =>
        obtain ⟨rfl, rfl⟩ := runs_pure.mp h
        exact Or.inl ⟨rfl, rfl, rfl⟩
    | true =>
        rw [if_pos rfl] at h
        obtain ⟨ob, s₃, h₃, hrest⟩ := runs_bind.mp h
        rcases runs_ataRead h₃ with ⟨rfl, rfl⟩ | ⟨rfl, rfl⟩ | ⟨rfl, rfl⟩
        · obtain ⟨rfl, rfl⟩ := runs_pure.mp hrest
          exact Or.inr (Or.inl ⟨rfl, rfl, Or.inl rfl⟩)
        · obtain ⟨rfl, rfl⟩ := runs_pure.mp hrest
          exact Or.inr (Or.inl ⟨rfl, rfl, Or.inr rfl⟩)
        · obtain ⟨u, s₄, h₄, hend⟩ := runs_bind.mp hrest
          obtain rfl := runs_modify.mp h₄
          obtain ⟨rfl, rfl⟩ := runs_pure.mp hend
          exact Or.inr (Or.inr ⟨rfl, rfl, rfl⟩)

theorem preserves_getStore_bind {f : Store → Prog Drv α} (hf : ∀ c, Preserves I (f c)) :
    Preserves I (getStore >>= f) :=
  Preserves.asks.bind hf

theorem preserves_modifyStore {f : Store → Store}
    (h : ∀ s, I s → I { s with toStore := f s.toStore }) : Preserves I (modifyStore f) :=
  Preserves.modify h

theorem preserves_cached_bind {f : Sector → Prog Drv α} (hf : ∀ b, Preserves I (f b)) :
    Preserves I (cached >>= f) :=
  Preserves.asks.bind hf

namespace Reads

variable (h : Reads I)
include h

theorem secFlush : Preserves I secFlush := by
  intro s o s' hs hr
  rcases runs_secFlush hr with ⟨-, rfl, -⟩ | ⟨-, -, rfl | rfl⟩ | ⟨-, hd, rfl⟩
  · exact hs
  · exact hs
  · exact h.tick s hs
  · exact h.flush s hs hd

theorem secRead {lba : Nat} : Preserves I (secRead lba) := by
  intro s o s' hs hr
  rcases runs_secRead hr with ⟨-, rfl, -⟩ | ⟨hne, o', s₁, hf, hcase⟩
  · exact hs
  · have hs₁ := h.secFlush s o' s₁ hs hf
    have hclean : o' = true → s₁.secCacheDirty = false ∧ s₁.secCacheLba = s.secCacheLba := by
      rintro rfl
      rcases runs_secFlush hf with ⟨-, rfl, hd⟩ | ⟨hfalse, -⟩ | ⟨-, -, rfl⟩
      · exact ⟨hd, rfl⟩
      · cases hfalse
      · exact ⟨rfl, rfl⟩
    rcases hcase with ⟨-, -, rfl⟩ | ⟨-, -, rfl | rfl⟩ | ⟨ho, -, rfl⟩
    · exact hs₁
    · exact hs₁
    · exact h.tick s₁ hs₁
    · obtain ⟨hd, hl⟩ := hclean ho
      exact h.load s₁ lba hs₁ hd (by rw [hl]; exact hne)

theorem fatGet {k : Nat} : Preserves I (fatGet k) := by
  refine preserves_getStore_bind fun c => h.secRead.bind fun b => ?_
  split
  · exact preserves_cached_bind fun _ => Preserves.pure
  · exact Preserves.pure

theorem fsckDirIterNext {it : DirIter} : Preserves I (fsckDirIterNext it) := by
  refine preserves_getStore_bind fun c => h.secRead.bind fun b => ?_
  split
  · refine preserves_cached_bind fun b' => ?_
    dsimp only
    split
    · exact Preserves.pure
    · split
      · refine h.fatGet.bind fun next => ?_
        split
        · exact Preserves.pure
        · exact Preserves.pure
      · exact Preserves.pure
  · exact Preserves.pure

theorem deleteRange_of (hdel : ∀ it, Preserves I (fsckDeleteEntry it)) {first n i : Nat}
    {it : DirIter} : Preserves I (deleteRange first n i it) := by
  induction n generalizing i it with
  | zero => exact Preserves.pure
  | succ n ih =>
      refine h.fsckDirIterNext.bind fun o => ?_
      split
      · exact Preserves.pure
      · split
        · exact ih
        · exact (hdel _).bind fun _ => ih

theorem dirReadEntry {pos : DirPos} : Preserves I (dirReadEntry pos) := by
  refine h.secRead.bind fun b => ?_
  split
  · exact preserves_cached_bind fun _ => Preserves.pure
  · exact Preserves.pure

theorem dirNext {pos : DirPos} : Preserves I (dirNext pos) := by
  refine preserves_getStore_bind fun c => ?_
  dsimp only
  split
  · exact Preserves.pure
  · split
    · refine h.fatGet.bind fun next => ?_
      split
      · exact Preserves.pure
      · exact Preserves.pure
    · exact Preserves.pure

theorem scanDir {L R : Type} {step : L → DirPos → DirEntry → L ⊕ R} {st : L} {pos : DirPos} :
    Preserves I (scanDir step st pos) := by
  refine Preserves.loop (fun p => h.dirReadEntry.bind fun o => ?_) _
  cases o with
  | none => exact Preserves.pure
  | some e =>
      dsimp only
      split
      · exact Preserves.pure
      · refine h.dirNext.bind fun next => ?_
        split
        · exact Preserves.pure
        · exact Preserves.pure

theorem dir83Exists {k : Nat} {name83 : List UInt8} : Preserves I (dir83Exists k name83) := by
  refine preserves_getStore_bind fun c => h.scanDir.bind fun r => ?_
  split
  · exact Preserves.pure
  · exact Preserves.pure

theorem make83Unique {k : Nat} {name : CStr} : Preserves I (make83Unique k name) := by
  refine h.dir83Exists.bind fun b => ?_
  split
  · refine (Preserves.forUntil (fun n => h.dir83Exists.bind fun b' => ?_) _ _).bind
      fun _ => Preserves.pure
    split
    · exact Preserves.pure
    · exact Preserves.pure
  · exact Preserves.pure

theorem dirFind {k : Nat} {name : CStr} : Preserves I (dirFind k name) := by
  refine preserves_getStore_bind fun c => h.scanDir.bind fun r => ?_
  split
  · exact Preserves.pure
  · exact Preserves.pure

theorem pathResolveParent {path : CStr} : Preserves I (pathResolveParent path) := by
  refine preserves_getStore_bind fun c => ?_
  split
  · refine Preserves.loop (fun p => ?_) _
    unfold resolveStep
    split
    · exact Preserves.pure
    · split
      · exact Preserves.pure
      · refine h.dirFind.bind fun o => ?_
        split
        · exact Preserves.pure
        · split
          · exact Preserves.pure
          · exact Preserves.pure
  · exact Preserves.pure

theorem pathStat {path : CStr} : Preserves I (pathStat path) := by
  refine preserves_getStore_bind fun c => ?_
  split
  · exact Preserves.pure
  · refine h.pathResolveParent.bind fun p => ?_
    dsimp only
    split
    · exact Preserves.pure
    · refine h.dirFind.bind fun o => ?_
      split
      · exact Preserves.pure
      · exact Preserves.pure

theorem readdirCluster {k : Nat} : Preserves I (readdirCluster k) := by
  refine preserves_getStore_bind fun c => h.scanDir.bind fun r => ?_
  split
  · exact Preserves.pure
  · exact Preserves.pure
  · exact Preserves.pure

theorem fat32Readdir {path : CStr} : Preserves I (fat32Readdir path) := by
  refine preserves_getStore_bind fun c => ?_
  split
  · exact Preserves.pure
  · refine h.pathStat.bind fun o => ?_
    split
    · exact Preserves.pure
    · split
      · exact Preserves.pure
      · exact h.readdirCluster.bind fun _ => Preserves.pure

theorem fat32Stat {path : CStr} : Preserves I (fat32Stat path) := by
  refine preserves_getStore_bind fun c => ?_
  split
  · exact Preserves.pure
  · refine h.pathStat.bind fun o => ?_
    split
    · exact Preserves.pure
    · exact Preserves.pure

theorem fat32Filesize {path : CStr} : Preserves I (fat32Filesize path) := by
  refine h.pathStat.bind fun o => ?_
  split
  · exact Preserves.pure
  · split
    · exact Preserves.pure
    · exact Preserves.pure

end Reads

namespace Patches

variable (h : Patches I)
include h

theorem secUpdate {f : Sector → Sector} : Preserves I (secUpdate f) :=
  Preserves.modify fun s hs => h.patch s f hs

theorem fatSetCopy {v : Vol} {k x f : Nat} : Preserves I (fatSetCopy v k x f) := by
  refine h.secRead.bind fun b => ?_
  split
  · refine h.secUpdate.bind fun _ => h.secFlush.bind fun b' => ?_
    split
    · exact Preserves.pure
    · exact Preserves.pure
  · exact Preserves.pure

theorem fatSet {k x : Nat} : Preserves I (fatSet k x) :=
  preserves_getStore_bind fun _ =>
    (Preserves.forUntil (fun _ => h.fatSetCopy) _ _).bind fun _ => Preserves.pure

theorem fatFreeChain {k : Nat} : Preserves I (fatFreeChain k) := by
  refine Preserves.loop (fun c => ?_) _
  split
  · exact h.fatGet.bind fun _ => h.fatSet.bind fun _ => Preserves.pure
  · exact Preserves.pure

theorem dirWriteEntry {pos : DirPos} {e : DirEntry} : Preserves I (dirWriteEntry pos e) := by
  refine h.secRead.bind fun b => ?_
  split
  · exact h.secUpdate.bind fun _ => h.secFlush
  · exact Preserves.pure

theorem writeRun {name : CStr} {sum : UInt8} {count i : Nat} {pos : DirPos} :
    Preserves I (writeRun name sum count i pos) := by
  induction i generalizing pos with
  | zero => exact Preserves.pure
  | succ i ih => exact h.dirWriteEntry.bind fun _ => h.dirNext.bind fun _ => ih

theorem unlinkLoop {last del : DirPos} : Preserves I (loop (unlinkStep last) del) := by
  refine Preserves.loop (fun del => h.secRead.bind fun b => ?_) _
  split
  · refine h.secUpdate.bind fun _ => h.secFlush.bind fun _ => ?_
    split
    · exact Preserves.pure
    · refine h.dirNext.bind fun next => ?_
      split
      · exact Preserves.pure
      · exact Preserves.pure
  · exact Preserves.pure

theorem fat32Unlink {path : CStr} : Preserves I (fat32Unlink path) := by
  refine preserves_getStore_bind fun c => ?_
  split
  · exact Preserves.pure
  · refine h.pathResolveParent.bind fun p => ?_
    dsimp only
    split
    · exact Preserves.pure
    · refine h.dirFind.bind fun o => ?_
      split
      · exact Preserves.pure
      · split
        · exact Preserves.pure
        · split
          · exact h.fatFreeChain.bind fun _ => h.unlinkLoop.bind fun _ => Preserves.pure
          · exact h.unlinkLoop.bind fun _ => Preserves.pure

end Patches

namespace Allocs

variable (h : Allocs P I)
include h

theorem zeroSectors {lba n : Nat} : Keeps P I (zeroSectorsLogged lba n) := by
  refine (Keeps.forUntil (fun i => ?_) _ _).bind fun _ => Keeps.pure
  intro s o s' hs hlog hr
  obtain ⟨held, s₁, h₁, hr⟩ := erase_runs_bind.mp hr
  have hlog₁ := (logs_bind.mp hlog).2 held s₁ h₁
  obtain ⟨rfl, rfl⟩ := runs_asks.mp h₁
  obtain ⟨ok, s₂, h₂, hr⟩ := erase_runs_bind.mp hr
  have hlog₂ := (logs_bind.mp hlog₁).2 ok s₂ h₂
  rcases runs_ataWrite h₂ with ⟨rfl, rfl⟩ | ⟨rfl, rfl⟩ | ⟨rfl, rfl⟩
  · obtain ⟨-, rfl⟩ := runs_pure.mp hr
    exact hs
  · obtain ⟨-, rfl⟩ := runs_pure.mp hr
    exact h.tick _ hs
  · have hP := logs_tell.mp (logs_bind.mp hlog₂).1 _ (List.mem_singleton_self _)
    obtain ⟨-, rfl⟩ := runs_pure.mp hr
    exact h.zero _ _ hs hP

/-- Allocation writes the sectors of the new cluster past the cache. -/
theorem fatAlloc {prev : Nat} : Keeps P I (fatAllocLogged prev) := by
  refine Keeps.lift_bind Preserves.asks fun c => Keeps.bind ?_ fun _ => Keeps.pure
  refine Keeps.forUntil (fun k => Keeps.lift_bind h.fatGet fun x => ?_) _ _
  split
  · refine Keeps.lift_bind h.fatSet fun _ => ?_
    dsimp only
    split
    · exact Keeps.pure.bind fun _ => h.zeroSectors.bind fun _ => Keeps.pure
    · exact Keeps.lift_bind h.fatSet fun _ => h.zeroSectors.bind fun _ => Keeps.pure
  · exact Keeps.pure

theorem findSpace {k need : Nat} : Keeps P I (findSpaceLogged k need) := by
  refine Keeps.lift_bind Preserves.asks fun c => Keeps.lift_bind h.scanDir fun r => ?_
  split
  · exact Keeps.pure
  · exact Keeps.pure
  · refine h.fatAlloc.bind fun fresh => ?_
    split
    · exact Keeps.pure
    · exact Keeps.pure

theorem dirAddEntry {k : Nat} {name : CStr} {attr : UInt8} {first size : Nat} :
    Keeps P I (dirAddEntryLogged k name attr first size) := by
  refine Keeps.lift_bind h.make83Unique fun name83 => h.findSpace.bind fun o => ?_
  split
  · exact Keeps.pure
  · exact Keeps.lift_bind h.writeRun fun _ => Keeps.lift_bind h.dirWriteEntry fun _ => Keeps.pure

end Allocs

namespace Drives

variable (h : Drives P I)
include h

theorem putFd {fd : Nat} {f : Fd} : Preserves I (putFd fd f) :=
  preserves_modifyStore fun s hs => h.setFd s fd f hs

theorem kmalloc {size : Nat} : Preserves I (kmalloc size) := by
  refine preserves_getStore_bind fun c => ?_
  dsimp only
  split
  · exact Preserves.pure
  · exact (preserves_modifyStore fun s hs => h.heap s _ hs).bind fun _ => Preserves.pure

theorem openExisting {fd : Nat} {write : Bool} {p : PathInfo} :
    Keeps P I (openExistingLogged fd write p) := by
  refine Keeps.lift_bind h.putFd fun _ => ?_
  split
  · have hrest : Keeps P I (do
        let fresh ← fatAllocLogged 0
        if fresh = 0 then pure Err.full.code
        else
          lift (Fat32.putFd fd
            ⟨true, write, fresh, p.dirCluster, p.pos.lba, p.pos.off, 0, 0, fresh⟩)
          let _ ← lift (Fat32.dirWriteEntry p.pos
            (DirEntry.setSize (DirEntry.setCluster p.entry fresh) 0))
          pure (fd : Int)) := by
      refine h.fatAlloc.bind fun fresh => ?_
      split
      · exact Keeps.pure
      · exact Keeps.lift_bind h.putFd fun _ => Keeps.lift_bind h.dirWriteEntry fun _ => Keeps.pure
    dsimp only
    split
    · exact Keeps.lift_bind h.fatFreeChain fun _ => hrest
    · exact hrest
  · exact Keeps.pure

theorem openCreate {fd : Nat} {path : CStr} : Keeps P I (openCreateLogged fd path) := by
  refine Keeps.lift_bind h.pathResolveParent fun p => ?_
  dsimp only
  split
  · exact Keeps.pure
  · refine h.fatAlloc.bind fun fresh => ?_
    split
    · exact Keeps.pure
    · refine h.dirAddEntry.bind fun o => ?_
      split
      · exact Keeps.lift_bind h.fatFreeChain fun _ => Keeps.pure
      · exact Keeps.lift_bind h.putFd fun _ => Keeps.pure

theorem fat32Open {path : CStr} {write : Bool} : Keeps P I (fat32OpenLogged path write) := by
  refine Keeps.lift_bind Preserves.asks fun c => ?_
  split
  · exact Keeps.pure
  · split
    · exact Keeps.pure
    · split
      · exact Keeps.pure
      · refine Keeps.lift_bind h.pathStat fun o => ?_
        split
        · split
          · exact Keeps.pure
          · exact h.openExisting
        · split
          · exact h.openCreate
          · exact Keeps.pure

theorem fat32Read {fd : Int} {len : Nat} : Preserves I (fat32Read fd len) := by
  refine preserves_getStore_bind fun c => ?_
  split
  · exact Preserves.pure
  · dsimp only
    split
    · exact Preserves.pure
    · refine (Preserves.loop (fun out => preserves_getStore_bind fun c' => ?_) _).bind
        fun _ => Preserves.pure
      dsimp only
      split
      · exact Preserves.pure
      · split
        · exact Preserves.pure
        · refine h.secRead.bind fun b => ?_
          split
          · refine preserves_cached_bind fun b' => h.putFd.bind fun _ => ?_
            split
            · exact h.fatGet.bind fun _ => h.putFd.bind fun _ => Preserves.pure
            · exact Preserves.pure
          · exact Preserves.pure

theorem writeChunk {fd written : Nat} {buf : List UInt8} {v : Vol} {f : Fd} :
    Preserves I (writeChunk fd buf written v f) := by
  refine h.putFd.bind fun _ => h.secRead.bind fun b => ?_
  split
  · refine h.secUpdate.bind fun _ => h.secFlush.bind fun b' => ?_
    split
    · exact h.putFd.bind fun _ => Preserves.pure
    · exact Preserves.pure
  · exact Preserves.pure

theorem writeNext {cur : Nat} : Keeps P I (writeNextLogged cur) := by
  refine Keeps.lift_bind h.fatGet fun next => ?_
  split
  · exact h.fatAlloc
  · exact Keeps.pure

theorem fat32Write {fd : Int} {buf : List UInt8} : Keeps P I (fat32WriteLogged fd buf) := by
  refine Keeps.lift_bind Preserves.asks fun c => ?_
  split
  · exact Keeps.pure
  · refine (Keeps.loop (fun written => Keeps.lift_bind Preserves.asks fun c' => ?_) _).bind
      fun _ => Keeps.pure
    dsimp only
    split
    · exact Keeps.pure
    · split
      · refine h.writeNext.bind fun cur => ?_
        split
        · exact Keeps.pure
        · exact Keeps.lift h.writeChunk
      · exact Keeps.lift h.writeChunk

theorem seekChain {fd n : Nat} : Preserves I (seekChain fd n) := by
  induction n with
  | zero => exact Preserves.pure
  | succ n ih =>
      refine preserves_getStore_bind fun c => h.fatGet.bind fun next => ?_
      split
      · exact Preserves.pure
      · exact h.putFd.bind fun _ => ih

theorem fat32Seek {fd : Int} {pos : Nat} : Preserves I (fat32Seek fd pos) := by
  refine preserves_getStore_bind fun c => ?_
  split
  · exact Preserves.pure
  · dsimp only
    split
    · exact Preserves.pure
    · refine h.putFd.bind fun _ => h.seekChain.bind fun b => ?_
      split
      · exact preserves_getStore_bind fun _ => h.putFd.bind fun _ => Preserves.pure
      · exact Preserves.pure

theorem fat32Close {fd : Int} : Preserves I (fat32Close fd) := by
  refine preserves_getStore_bind fun c => ?_
  split
  · exact Preserves.pure
  · dsimp only
    split
    · refine h.secRead.bind fun b => ?_
      split
      · exact h.secUpdate.bind fun _ => h.secFlush.bind fun _ => h.putFd
      · exact h.putFd
    · exact h.putFd

theorem fat32Mkdir {path : CStr} : Keeps P I (fat32MkdirLogged path) := by
  refine Keeps.lift_bind Preserves.asks fun c => ?_
  split
  · exact Keeps.pure
  · refine Keeps.lift_bind h.pathStat fun o => ?_
    split
    · exact Keeps.pure
    · refine Keeps.lift_bind h.pathResolveParent fun p => ?_
      dsimp only
      split
      · exact Keeps.pure
      · refine h.fatAlloc.bind fun fresh => ?_
        split
        · exact Keeps.pure
        · refine Keeps.lift_bind h.secRead fun b => ?_
          split
          · refine Keeps.lift_bind h.secUpdate fun _ => Keeps.lift_bind h.secFlush fun _ =>
              h.dirAddEntry.bind fun o' => ?_
            split
            · exact Keeps.lift_bind h.fatFreeChain fun _ => Keeps.pure
            · exact Keeps.pure
          · exact Keeps.lift_bind h.fatFreeChain fun _ => Keeps.pure

theorem fat32Copy {src dst : CStr} : Keeps P I (fat32CopyLogged src dst) := by
  refine Keeps.lift_bind Preserves.asks fun c => ?_
  split
  · exact Keeps.pure
  · refine h.fat32Open.bind fun srcFd => ?_
    split
    · exact Keeps.pure
    · refine h.fat32Open.bind fun dstFd => ?_
      split
      · exact Keeps.lift_bind h.fat32Close fun _ => Keeps.pure
      · refine (Keeps.loop (fun _ => Keeps.lift_bind h.fat32Read fun r => ?_) _).bind fun _ =>
          Keeps.lift_bind h.fat32Close fun _ => Keeps.lift_bind h.fat32Close fun _ => Keeps.pure
        dsimp only
        split
        · exact h.fat32Write.bind fun _ => Keeps.pure
        · exact Keeps.pure

theorem fat32Rename {src dst : CStr} : Keeps P I (fat32RenameLogged src dst) := by
  refine Keeps.lift_bind Preserves.asks fun c => ?_
  split
  · exact Keeps.pure
  · refine h.fat32Copy.bind fun err => ?_
    split
    · exact Keeps.pure
    · exact Keeps.lift h.fat32Unlink

theorem fat32WriteFile {path : CStr} {data : List UInt8} :
    Keeps P I (fat32WriteFileLogged path data) := by
  refine h.fat32Open.bind fun fd => ?_
  split
  · exact Keeps.pure
  · exact h.fat32Write.bind fun _ => Keeps.lift_bind h.fat32Close fun _ => Keeps.pure

theorem fat32AppendFile {path : CStr} {data : List UInt8} :
    Keeps P I (fat32AppendFileLogged path data) := by
  refine Keeps.lift_bind h.fat32Filesize fun sz => ?_
  split
  · exact h.fat32WriteFile
  · refine Keeps.lift_bind h.kmalloc fun b => ?_
    split
    · refine h.fat32Open.bind fun fd => ?_
      dsimp only
      split
      · exact Keeps.lift_bind h.fat32Read fun _ => Keeps.lift_bind h.fat32Close fun _ =>
          Keeps.pure.bind fun _ => h.fat32WriteFile
      · exact Keeps.pure.bind fun _ => h.fat32WriteFile
    · exact Keeps.pure

theorem fat32ReadFile {path : CStr} : Keeps P I (fat32ReadFileLogged path) := by
  refine Keeps.lift_bind h.fat32Filesize fun sz => ?_
  split
  · exact Keeps.pure
  · refine Keeps.lift_bind h.kmalloc fun b => ?_
    split
    · refine h.fat32Open.bind fun fd => ?_
      split
      · exact Keeps.pure
      · exact Keeps.lift_bind h.fat32Read fun _ => Keeps.lift_bind h.fat32Close fun _ => Keeps.pure
    · exact Keeps.pure

end Drives

inductive ApiCall where
  | open_ (path : CStr) (write : Bool)
  | read (fd : Int) (len : Nat)
  | write (fd : Int) (buf : List UInt8)
  | seek (fd : Int) (pos : Nat)
  | close (fd : Int)
  | mkdir (path : CStr)
  | readdir (path : CStr)
  | stat (path : CStr)
  | unlink (path : CStr)
  | rename (src dst : CStr)
  | copy (src dst : CStr)
  | readFile (path : CStr)
  | writeFile (path : CStr) (data : List UInt8)
  | appendFile (path : CStr) (data : List UInt8)

def ApiCall.run : ApiCall → Prog Drv Unit
  | open_ path w => do let _ ← fat32Open path w
  | read fd len => do let _ ← fat32Read fd len
  | write fd buf => do let _ ← fat32Write fd buf
  | seek fd pos => do let _ ← fat32Seek fd pos
  | close fd => fat32Close fd
  | mkdir path => do let _ ← fat32Mkdir path
  | readdir path => do let _ ← fat32Readdir path
  | stat path => do let _ ← fat32Stat path
  | unlink path => do let _ ← fat32Unlink path
  | rename src dst => do let _ ← fat32Rename src dst
  | copy src dst => do let _ ← fat32Copy src dst
  | readFile path => do let _ ← fat32ReadFile path
  | writeFile path data => do let _ ← fat32WriteFile path data
  | appendFile path data => do let _ ← fat32AppendFile path data

/-- The call with the sectors that it zeroes past the cache. -/
def ApiCall.runLogged : ApiCall → Logged Drv ZeroWrite Unit
  | open_ path w => do let _ ← fat32OpenLogged path w
  | read fd len => do let _ ← lift (fat32Read fd len)
  | write fd buf => do let _ ← fat32WriteLogged fd buf
  | seek fd pos => do let _ ← lift (fat32Seek fd pos)
  | close fd => lift (fat32Close fd)
  | mkdir path => do let _ ← fat32MkdirLogged path
  | readdir path => do let _ ← lift (fat32Readdir path)
  | stat path => do let _ ← lift (fat32Stat path)
  | unlink path => do let _ ← lift (fat32Unlink path)
  | rename src dst => do let _ ← fat32RenameLogged src dst
  | copy src dst => do let _ ← fat32CopyLogged src dst
  | readFile path => do let _ ← fat32ReadFileLogged path
  | writeFile path data => do let _ ← fat32WriteFileLogged path data
  | appendFile path data => do let _ ← fat32AppendFileLogged path data

theorem ApiCall.erase_run (call : ApiCall) : call.runLogged.erase = call.run := by
  cases call with
  | open_ path w => exact erase_bind_eq erase_fat32Open fun _ => erase_pure
  | read fd len => exact erase_bind_eq erase_lift fun _ => erase_pure
  | write fd buf => exact erase_bind_eq erase_fat32Write fun _ => erase_pure
  | seek fd pos => exact erase_bind_eq erase_lift fun _ => erase_pure
  | close fd => exact erase_lift
  | mkdir path => exact erase_bind_eq erase_fat32Mkdir fun _ => erase_pure
  | readdir path => exact erase_bind_eq erase_lift fun _ => erase_pure
  | stat path => exact erase_bind_eq erase_lift fun _ => erase_pure
  | unlink path => exact erase_bind_eq erase_lift fun _ => erase_pure
  | rename src dst => exact erase_bind_eq erase_fat32Rename fun _ => erase_pure
  | copy src dst => exact erase_bind_eq erase_fat32Copy fun _ => erase_pure
  | readFile path => exact erase_bind_eq erase_fat32ReadFile fun _ => erase_pure
  | writeFile path data => exact erase_bind_eq erase_fat32WriteFile fun _ => erase_pure
  | appendFile path data => exact erase_bind_eq erase_fat32AppendFile fun _ => erase_pure

theorem Drives.call (h : Drives P I) (call : ApiCall) : Keeps P I call.runLogged := by
  cases call with
  | open_ path w => exact h.fat32Open.bind fun _ => Keeps.pure
  | read fd len => exact Keeps.lift_bind h.fat32Read fun _ => Keeps.pure
  | write fd buf => exact h.fat32Write.bind fun _ => Keeps.pure
  | seek fd pos => exact Keeps.lift_bind h.fat32Seek fun _ => Keeps.pure
  | close fd => exact Keeps.lift h.fat32Close
  | mkdir path => exact h.fat32Mkdir.bind fun _ => Keeps.pure
  | readdir path => exact Keeps.lift_bind h.fat32Readdir fun _ => Keeps.pure
  | stat path => exact Keeps.lift_bind h.fat32Stat fun _ => Keeps.pure
  | unlink path => exact Keeps.lift_bind h.fat32Unlink fun _ => Keeps.pure
  | rename src dst => exact h.fat32Rename.bind fun _ => Keeps.pure
  | copy src dst => exact h.fat32Copy.bind fun _ => Keeps.pure
  | readFile path => exact h.fat32ReadFile.bind fun _ => Keeps.pure
  | writeFile path data => exact h.fat32WriteFile.bind fun _ => Keeps.pure
  | appendFile path data => exact h.fat32AppendFile.bind fun _ => Keeps.pure

/-- From a state, calls that all meet `ok` lead to another one. -/
inductive Session (ok : Drv → ApiCall → Prop) : Drv → List ApiCall → Drv → Prop
  | nil (s : Drv) : Session ok s [] s
  | cons {s s₁ s' : Drv} {call : ApiCall} {calls : List ApiCall} (hok : ok s call)
      (hcall : call.run.Runs s () s₁) (hrest : Session ok s₁ calls s') :
      Session ok s (call :: calls) s'

/-- A property that every admissible call preserves holds after any sequence. -/
theorem Session.preserves {ok : Drv → ApiCall → Prop}
    (hstep : ∀ s call s', I s → ok s call → call.run.Runs s () s' → I s') {s s' : Drv}
    {calls : List ApiCall} (h : Session ok s calls s') (hs : I s) : I s' := by
  induction h with
  | nil s => exact hs
  | cons hok hcall _ ih => exact ih (hstep _ _ _ hs hok hcall)

namespace Repairs

variable (h : Repairs P I)
include h

theorem fsckDeleteEntry {it : DirIter} : Preserves I (fsckDeleteEntry it) := by
  refine h.secRead.bind fun b => ?_
  split
  · exact h.secUpdate.bind fun _ => h.secFlush
  · exact Preserves.pure

theorem deleteRange {first n i : Nat} {it : DirIter} :
    Preserves I (deleteRange first n i it) :=
  h.deleteRange_of fun _ => h.fsckDeleteEntry

theorem fsckDeleteEntriesRange {first last k : Nat} :
    Preserves I (fsckDeleteEntriesRange first last k) :=
  preserves_getStore_bind fun _ => h.deleteRange

theorem fsckMarkChain {start k i total : Nat} {w : Walk} :
    Preserves I (fsckMarkChain start k i total w) := by
  refine Preserves.loop (fun p => ?_) _
  unfold markStep
  dsimp only
  split
  · split
    · split
      · refine h.fatGet.bind fun next => ?_
        split
        · exact Preserves.pure
        · exact Preserves.pure
      · split
        · exact Preserves.pure
        · exact Preserves.pure
    · refine h.fatGet.bind fun next => ?_
      split
      · exact Preserves.pure
      · exact Preserves.pure
  · exact Preserves.pure

theorem zeroEntryAt {n : Nat} {it : DirIter} : Preserves I (zeroEntryAt n it) := by
  induction n generalizing it with
  | zero =>
      rw [Fat32.zeroEntryAt]
      refine h.fsckDirIterNext.bind fun o => ?_
      split
      · exact Preserves.pure
      · refine h.secRead.bind fun b => ?_
        split
        · exact h.secUpdate.bind fun _ => h.secFlush
        · exact Preserves.pure
  | succ n ih =>
      rw [Fat32.zeroEntryAt]
      refine h.fsckDirIterNext.bind fun o => ?_
      split
      · exact Preserves.pure
      · exact ih

theorem fsckZeroEntryCluster {k i : Nat} : Preserves I (fsckZeroEntryCluster k i) :=
  preserves_getStore_bind fun _ => h.zeroEntryAt

theorem adoptLength {clusterSize total first : Nat} :
    Preserves I (adoptLength clusterSize total first) := by
  refine Preserves.loop (fun p => ?_) _
  dsimp only
  split
  · exact h.fatGet.bind fun _ => Preserves.pure
  · exact Preserves.pure

theorem walkDelete {st : WalkState} {w : Walk} : Preserves I (walkDelete st w) :=
  h.fsckDeleteEntry.bind fun _ => Preserves.pure

theorem walkLfn {st : WalkState} {e : DirEntry} : Preserves I (walkLfn st e) := by
  unfold Fat32.walkLfn
  dsimp only
  split
  · exact Preserves.pure
  · split
    · exact h.walkDelete
    · split
      · exact h.walkDelete
      · exact Preserves.pure

theorem walkEndRun {k : Nat} {st : WalkState} {e : DirEntry} :
    Preserves I (walkEndRun k st e) := by
  unfold Fat32.walkEndRun
  split
  · split
    · exact h.fsckDeleteEntriesRange.bind fun _ => Preserves.pure
    · exact Preserves.pure
  · exact Preserves.pure

theorem walkShort {sub : Nat → Walk → Prog Drv Walk} (hsub : ∀ k w, Preserves I (sub k w))
    {k total : Nat} {st : WalkState} {e : DirEntry} :
    Preserves I (walkShort sub k total st e) := by
  have hrest : ∀ w, Preserves I (do
      let w ← if e.isDir && decide (2 ≤ e.cluster) then sub e.cluster w else pure w
      pure { { st with entryIdx := st.entryIdx + 1 } with walk := w } : Prog Drv WalkState) := by
    intro w
    split
    · exact (hsub _ _).bind fun _ => Preserves.pure
    · exact Preserves.pure.bind fun _ => Preserves.pure
  unfold Fat32.walkShort
  dsimp only
  split
  · exact h.walkDelete
  · split
    · exact Preserves.pure
    · split
      · exact h.walkDelete
      · split
        · exact Preserves.pure
        · split
          · refine h.fsckMarkChain.bind fun w => ?_
            split
            · exact h.fsckZeroEntryCluster.bind fun _ => Preserves.pure.bind hrest
            · exact Preserves.pure.bind hrest
          · exact Preserves.pure.bind hrest

theorem walkDir {levels k : Nat} {w : Walk} : Preserves I (walkDir levels k w) := by
  induction levels generalizing k w with
  | zero => exact Preserves.pure
  | succ levels ih =>
      refine preserves_getStore_bind fun c => ?_
      dsimp only
      split
      · exact Preserves.pure
      · refine h.fsckMarkChain.bind fun w' => Preserves.loop (fun st => ?_) _
        refine h.fsckDirIterNext.bind fun o => ?_
        split
        · exact Preserves.pure
        · dsimp only
          split
          · exact Preserves.pure
          · split
            · exact Preserves.pure
            · split
              · exact h.walkLfn.bind fun _ => Preserves.pure
              · exact h.walkEndRun.bind fun _ => (h.walkShort fun _ _ => ih).bind fun _ =>
                  Preserves.pure

theorem markLostFound {total start : Nat} {bmp : Nat → Bool} :
    Preserves I (markLostFound total start bmp) := by
  refine Preserves.loop (fun p => ?_) _
  dsimp only
  split
  · refine h.fatGet.bind fun next => ?_
    split
    · exact Preserves.pure
    · exact Preserves.pure
  · exact Preserves.pure

theorem markRescued {total start : Nat} {bmp : Nat → Bool} :
    Preserves I (markRescued total start bmp) := by
  refine Preserves.loop (fun p => ?_) _
  dsimp only
  split
  · refine h.fatGet.bind fun next => ?_
    split
    · exact Preserves.pure
    · exact Preserves.pure
  · exact Preserves.pure

theorem fsckAdoptChain {path : CStr} {first : Nat} :
    Keeps P I (fsckAdoptChainLogged path first) := by
  refine Keeps.lift_bind Preserves.asks fun c => Keeps.lift_bind h.pathResolveParent fun p => ?_
  dsimp only
  split
  · exact Keeps.pure
  · exact Keeps.lift_bind h.adoptLength fun _ => Keeps.lift_bind h.make83Unique fun _ =>
      h.dirAddEntry.bind fun _ => Keeps.pure

theorem ensureLostFound : Keeps P I ensureLostFoundLogged := by
  refine h.fat32Mkdir.bind fun _ => Keeps.lift_bind h.fat32Stat fun r => ?_
  obtain ⟨err, d | -⟩ := r
  · exact Keeps.pure
  · exact Keeps.pure

theorem openLostFound {total : Nat} {st : OrphanState} :
    Keeps P I (openLostFoundLogged total st) := by
  unfold openLostFoundLogged
  split
  · exact Keeps.pure
  · refine h.ensureLostFound.bind fun lf => ?_
    dsimp only
    split
    · exact Keeps.lift_bind h.markLostFound fun _ => Keeps.pure
    · exact Keeps.pure.bind fun _ => Keeps.pure

theorem rescueOrFree {total c : Nat} {st : OrphanState} :
    Keeps P I (rescueOrFreeLogged total c st) := by
  unfold rescueOrFreeLogged
  dsimp only
  split
  · refine h.fsckAdoptChain.bind fun b => ?_
    split
    · exact Keeps.lift_bind h.markRescued fun _ => Keeps.pure
    · exact Keeps.lift_bind h.fatFreeChain fun _ => Keeps.pure
  · exact Keeps.lift_bind h.fatFreeChain fun _ => Keeps.pure

theorem orphanStep {total c : Nat} {st : OrphanState} :
    Keeps P I (orphanStepLogged total c st) := by
  have hrest : ∀ prevVal, Keeps P I (
      if !isChainHead c prevVal st.walk.bmp then pure st
      else do
        let st ← openLostFoundLogged total { st with walk := { st.walk with
          stats := { st.walk.stats with
            orphanClusters := st.walk.stats.orphanClusters + 1 } } }
        rescueOrFreeLogged total c st) := by
    intro prevVal
    split
    · exact Keeps.pure
    · exact h.openLostFound.bind fun _ => h.rescueOrFree
  refine Keeps.lift_bind h.fatGet fun x => ?_
  split
  · exact Keeps.pure
  · split
    · exact Keeps.pure
    · dsimp only
      split
      · exact Keeps.lift_bind h.fatGet hrest
      · exact Keeps.pure.bind hrest

theorem orphanScan {total n c : Nat} {st : OrphanState} :
    Keeps P I (orphanScanLogged total n c st) := by
  induction n generalizing c st with
  | zero => exact Keeps.pure
  | succ n ih => exact h.orphanStep.bind fun _ => ih

theorem fsckSummary {w : Walk} : Preserves I (fsckSummary w) := by
  unfold Fat32.fsckSummary
  split
  · exact (preserves_modifyStore fun s hs => h.readonly s hs).bind fun _ => Preserves.pure
  · exact Preserves.pure

/-- The checker behind the comparison of the FATs, which makes transfers past
the cache. -/
theorem chimerafsFsck {J : Drv → Prop}
    (hmismatch : ∀ st s o s', J s → (checkFatMismatch st).Runs s o s' → I s') {s s' : Drv}
    {o : FsckStats} (hs : J s) (hlog : chimerafsFsckLogged.Logs P s)
    (hr : chimerafsFsck.Runs s o s') : I s' := by
  rw [← erase_chimerafsFsck] at hr
  obtain ⟨c, s₁, h₁, hr⟩ := erase_runs_bind.mp hr
  have hlog₁ := (logs_bind.mp hlog).2 c s₁ h₁
  obtain ⟨rfl, rfl⟩ := runs_asks.mp h₁
  obtain ⟨st, s₂, h₂, hr⟩ := erase_runs_bind.mp hr
  have hlog₂ := (logs_bind.mp hlog₁).2 st s₂ h₂
  refine Keeps.lift_bind (P := P) (I := I) h.kmalloc (fun b => ?_) _ _ _
    (hmismatch _ _ _ _ hs h₂) hlog₂ hr
  split
  · refine Keeps.lift_bind h.kmalloc fun b' => ?_
    split
    · exact Keeps.lift_bind h.walkDir fun _ => h.orphanScan.bind fun _ => Keeps.lift h.fsckSummary
    · exact Keeps.lift h.fsckSummary
  · exact Keeps.lift h.fsckSummary

end Repairs

/-- Survives transfers past the cache. -/
structure Transfers (I : Drv → Prop) : Prop where
  tick : ∀ s, I s → I { s with ataOps := s.ataOps + 1 }
  write : ∀ s lba b, I s → I { s with
    toStore := s.toStore.put (lba % 268435456) b
    ataOps := s.ataOps + 1 }

namespace Transfers

variable (h : Transfers I)
include h

theorem ataRead {lba : Nat} : Preserves I (ataRead lba) := by
  intro s o s' hs hr
  rcases runs_ataRead hr with ⟨-, rfl⟩ | ⟨-, rfl⟩ | ⟨-, rfl⟩
  · exact hs
  · exact h.tick s hs
  · exact h.tick s hs

theorem ataWrite {lba : Nat} {b : Sector} : Preserves I (ataWrite lba b) := by
  intro s o s' hs hr
  rcases runs_ataWrite hr with ⟨-, rfl⟩ | ⟨-, rfl⟩ | ⟨-, rfl⟩
  · exact hs
  · exact h.tick s hs
  · exact h.write s lba b hs

theorem checkFatMismatch {st : FsckStats} : Preserves I (checkFatMismatch st) := by
  refine preserves_getStore_bind fun c => ?_
  dsimp only
  split
  · exact Preserves.pure
  · refine Preserves.loop (fun p => ?_) _
    split
    · refine h.ataRead.bind fun o => ?_
      split
      · exact Preserves.pure
      · refine h.ataRead.bind fun o' => ?_
        split
        · exact Preserves.pure
        · split
          · exact Preserves.pure
          · refine h.ataWrite.bind fun b => ?_
            split
            · exact Preserves.pure
            · exact Preserves.pure
    · exact Preserves.pure

end Transfers

namespace Checks

variable (h : Checks I)
include h

theorem transfers : Transfers I := ⟨h.tick, h.write⟩

theorem chimerafsFsck : Preserves I chimerafsFsck :=
  fun _ _ _ hs hr => h.toRepairs.chimerafsFsck (fun _ _ _ _ => h.transfers.checkFatMismatch _ _ _)
    hs (fun _ _ _ => trivial) hr

end Checks

end Chimaera.Fat32
