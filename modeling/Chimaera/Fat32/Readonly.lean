/-
A volume that the checker made read-only.  Only `fat32_open` looks at the flag:
it keeps every operation that goes through a descriptor off the disk, but not
`fat32_mkdir` and `fat32_unlink`, which reach the FAT and the directories by
themselves.
-/
import Chimaera.Fat32.Empty
import Chimaera.Fat32.Preserve

namespace Chimaera.Fat32

open Prog

variable {d : Nat → Sector} {s s' : Drv}

/-- The volume is read-only, nobody writes a file, nothing waits in the cache,
and the disk is `d`. -/
structure Drv.Locked (d : Nat → Sector) (s : Drv) : Prop where
  readonly : s.volReadonly = true
  fds : ∀ i < 16, (s.fds i).isOpen = true → (s.fds i).write = false
  clean : s.secCacheDirty = false
  disk : s.disk = d

theorem reads_locked : Reads (Drv.Locked d) := by
  constructor
  · rintro s ⟨hro, hfds, hclean, hdisk⟩
    exact ⟨hro, hfds, hclean, hdisk⟩
  · rintro s lba ⟨hro, hfds, hclean, hdisk⟩ - -
    exact ⟨hro, hfds, hclean, hdisk⟩
  · intro s hs hd
    rw [hs.clean] at hd
    cases hd

theorem Drv.Locked.putFd {fd : Nat} {f : Fd}
    (hf : fd < 16 → f.isOpen = true → f.write = false) : Preserves (Drv.Locked d) (putFd fd f) := by
  refine preserves_modifyStore ?_
  rintro s ⟨hro, hfds, hclean, hdisk⟩
  refine ⟨hro, fun i hi => ?_, hclean, hdisk⟩
  change (Function.update s.fds fd f i).isOpen = true → (Function.update s.fds fd f i).write = false
  by_cases h : i = fd
  · subst h
    rw [Function.update_self]
    exact hf hi
  · rw [Function.update_of_ne h]
    exact hfds i hi

/-- A cursor moves. -/
theorem Drv.Locked.moveFd {fd : Nat} {f : Fd} (hs : s.Locked d)
    (hopen : f.isOpen = (s.fds fd).isOpen) (hwrite : f.write = (s.fds fd).write) :
    Preserves (Drv.Locked d) (Fat32.putFd fd f) :=
  Drv.Locked.putFd fun hfd h => hwrite.trans (hs.fds fd hfd (hopen ▸ h))

theorem Drv.Locked.kmalloc {size : Nat} : Preserves (Drv.Locked d) (kmalloc size) := by
  refine preserves_getStore_bind fun c => ?_
  dsimp only
  split
  · exact Preserves.pure
  · refine (preserves_modifyStore ?_).bind fun _ => Preserves.pure
    rintro s ⟨hro, hfds, hclean, hdisk⟩
    exact ⟨hro, hfds, hclean, hdisk⟩

/-- Opening for writing fails before it looks at the path. -/
theorem Drv.Locked.open_write {path : CStr} {r : Int} (hs : s.Locked d)
    (h : (fat32Open path true).Runs s r s') : r < 0 ∧ s' = s := by
  obtain ⟨c, s₁, h₁, hrun⟩ := runs_bind.mp h
  obtain ⟨rfl, rfl⟩ := runs_asks.mp h₁
  split at hrun
  · obtain ⟨rfl, rfl⟩ := runs_pure.mp hrun
    exact ⟨Err.code_neg _, rfl⟩
  · rw [Bool.true_and, if_pos hs.readonly] at hrun
    obtain ⟨rfl, rfl⟩ := runs_pure.mp hrun
    exact ⟨Err.code_neg _, rfl⟩

theorem Drv.Locked.open_read {path : CStr} :
    Preserves (Drv.Locked d) (fat32Open path false) := by
  refine preserves_getStore_bind fun c => ?_
  split
  · exact Preserves.pure
  · rw [Bool.false_and, if_neg (by decide)]
    split
    · exact Preserves.pure
    · refine reads_locked.pathStat.bind fun o => ?_
      split
      · split
        · exact Preserves.pure
        · exact (Drv.Locked.putFd fun _ _ => rfl).bind fun _ => Preserves.pure
      · exact Preserves.pure

theorem Drv.Locked.read {fd : Int} {len : Nat} : Preserves (Drv.Locked d) (fat32Read fd len) := by
  refine preserves_getStore_bind fun c => ?_
  split
  · exact Preserves.pure
  · dsimp only
    split
    · exact Preserves.pure
    · refine (Preserves.loop (fun out => ?_) _).bind fun _ => Preserves.pure
      refine Preserves.asks_bind_of fun s hs => ?_
      dsimp only
      split
      · exact Preserves.pure
      · split
        · exact Preserves.pure
        · refine reads_locked.secRead.bind fun b => ?_
          split
          · refine preserves_cached_bind fun b' => Preserves.bind (hs.moveFd rfl rfl) fun _ => ?_
            split
            · exact reads_locked.fatGet.bind fun _ => Preserves.bind (hs.moveFd rfl rfl) fun _ =>
                Preserves.pure
            · exact Preserves.pure
          · exact Preserves.pure

/-- There is nothing to write to. -/
theorem Drv.Locked.write {fd : Int} {buf : List UInt8} :
    Preserves (Drv.Locked d) (fat32Write fd buf) := by
  refine Preserves.asks_bind_of fun s hs => ?_
  have hstop : (!s.fdOpen fd || !(s.fds fd.toNat).write) = true := by
    cases hopen : s.fdOpen fd with
    | false => rfl
    | true =>
        simp only [Store.fdOpen, Bool.and_eq_true, decide_eq_true_eq] at hopen
        rw [hs.fds fd.toNat (by omega) hopen.2]
        rfl
  rw [if_pos hstop]
  exact Preserves.pure

theorem Drv.Locked.seekChain {fd n : Nat} : Preserves (Drv.Locked d) (seekChain fd n) := by
  induction n with
  | zero => exact Preserves.pure
  | succ n ih =>
      refine Preserves.asks_bind_of fun s hs => reads_locked.fatGet.bind fun next => ?_
      split
      · exact Preserves.pure
      · exact Preserves.bind (hs.moveFd rfl rfl) fun _ => ih

theorem Drv.Locked.seek {fd : Int} {pos : Nat} : Preserves (Drv.Locked d) (fat32Seek fd pos) := by
  refine Preserves.asks_bind_of fun s hs => ?_
  split
  · exact Preserves.pure
  · dsimp only
    split
    · exact Preserves.pure
    · refine Preserves.bind (hs.moveFd rfl rfl) fun _ =>
        Drv.Locked.seekChain.bind fun b => ?_
      split
      · exact Preserves.asks_bind_of fun s' hs' =>
          Preserves.bind (hs'.moveFd rfl rfl) fun _ => Preserves.pure
      · exact Preserves.pure

theorem Drv.Locked.close {fd : Int} : Preserves (Drv.Locked d) (fat32Close fd) := by
  refine Preserves.asks_bind_of fun s hs => ?_
  split
  · exact Preserves.pure
  · next hopen =>
    have hwrite : (s.fds fd.toNat).write = false := by
      simp only [Store.fdOpen, Bool.not_eq_true', Bool.not_eq_false, Bool.and_eq_true,
        decide_eq_true_eq] at hopen
      exact hs.fds fd.toNat (by omega) hopen.2
    dsimp only
    rw [hwrite, if_neg (by decide)]
    exact Drv.Locked.putFd fun _ _ => rfl

/-- The destination cannot be opened. -/
theorem Drv.Locked.copy {src dst : CStr} {r : Int} (hs : s.Locked d)
    (h : (fat32Copy src dst).Runs s r s') : r ≠ 0 ∧ s'.Locked d := by
  have hneg : ∀ e : Err, e.code ≠ 0 := fun e => (Err.code_neg e).ne
  obtain ⟨c, s₁, h₁, hopen⟩ := runs_bind.mp h
  obtain ⟨rfl, rfl⟩ := runs_asks.mp h₁
  split at hopen
  · obtain ⟨rfl, rfl⟩ := runs_pure.mp hopen
    exact ⟨hneg _, hs⟩
  · obtain ⟨srcFd, s₂, h₂, hsrc⟩ := runs_bind.mp hopen
    have hs₂ := Drv.Locked.open_read _ _ _ hs h₂
    split at hsrc
    · obtain ⟨rfl, rfl⟩ := runs_pure.mp hsrc
      exact ⟨hneg _, hs₂⟩
    · obtain ⟨dstFd, s₃, h₃, hdst⟩ := runs_bind.mp hsrc
      obtain ⟨hlt, rfl⟩ := hs₂.open_write h₃
      rw [if_pos hlt] at hdst
      obtain ⟨u, s₄, h₄, hend⟩ := runs_bind.mp hdst
      obtain ⟨rfl, rfl⟩ := runs_pure.mp hend
      exact ⟨hneg _, Drv.Locked.close _ _ _ hs₂ h₄⟩

theorem Drv.Locked.rename {src dst : CStr} :
    Preserves (Drv.Locked d) (fat32Rename src dst) := by
  intro s r s' hs h
  obtain ⟨c, s₁, h₁, hcopy⟩ := runs_bind.mp h
  obtain ⟨rfl, rfl⟩ := runs_asks.mp h₁
  split at hcopy
  · obtain ⟨-, rfl⟩ := runs_pure.mp hcopy
    exact hs
  · obtain ⟨err, s₂, h₂, hend⟩ := runs_bind.mp hcopy
    obtain ⟨hne, hs₂⟩ := hs.copy h₂
    rw [if_pos hne] at hend
    obtain ⟨-, rfl⟩ := runs_pure.mp hend
    exact hs₂

theorem Drv.Locked.writeFile {path : CStr} {data : List UInt8} :
    Preserves (Drv.Locked d) (fat32WriteFile path data) := by
  intro s r s' hs h
  obtain ⟨fd, s₁, h₁, hrun⟩ := runs_bind.mp h
  obtain ⟨hlt, rfl⟩ := hs.open_write h₁
  rw [if_pos hlt] at hrun
  obtain ⟨-, rfl⟩ := runs_pure.mp hrun
  exact hs

theorem Drv.Locked.appendFile {path : CStr} {data : List UInt8} :
    Preserves (Drv.Locked d) (fat32AppendFile path data) := by
  refine reads_locked.fat32Filesize.bind fun sz => ?_
  split
  · exact Drv.Locked.writeFile
  · refine Drv.Locked.kmalloc.bind fun b => ?_
    split
    · refine Drv.Locked.open_read.bind fun fd => ?_
      dsimp only
      split
      · exact Drv.Locked.read.bind fun _ => Drv.Locked.close.bind fun _ => Preserves.pure.bind
          fun _ => Drv.Locked.writeFile
      · exact Preserves.pure.bind fun _ => Drv.Locked.writeFile
    · exact Preserves.pure

theorem Drv.Locked.readFile {path : CStr} : Preserves (Drv.Locked d) (fat32ReadFile path) := by
  refine reads_locked.fat32Filesize.bind fun sz => ?_
  split
  · exact Preserves.pure
  · refine Drv.Locked.kmalloc.bind fun b => ?_
    split
    · refine Drv.Locked.open_read.bind fun fd => ?_
      split
      · exact Preserves.pure
      · exact Drv.Locked.read.bind fun _ => Drv.Locked.close.bind fun _ => Preserves.pure
    · exact Preserves.pure

/-- The first cluster in `[k, k + n)` whose FAT entry reads as free. -/
def firstFree (n k : Nat) : Prog Drv (Option Nat) :=
  forUntil (fun k => do if (← fatGet k) = 0 then pure (some k) else pure none) n k

/-- `fat32_mkdir` returns before it writes: the volume is not mounted, the path
names something, its parent is not there, or no cluster is free. -/
def MkdirStops (s : Drv) (path : CStr) : Prop :=
  s.volMounted = false ∨ (∃ p s₁, (pathStat path).Runs s (some p) s₁) ∨
    ∃ s₁ parent name s₂, (pathStat path).Runs s none s₁ ∧
      (pathResolveParent path).Runs s₁ (parent, name) s₂ ∧
        (parent = 0 ∨ name = [] ∨
          ∃ s₃, (firstFree (u32 (s₂.vol.totalClusters + 2) - 2) 2).Runs s₂ none s₃)

/-- `fat32_unlink` returns before it writes: the volume is not mounted, or the
path names no file. -/
def UnlinkStops (s : Drv) (path : CStr) : Prop :=
  s.volMounted = false ∨ ∃ dir name s₁, (pathResolveParent path).Runs s (dir, name) s₁ ∧
    (dir = 0 ∨ name = [] ∨ (∃ s₂, (dirFind dir name).Runs s₁ none s₂) ∨
      ∃ e pos start s₂, (dirFind dir name).Runs s₁ (some (e, pos, start)) s₂ ∧ e.isDir = true)

/-- Where no cluster is free, an allocation only reads the FAT. -/
theorem fatAlloc_of_firstFree {prev : Nat} {s₁ : Drv}
    (h : (firstFree (u32 (s.vol.totalClusters + 2) - 2) 2).Runs s none s₁) :
    (fatAlloc prev).Runs s 0 s₁ := by
  refine runs_bind.mpr ⟨s.toStore, s, runs_asks.mpr ⟨rfl, rfl⟩, ?_⟩
  refine runs_bind.mpr ⟨none, s₁, ?_, runs_pure.mpr ⟨rfl, rfl⟩⟩
  refine runs_forUntil_none (fun k t t' hk => ?_) h
  obtain ⟨x, t₁, h₁, hx⟩ := runs_bind.mp hk
  refine runs_bind.mpr ⟨x, t₁, h₁, ?_⟩
  split at hx
  · obtain ⟨hnone, -⟩ := runs_pure.mp hx
    cases hnone
  · next hne =>
    rw [if_neg hne]
    exact hx

theorem Drv.Locked.firstFree {n k : Nat} : Preserves (Drv.Locked d) (firstFree n k) := by
  refine Preserves.forUntil (fun k => reads_locked.fatGet.bind fun x => ?_) _ _
  split
  · exact Preserves.pure
  · exact Preserves.pure

theorem Drv.Locked.mkdir {path : CStr} {r : Int} (hs : s.Locked d) (hstop : MkdirStops s path)
    (h : (fat32Mkdir path).Runs s r s') : s'.Locked d := by
  obtain ⟨c, s₁, h₁, hstat⟩ := runs_bind.mp h
  obtain ⟨rfl, rfl⟩ := runs_asks.mp h₁
  split at hstat
  · obtain ⟨-, rfl⟩ := runs_pure.mp hstat
    exact hs
  · next hmounted =>
    obtain ⟨o, s₂, h₂, hresolve⟩ := runs_bind.mp hstat
    have hs₂ := reads_locked.pathStat _ _ _ hs h₂
    rcases hstop with hmnt | ⟨p, t, hp⟩ | ⟨t₁, parent, name, t₂, hnone, hpar, hcase⟩
    · exact absurd hmnt (by simpa using hmounted)
    · obtain ⟨rfl, rfl⟩ := h₂.det hp
      obtain ⟨-, rfl⟩ := runs_pure.mp hresolve
      exact hs₂
    · obtain ⟨rfl, rfl⟩ := h₂.det hnone
      obtain ⟨q, s₃, h₃, halloc⟩ := runs_bind.mp hresolve
      have hs₃ := reads_locked.pathResolveParent _ _ _ hs₂ h₃
      obtain ⟨rfl, rfl⟩ := h₃.det hpar
      dsimp only at halloc
      split at halloc
      · obtain ⟨-, rfl⟩ := runs_pure.mp halloc
        exact hs₃
      · next hno =>
        obtain ⟨t₃, hfree⟩ := (hcase.resolve_left fun h0 => hno (Or.inl h0)).resolve_left
          fun h0 => hno (Or.inr h0)
        obtain ⟨fresh, s₄, h₄, hend⟩ := runs_bind.mp halloc
        obtain ⟨rfl, rfl⟩ := h₄.det (fatAlloc_of_firstFree hfree)
        obtain ⟨-, rfl⟩ := runs_pure.mp hend
        exact Drv.Locked.firstFree _ _ _ hs₃ hfree

theorem Drv.Locked.unlink {path : CStr} {r : Int} (hs : s.Locked d)
    (hstop : UnlinkStops s path) (h : (fat32Unlink path).Runs s r s') : s'.Locked d := by
  obtain ⟨c, s₁, h₁, hresolve⟩ := runs_bind.mp h
  obtain ⟨rfl, rfl⟩ := runs_asks.mp h₁
  split at hresolve
  · obtain ⟨-, rfl⟩ := runs_pure.mp hresolve
    exact hs
  · next hmounted =>
    rcases hstop with hmnt | ⟨dir, name, t₁, hpar, hcase⟩
    · exact absurd hmnt (by simpa using hmounted)
    · obtain ⟨q, s₂, h₂, hfind⟩ := runs_bind.mp hresolve
      have hs₂ := reads_locked.pathResolveParent _ _ _ hs h₂
      obtain ⟨rfl, rfl⟩ := h₂.det hpar
      dsimp only at hfind
      split at hfind
      · obtain ⟨-, rfl⟩ := runs_pure.mp hfind
        exact hs₂
      · next hno =>
        obtain ⟨o, s₃, h₃, hend⟩ := runs_bind.mp hfind
        have hs₃ := reads_locked.dirFind _ _ _ hs₂ h₃
        rcases hcase with h0 | h0 | ⟨t₂, hnone⟩ | ⟨e, pos, start, t₂, hsome, hdir⟩
        · exact absurd (Or.inl h0) hno
        · exact absurd (Or.inr h0) hno
        · obtain ⟨rfl, rfl⟩ := h₃.det hnone
          obtain ⟨-, rfl⟩ := runs_pure.mp hend
          exact hs₃
        · obtain ⟨rfl, rfl⟩ := h₃.det hsome
          dsimp only at hend
          rw [if_pos hdir] at hend
          obtain ⟨-, rfl⟩ := runs_pure.mp hend
          exact hs₃

/-- The call is one that respects the flag, or stops before it writes. -/
def ApiCall.Harmless (s : Drv) : ApiCall → Prop
  | mkdir path => MkdirStops s path
  | unlink path => UnlinkStops s path
  | _ => True

theorem Drv.Locked.call {call : ApiCall} (hs : s.Locked d) (hok : call.Harmless s)
    (h : call.run.Runs s () s') : s'.Locked d := by
  have drop : ∀ {α : Type} {x : Prog Drv α}, Preserves (Drv.Locked d) x →
      Preserves (Drv.Locked d) (do let _ ← x) := fun hx => hx.bind fun _ => Preserves.pure
  cases call with
  | open_ path w =>
      cases w with
      | false => exact drop Drv.Locked.open_read _ _ _ hs h
      | true =>
          obtain ⟨r, s₁, h₁, hend⟩ := runs_bind.mp h
          obtain ⟨-, rfl⟩ := runs_pure.mp hend
          exact (hs.open_write h₁).2 ▸ hs
  | read fd len => exact drop Drv.Locked.read _ _ _ hs h
  | write fd buf => exact drop Drv.Locked.write _ _ _ hs h
  | seek fd pos => exact drop Drv.Locked.seek _ _ _ hs h
  | close fd => exact Drv.Locked.close _ _ _ hs h
  | mkdir path =>
      obtain ⟨r, s₁, h₁, hend⟩ := runs_bind.mp h
      obtain ⟨-, rfl⟩ := runs_pure.mp hend
      exact hs.mkdir hok h₁
  | readdir path => exact drop reads_locked.fat32Readdir _ _ _ hs h
  | stat path => exact drop reads_locked.fat32Stat _ _ _ hs h
  | unlink path =>
      obtain ⟨r, s₁, h₁, hend⟩ := runs_bind.mp h
      obtain ⟨-, rfl⟩ := runs_pure.mp hend
      exact hs.unlink hok h₁
  | rename src dst => exact drop Drv.Locked.rename _ _ _ hs h
  | copy src dst =>
      obtain ⟨r, s₁, h₁, hend⟩ := runs_bind.mp h
      obtain ⟨-, rfl⟩ := runs_pure.mp hend
      exact (hs.copy h₁).2
  | readFile path => exact drop Drv.Locked.readFile _ _ _ hs h
  | writeFile path data => exact drop Drv.Locked.writeFile _ _ _ hs h
  | appendFile path data => exact drop Drv.Locked.appendFile _ _ _ hs h

/-- On a read-only volume with nothing waiting in the cache and no descriptor
open for writing, calls that respect the flag or stop early leave every sector
of the disk as it is. -/
theorem readonly_keeps_disk {calls : List ApiCall} (hro : s.volReadonly = true)
    (hfds : ∀ i < 16, (s.fds i).isOpen = true → (s.fds i).write = false)
    (hclean : s.secCacheDirty = false)
    (hrun : Session (fun s call => call.Harmless s) s calls s') : s'.disk = s.disk :=
  (hrun.preserves (I := Drv.Locked s.disk) (fun _ _ _ hs hok hcall => hs.call hok hcall)
    ⟨hro, hfds, hclean, rfl⟩).disk

/-- A read-only volume whose root directory holds the empty file `A`. -/
def readonlySample : Drv :=
  { fresh 4 with
    disk := Function.update (fresh 4).disk 48
      ((Block.zero 512).patch 0 (shortEntry (make83 [0x41]) 0x20 0 0).toList)
    volReadonly := true }

theorem readonly_keeps_disk_sample : ∃ s', Session (fun s call => call.Harmless s) readonlySample
    [.mkdir [0x2F, 0x41]] s' ∧ s'.disk = readonlySample.disk := by
  have hstat : ((pathStat [0x2F, 0x41]).run 3 readonlySample).map (fun p => p.1.isSome) =
      some true := by decide +kernel
  have hmkdir : ((ApiCall.run (.mkdir [0x2F, 0x41])).run 3 readonlySample).isSome = true := by
    decide +kernel
  obtain ⟨⟨o, s₁⟩, hrun₁, hsome⟩ := Option.map_eq_some_iff.mp hstat
  obtain ⟨p, rfl⟩ := Option.isSome_iff_exists.mp hsome
  obtain ⟨⟨_, s₂⟩, hrun₂⟩ := Option.isSome_iff_exists.mp hmkdir
  have hsession : Session (fun s call => call.Harmless s) readonlySample
      [.mkdir [0x2F, 0x41]] s₂ :=
    .cons (Or.inr (Or.inl ⟨p, s₁, 3, hrun₁⟩)) ⟨3, hrun₂⟩ (.nil s₂)
  exact ⟨s₂, hsession, readonly_keeps_disk rfl (fun _ _ h => by cases h) rfl hsession⟩

/-- `fat32_unlink` deletes the file all the same. -/
theorem readonly_changes_disk : ¬ ∀ (s s' : Drv) (calls : List ApiCall), s.volReadonly = true →
    (∀ i < 16, (s.fds i).isOpen = true → (s.fds i).write = false) →
    Session (fun _ _ => True) s calls s' → s'.disk = s.disk := by
  intro hclaim
  have hunlink : ((ApiCall.run (.unlink [0x2F, 0x41])).run 3 readonlySample).map
      (fun p => (p.2.disk 48).byte 0) = some 0xE5 := by decide +kernel
  obtain ⟨⟨_, s'⟩, hrun, hbyte⟩ := Option.map_eq_some_iff.mp hunlink
  have hdisk := hclaim readonlySample s' [.unlink [0x2F, 0x41]] rfl (fun _ _ h => by cases h)
    (.cons trivial ⟨3, hrun⟩ (.nil s'))
  dsimp only at hbyte
  rw [hdisk] at hbyte
  revert hbyte
  decide +kernel

end Chimaera.Fat32
