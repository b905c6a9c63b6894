/-
The arrays that the path functions assemble names in.  Beside each program of the driver stands
the one that logs its writes to them, and the question is whether they all stay inside.
-/
import Chimaera.Fat32.Files
import Chimaera.Logged

namespace Chimaera.Fat32

open Prog Logged

/-- `lfn_buf`, `part` and `name83` of the directory scans, `comp` and `name_out` of
`path_resolve_parent`, and the name in a `fat32_dirent_t`. -/
inductive NameArray where
  | lfnBuf | part | name83 | comp | nameOut | outName
deriving DecidableEq, Repr

/-- The length of an array; `FAT32_MAX_NAME` is 256. -/
def NameArray.size : NameArray → Nat
  | .part => 13
  | .name83 => 11
  | _ => 256

structure NameWrite where
  array : NameArray
  index : Nat
deriving DecidableEq, Repr

def NameWrite.Inside (w : NameWrite) : Prop := w.index < w.array.size

/-- The `n` bytes from index `at_` on. -/
def fillWrites (array : NameArray) (at_ n : Nat) : List NameWrite :=
  (List.range' at_ n).map (NameWrite.mk array)

/-- `f_strcpy`: the string and its terminator. -/
def strcpyWrites (array : NameArray) (str : CStr) : List NameWrite :=
  fillWrites array 0 (str.length + 1)

/-- `make_83`: the spaces, the stem and the extension. -/
def make83Writes (name : CStr) : List NameWrite :=
  fillWrites .name83 0 11 ++ fillWrites .name83 0 (stem83 name 8).length ++
    fillWrites .name83 8 (((splitDot name).2.map fToupper).take 3).length

/-- The copy of the characters of a piece, from index `at_` on. -/
def lfnStoreWrites (at_ : Nat) : List UInt8 → List NameWrite
  | [] => []
  | ch :: rest =>
      if at_ < 255 then
        if ch = 0 then [⟨.lfnBuf, at_⟩] else ⟨.lfnBuf, at_⟩ :: lfnStoreWrites (at_ + 1) rest
      else []

/-- A scan at a piece of a long name. -/
def lfnWrites (building : Bool) (e : DirEntry) : List NameWrite :=
  (if e.isLast then fillWrites .lfnBuf 0 256 else []) ++
    if (building || e.isLast) ∧ 1 ≤ e.seq ∧ e.seq ≤ 20 then
      fillWrites .part 0 13 ++ lfnStoreWrites ((e.seq - 1) * 13) (lfnExtract e)
    else []

/-- A round of `dir_find`. -/
def findWrites (name : CStr) (st : FindState) (e : DirEntry) : List NameWrite :=
  if e.first = 0 ∨ e.first = 0xE5 then []
  else if e.isLfn then lfnWrites st.buildingLfn e
  else if st.buildingLfn then []
  else make83Writes name

/-- The `NAME.EXT` of a short entry, with its terminator. -/
def shortNameWrites (e : DirEntry) : List NameWrite :=
  let stem := (e.name.take 8).takeWhile (· != 0x20)
  let ext := (e.name.drop 8).takeWhile (· != 0x20)
  fillWrites .outName 0 ((if ext = [] then stem.length else stem.length + (1 + ext.length)) + 1)

/-- A round of `fat32_readdir`. -/
def readdirWrites (st : ReaddirState) (e : DirEntry) : List NameWrite :=
  if e.first = 0 ∨ e.first = 0xE5 then []
  else if e.isLfn then lfnWrites st.buildingLfn e
  else if e.isDot then []
  else fillWrites .outName 0 256 ++
    if st.buildingLfn && st.lfnBuf 0 != 0 then strcpyWrites .outName st.lfnBuf.str
    else shortNameWrites e

/-- `scanDir`, where a round logs what `writes` tells. -/
def scanDirLogged {L R : Type} (writes : L → DirEntry → List NameWrite)
    (step : L → DirPos → DirEntry → L ⊕ R) (st : L) (pos : DirPos) :
    Logged Drv NameWrite (ScanEnd L R) :=
  Logged.loop (fun (p : L × DirPos) => do
    match ← lift (dirReadEntry p.2) with
    | none => pure (.inr (.ioError p.1))
    | some e =>
        tell (writes p.1 e)
        match step p.1 p.2 e with
        | .inr r => pure (.inr (.stop r))
        | .inl st' => do
            let next ← lift (dirNext p.2)
            if next.1 then pure (.inl (st', next.2))
            else pure (.inr (.endOfDir st' next.2))) (st, pos)

def dirFindLogged (dirCluster : Nat) (name : CStr) :
    Logged Drv NameWrite (Option (DirEntry × DirPos × DirPos)) := do
  let c ← lift getStore
  let pos := dirPosInit c.vol dirCluster
  let r ← scanDirLogged (findWrites name) (dirFindStep name) ⟨fun _ => 0, 0, false, pos⟩ pos
  match r with
  | .stop found => pure found
  | _ => pure none

def resolveStepLogged (v : Vol) (p : Nat × CStr) :
    Logged Drv NameWrite ((Nat × CStr) ⊕ (Nat × CStr)) := do
  if p.2 = [] then
    tell [⟨.nameOut, 0⟩]
    pure (.inr (p.1, []))
  else
    tell (strcpyWrites .comp (pathComp p.2))
    if pathRest p.2 = [] then
      tell (strcpyWrites .nameOut (pathComp p.2))
      pure (.inr (p.1, pathComp p.2))
    else
      match ← dirFindLogged p.1 (pathComp p.2) with
      | none => pure (.inr (0, []))
      | some (e, _, _) =>
          if e.isDir then pure (.inl (v.dirTarget e, pathRest p.2))
          else pure (.inr (0, []))

def pathResolveParentLogged (path : CStr) : Logged Drv NameWrite (Nat × CStr) := do
  let c ← lift getStore
  if path.head? = some 0x2F then
    Logged.loop (resolveStepLogged c.vol) (c.vol.rootCluster, path.tail)
  else pure (0, [])

def pathStatLogged (path : CStr) : Logged Drv NameWrite (Option PathInfo) := do
  let c ← lift getStore
  if path = [0x2F] then pure (some ⟨rootEntry c.vol, ⟨0, 0, 0, 0⟩, 0⟩)
  else
    let (dirCluster, name) ← pathResolveParentLogged path
    if dirCluster = 0 ∨ name = [] then pure none
    else
      match ← dirFindLogged dirCluster name with
      | none => pure none
      | some (e, pos, _) => pure (some ⟨e, pos, dirCluster⟩)

def readdirClusterLogged (cluster : Nat) : Logged Drv NameWrite (List Dirent) := do
  let c ← lift getStore
  match ← scanDirLogged readdirWrites readdirStep ⟨fun _ => 0, false, []⟩
      (dirPosInit c.vol cluster) with
  | .stop out => pure out
  | .ioError st => pure st.out
  | .endOfDir st _ => pure st.out

def fat32ReaddirLogged (path : CStr) : Logged Drv NameWrite (Int × List Dirent) := do
  let c ← lift getStore
  if !c.volMounted then pure (Err.noDev.code, [])
  else
    match ← pathStatLogged path with
    | none => pure (Err.notFound.code, [])
    | some p =>
        if !p.entry.isDir then pure (Err.notDir.code, [])
        else
          let out ← readdirClusterLogged (c.vol.dirTarget p.entry)
          pure (out.length, out)

def fat32StatLogged (path : CStr) : Logged Drv NameWrite (Int × Option Dirent) := do
  let c ← lift getStore
  if !c.volMounted then pure (Err.noDev.code, none)
  else
    match ← pathStatLogged path with
    | none => pure (Err.notFound.code, none)
    | some p =>
        tell (strcpyWrites .outName (lastComp path))
        pure (0, some (p.entry.dirent (lastComp path)))

section Erasure

variable {L R : Type} {name path : CStr} {dir : Nat}

theorem erase_scanDir (writes : L → DirEntry → List NameWrite)
    (step : L → DirPos → DirEntry → L ⊕ R) (st : L) (pos : DirPos) :
    (scanDirLogged writes step st pos).erase = scanDir step st pos := by
  refine erase_loop_eq (fun p => erase_bind_eq erase_lift fun o => ?_) _
  cases o with
  | none => exact erase_pure
  | some e =>
      apply erase_tell_eq
      dsimp only
      cases step p.1 p.2 e with
      | inr r => exact erase_pure
      | inl st' =>
          refine erase_bind_eq erase_lift fun next => ?_
          split
          · exact erase_pure
          · exact erase_pure

theorem erase_dirFind : (dirFindLogged dir name).erase = dirFind dir name := by
  refine erase_bind_eq erase_lift fun c => erase_bind_eq (erase_scanDir _ _ _ _) fun r => ?_
  cases r with
  | stop found => exact erase_pure
  | ioError st => exact erase_pure
  | endOfDir st pos => exact erase_pure

theorem erase_resolveStep (v : Vol) (p : Nat × CStr) :
    (resolveStepLogged v p).erase = resolveStep v p := by
  unfold resolveStepLogged resolveStep
  by_cases hp : p.2 = []
  · rw [if_pos hp, if_pos hp]
    apply erase_tell_eq
    exact erase_pure
  rw [if_neg hp, if_neg hp]
  apply erase_tell_eq
  by_cases hr : pathRest p.2 = []
  · rw [if_pos hr, if_pos hr]
    apply erase_tell_eq
    exact erase_pure
  rw [if_neg hr, if_neg hr]
  refine erase_bind_eq erase_dirFind fun o => ?_
  cases o with
  | none => exact erase_pure
  | some r =>
      dsimp only
      split
      · exact erase_pure
      · exact erase_pure

theorem erase_pathResolveParent : (pathResolveParentLogged path).erase = pathResolveParent path := by
  refine erase_bind_eq erase_lift fun c => ?_
  split
  · next hslash =>
    obtain ⟨rest, rfl⟩ := List.head?_eq_some_iff.mp hslash
    exact erase_loop_eq (erase_resolveStep _) _
  · next hno =>
    split
    · next rest => exact absurd rfl hno
    · exact erase_pure

theorem erase_pathStat : (pathStatLogged path).erase = pathStat path := by
  refine erase_bind_eq erase_lift fun c => ?_
  dsimp only
  split
  · exact erase_pure
  · refine erase_bind_eq erase_pathResolveParent fun r => ?_
    split
    · exact erase_pure
    · refine erase_bind_eq erase_dirFind fun o => ?_
      cases o with
      | none => exact erase_pure
      | some r => exact erase_pure

/-- With its writes left out, each program is the one of the driver. -/
theorem erase_fat32Readdir : (fat32ReaddirLogged path).erase = fat32Readdir path := by
  refine erase_bind_eq erase_lift fun c => ?_
  split
  · exact erase_pure
  refine erase_bind_eq erase_pathStat fun o => ?_
  cases o with
  | none => exact erase_pure
  | some p =>
      dsimp only
      split
      · exact erase_pure
      refine erase_bind_eq (erase_bind_eq erase_lift fun c =>
        erase_bind_eq (erase_scanDir _ _ _ _) fun r => ?_) fun out => erase_pure
      cases r with
      | stop out => exact erase_pure
      | ioError st => exact erase_pure
      | endOfDir st pos => exact erase_pure

theorem erase_fat32Stat : (fat32StatLogged path).erase = fat32Stat path := by
  refine erase_bind_eq erase_lift fun c => ?_
  split
  · exact erase_pure
  refine erase_bind_eq erase_pathStat fun o => ?_
  cases o with
  | none => exact erase_pure
  | some p =>
      apply erase_tell_eq
      exact erase_pure

end Erasure

section Bounds

variable {L R : Type} {name path : CStr} {dir at_ n : Nat} {array : NameArray} {str : CStr}
  {e : DirEntry} {buf : NameBuf} {s : Drv} {w : NameWrite}

theorem fillWrites_inside_iff (hn : 0 < n) : (∀ w ∈ fillWrites array at_ n, w.Inside) ↔
    at_ + n ≤ array.size := by
  unfold fillWrites NameWrite.Inside
  simp only [List.forall_mem_map, List.mem_range'_1]
  refine ⟨fun h => ?_, fun h i hi => by omega⟩
  have := h (at_ + n - 1) (by omega)
  omega

theorem fillWrites_inside (h : at_ + n ≤ array.size) : ∀ w ∈ fillWrites array at_ n, w.Inside := by
  rcases Nat.eq_zero_or_pos n with rfl | hn
  · intro w hw
    cases hw
  · exact (fillWrites_inside_iff hn).mpr h

theorem make83Writes_inside (name : CStr) : ∀ w ∈ make83Writes name, w.Inside := by
  have hstem : (stem83 name 8).length ≤ 8 := List.length_take_le _ _
  have hext : (((splitDot name).2.map fToupper).take 3).length ≤ 3 := List.length_take_le _ _
  have hsize : NameArray.name83.size = 11 := rfl
  intro w hw
  rcases List.mem_append.mp hw with hw | hw
  · rcases List.mem_append.mp hw with hw | hw
    · exact fillWrites_inside (Nat.le_refl 11) w hw
    · exact fillWrites_inside (by omega) w hw
  · exact fillWrites_inside (by omega) w hw

theorem lfnStoreWrites_inside (chars : List UInt8) (at_ : Nat) :
    ∀ w ∈ lfnStoreWrites at_ chars, w.Inside := by
  induction chars generalizing at_ with
  | nil => simp [lfnStoreWrites]
  | cons ch rest ih =>
      intro w hw
      rw [lfnStoreWrites] at hw
      split at hw
      · next hlt =>
        have hin : NameWrite.Inside ⟨.lfnBuf, at_⟩ := by
          change at_ < 256
          omega
        split at hw
        · rw [List.mem_singleton.mp hw]
          exact hin
        · rcases List.mem_cons.mp hw with rfl | hw
          · exact hin
          · exact ih _ w hw
      · cases hw

theorem lfnWrites_inside (building : Bool) (e : DirEntry) :
    ∀ w ∈ lfnWrites building e, w.Inside := by
  intro w hw
  rcases List.mem_append.mp hw with hw | hw
  · split at hw
    · exact fillWrites_inside (Nat.le_refl 256) w hw
    · cases hw
  · split at hw
    · rcases List.mem_append.mp hw with hw | hw
      · exact fillWrites_inside (Nat.le_refl 13) w hw
      · exact lfnStoreWrites_inside _ _ w hw
    · cases hw

theorem findWrites_inside (name : CStr) (st : FindState) (e : DirEntry) :
    ∀ w ∈ findWrites name st e, w.Inside := by
  unfold findWrites
  split
  · simp
  split
  · exact lfnWrites_inside _ _
  split
  · simp
  · exact make83Writes_inside name

/-- The last byte of a buffer that is being filled is the terminator. -/
def Terminated (building : Bool) (buf : NameBuf) : Prop := building = true → buf 255 = 0

theorem lfnStore_last (chars : List UInt8) (buf : NameBuf) (at_ : Nat) :
    lfnStore buf at_ chars 255 = buf 255 := by
  induction chars generalizing buf at_ with
  | nil => rfl
  | cons ch rest ih =>
      rw [lfnStore]
      split
      · next hlt =>
        have hne : (255 : Nat) ≠ at_ := by omega
        split
        · rw [Function.update_of_ne hne]
        · rw [ih, Function.update_of_ne hne]
      · rfl

theorem Terminated.feed (h : Terminated building buf) (hb : building || e.isLast) :
    Terminated true (lfnFeed buf e) := by
  intro _
  have hstart : (if e.isLast then fun _ => 0 else buf) 255 = 0 := by
    by_cases hl : e.isLast
    · rw [if_pos hl]
    · rw [if_neg hl]
      exact h (by simpa [hl] using hb)
  unfold lfnFeed
  split
  · rw [lfnStore_last, hstart]
  · exact hstart

theorem length_str_le (h : buf 255 = 0) : buf.str.length ≤ 255 := by
  unfold NameBuf.str
  rw [List.range_succ, List.map_append, List.takeWhile_append]
  split
  · simp [h]
  · next hne =>
    have := List.takeWhile_sublist (· != 0) (l := (List.range 255).map buf)
    have := this.length_le
    simpa using this

theorem readdirWrites_inside (st : ReaddirState) (e : DirEntry)
    (h : Terminated st.buildingLfn st.lfnBuf) : ∀ w ∈ readdirWrites st e, w.Inside := by
  unfold readdirWrites
  split
  · simp
  split
  · exact lfnWrites_inside _ _
  split
  · simp
  intro w hw
  rcases List.mem_append.mp hw with hw | hw
  · exact fillWrites_inside (Nat.le_refl 256) w hw
  · split at hw
    · next hb =>
      have hlen := length_str_le (h (by simp at hb; exact hb.1))
      exact fillWrites_inside (by simp only [NameArray.size]; omega) w hw
    · have hstem := ((e.name.take 8).takeWhile_sublist (· != 0x20)).length_le
      have hext := ((e.name.drop 8).takeWhile_sublist (· != 0x20)).length_le
      have hname : e.name.length = 11 := by simp [DirEntry.name]
      rw [List.length_take, hname] at hstem
      rw [List.length_drop, hname] at hext
      refine fillWrites_inside ?_ w hw
      simp only [NameArray.size]
      split <;> omega

theorem readdirStep_terminated {st st' : ReaddirState} {pos : DirPos} {e : DirEntry}
    (h : Terminated st.buildingLfn st.lfnBuf) (hs : readdirStep st pos e = .inl st') :
    Terminated st'.buildingLfn st'.lfnBuf := by
  unfold readdirStep at hs
  split at hs
  · cases hs
  split at hs
  · cases hs
    exact fun hb => by cases hb
  split at hs
  · split at hs
    · next hb =>
      cases hs
      exact h.feed hb
    · cases hs
      exact h
  split at hs
  · cases hs
    exact fun hb => by cases hb
  · cases hs
    exact fun hb => by cases hb

/-- A scan logs what its rounds log, in the local states that an invariant admits. -/
theorem scanDir_logs {writes : L → DirEntry → List NameWrite}
    {step : L → DirPos → DirEntry → L ⊕ R} (inv : L → Prop)
    (hlog : ∀ st e, inv st → ∀ w ∈ writes st e, w.Inside)
    (hnext : ∀ st pos e st', inv st → step st pos e = .inl st' → inv st') {st : L}
    (hst : inv st) (pos : DirPos) (s : Drv) :
    (scanDirLogged writes step st pos).Logs NameWrite.Inside s := by
  refine logs_loop (fun p _ => inv p.1) (fun p s hp => ?_) (fun p s p' s' hp hy => ?_) hst
  · refine logs_bind.mpr ⟨logs_lift, fun o t _ => ?_⟩
    cases o with
    | none => exact logs_pure
    | some e =>
        refine logs_bind.mpr ⟨logs_tell.mpr (hlog p.1 e hp), fun _ t _ => ?_⟩
        cases step p.1 p.2 e with
        | inr r => exact logs_pure
        | inl st' =>
            refine logs_bind.mpr ⟨logs_lift, fun next t _ => ?_⟩
            split
            · exact logs_pure
            · exact logs_pure
  · rw [erase_bind, runs_bind] at hy
    obtain ⟨o, t, -, hy⟩ := hy
    cases o with
    | none =>
        rw [erase_pure, runs_pure] at hy
        cases hy.1
    | some e =>
        rw [erase_bind, erase_tell, pure_bind] at hy
        cases hstep : step p.1 p.2 e with
        | inr r =>
            rw [hstep, erase_pure, runs_pure] at hy
            cases hy.1
        | inl st' =>
            simp only [hstep] at hy
            rw [erase_bind, runs_bind] at hy
            obtain ⟨next, u, -, hy⟩ := hy
            split at hy
            · rw [erase_pure, runs_pure] at hy
              cases hy.1
              exact hnext p.1 p.2 e st' hp hstep
            · rw [erase_pure, runs_pure] at hy
              cases hy.1

theorem dirFind_logs : (dirFindLogged dir name).Logs NameWrite.Inside s := by
  refine logs_bind.mpr ⟨logs_lift, fun c t _ => logs_bind.mpr ⟨?_, fun r u _ => ?_⟩⟩
  · exact scanDir_logs (fun _ => True) (fun st e _ => findWrites_inside name st e)
      (fun _ _ _ _ _ _ => trivial) trivial _ _
  · cases r with
    | stop found => exact logs_pure
    | ioError st => exact logs_pure
    | endOfDir st pos => exact logs_pure

/-- The resolver cuts every component to what `comp` holds. -/
theorem strcpyWrites_pathComp (p : CStr) (h : array.size = 256) :
    ∀ w ∈ strcpyWrites array (pathComp p), w.Inside := by
  have hlen : (pathComp p).length ≤ 255 := List.length_take_le _ _
  exact fillWrites_inside (by omega)

theorem resolveStep_logs (v : Vol) (p : Nat × CStr) :
    (resolveStepLogged v p).Logs NameWrite.Inside s := by
  unfold resolveStepLogged
  split
  · refine logs_bind.mpr ⟨logs_tell.mpr fun w hw => ?_, fun _ t _ => logs_pure⟩
    rw [List.mem_singleton.mp hw]
    exact Nat.zero_lt_succ 255
  refine logs_bind.mpr ⟨logs_tell.mpr (strcpyWrites_pathComp p.2 rfl), fun _ t _ => ?_⟩
  split
  · exact logs_bind.mpr ⟨logs_tell.mpr (strcpyWrites_pathComp p.2 rfl), fun _ u _ => logs_pure⟩
  refine logs_bind.mpr ⟨dirFind_logs, fun o u _ => ?_⟩
  cases o with
  | none => exact logs_pure
  | some r =>
      dsimp only
      split
      · exact logs_pure
      · exact logs_pure

theorem pathResolveParent_logs : (pathResolveParentLogged path).Logs NameWrite.Inside s := by
  refine logs_bind.mpr ⟨logs_lift, fun c t _ => ?_⟩
  split
  · exact logs_loop (fun _ _ => True) (fun p s _ => resolveStep_logs c.vol p)
      (fun _ _ _ _ _ _ => trivial) trivial
  · exact logs_pure

theorem pathStat_logs : (pathStatLogged path).Logs NameWrite.Inside s := by
  refine logs_bind.mpr ⟨logs_lift, fun c t _ => ?_⟩
  split
  · exact logs_pure
  refine logs_bind.mpr ⟨pathResolveParent_logs, fun r u _ => ?_⟩
  dsimp only
  split
  · exact logs_pure
  refine logs_bind.mpr ⟨dirFind_logs, fun o u _ => ?_⟩
  cases o with
  | none => exact logs_pure
  | some r => exact logs_pure

theorem readdirCluster_logs (cluster : Nat) :
    (readdirClusterLogged cluster).Logs NameWrite.Inside s := by
  refine logs_bind.mpr ⟨logs_lift, fun c t _ => logs_bind.mpr ⟨?_, fun r u _ => ?_⟩⟩
  · exact scanDir_logs (fun st => Terminated st.buildingLfn st.lfnBuf)
      (fun st e h => readdirWrites_inside st e h)
      (fun st pos e st' h hs => readdirStep_terminated h hs) (fun hb => by cases hb) _ _
  · cases r with
    | stop out => exact logs_pure
    | ioError st => exact logs_pure
    | endOfDir st pos => exact logs_pure

/-- `fat32_readdir` keeps inside its arrays on whatever volume and path. -/
theorem fat32Readdir_logs : (fat32ReaddirLogged path).Logs NameWrite.Inside s := by
  refine logs_bind.mpr ⟨logs_lift, fun c t _ => ?_⟩
  split
  · exact logs_pure
  refine logs_bind.mpr ⟨pathStat_logs, fun o u _ => ?_⟩
  cases o with
  | none => exact logs_pure
  | some p =>
      dsimp only
      split
      · exact logs_pure
      · exact logs_bind.mpr ⟨readdirCluster_logs _, fun out v _ => logs_pure⟩

/-- `path_stat` looks the component up as the resolver has cut it, and it is copied out in full. -/
theorem fat32Stat_logs : (fat32StatLogged path).Logs NameWrite.Inside s ↔
    (s.volMounted = true → ∀ p, (pathStat path).Answers s (some p) →
      (lastComp path).length ≤ 255) := by
  have hwrites : (∀ w ∈ strcpyWrites .outName (lastComp path), w.Inside) ↔
      (lastComp path).length ≤ 255 := by
    unfold strcpyWrites
    rw [fillWrites_inside_iff (Nat.succ_pos _), Nat.zero_add]
    exact Nat.succ_le_succ_iff
  rw [← hwrites]
  constructor
  · rintro h hm p ⟨t, hp⟩
    have h := (logs_bind.mp h).2 s.toStore s (runs_asks.mpr ⟨rfl, rfl⟩)
    rw [hm] at h
    have h := (logs_bind.mp h).2 (some p) t (by rw [erase_pathStat]; exact hp)
    exact logs_tell.mp (logs_bind.mp h).1
  · intro h
    refine logs_bind.mpr ⟨logs_lift, fun c u hc => ?_⟩
    obtain ⟨rfl, rfl⟩ := runs_asks.mp hc
    split
    · exact logs_pure
    · next hm =>
      refine logs_bind.mpr ⟨pathStat_logs, fun o t ho => ?_⟩
      rw [erase_pathStat] at ho
      cases o with
      | none => exact logs_pure
      | some p =>
          have hin := h (by simpa using hm) p ⟨t, ho⟩
          exact logs_bind.mpr ⟨logs_tell.mpr hin, fun _ _ _ => logs_pure⟩

end Bounds

/-- None of the three writes past the end of an array of names. -/
def NameArraysFit (s : Drv) (path : CStr) : Prop :=
  (fat32StatLogged path).Logs NameWrite.Inside s ∧
    (fat32ReaddirLogged path).Logs NameWrite.Inside s ∧
    (pathResolveParentLogged path).Logs NameWrite.Inside s

theorem nameArraysFit_iff (s : Drv) (path : CStr) : NameArraysFit s path ↔
    (s.volMounted = true → ∀ p, (pathStat path).Answers s (some p) →
      (lastComp path).length ≤ 255) := by
  unfold NameArraysFit
  rw [fat32Stat_logs]
  exact and_iff_left ⟨fat32Readdir_logs, pathResolveParent_logs⟩

/-- `/A` and 299 spaces, which `make_83` leaves out. -/
def spacedPath : CStr := 0x2F :: 0x41 :: List.replicate 299 0x20

theorem not_nameArraysFit : ¬ ∀ s path, NameArraysFit s path := by
  intro h
  have hfound : (((pathStat spacedPath).run 3 holding).bind Prod.fst).isSome = true := by
    decide +kernel
  obtain ⟨p, hp⟩ := Option.isSome_iff_exists.mp hfound
  obtain ⟨⟨o, t⟩, hr, rfl⟩ := Option.bind_eq_some_iff.mp hp
  have hlen := fat32Stat_logs.mp (h holding spacedPath).1 rfl p ⟨t, 3, hr⟩
  exact absurd hlen (by decide +kernel)

end Chimaera.Fat32
