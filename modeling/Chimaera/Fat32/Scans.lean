/-
Directory scans over a disk of any content.  The links and entries that a scan
follows may be anything; it ends exactly where its links reach a cluster that
stops it.
-/
import Chimaera.Fat32.Positions
import Chimaera.Moves

namespace Chimaera.Fat32

open Prog

/-- Transfers succeed, and the cache holds a sector of the disk.  Only 28 bits of an
address count. -/
structure Drv.Steady (s : Drv) : Prop where
  present : s.present = true
  working : ∀ n, s.ataOk n = true
  clean : s.secCacheDirty = false
  held : s.secCacheLba % 268435456 < s.sectors
  coherent : s.secCache = s.disk (s.secCacheLba % 268435456)

namespace Store

/-- The driver is steady, and `c` are its variables. -/
def Behind (c : Store) (s : Drv) : Prop := s.Steady ∧ s.toStore = c

def readAt (c : Store) (lba : Nat) : Option Sector :=
  if lba % 268435456 < c.sectors then some (c.disk (lba % 268435456)) else none

/-- The link of a cluster, as `fat_get` reads it. -/
def link (c : Store) (k : Nat) : Nat :=
  match c.readAt (c.vol.fatLbaForCluster k) with
  | some b => b.word (fatOffsetInSector k) 4 % 268435456
  | none => 0x0FFFFFF7

/-- The `i`-th directory entry of cluster `k`. -/
def slotOf (c : Store) (k i : Nat) : Option DirEntry :=
  (c.readAt (u32 (c.vol.clusterToLba k + i / 16))).map fun b => b.slice (i % 16 * 32) 32

/-- What `dir_next` answers. -/
def nextPos (c : Store) (pos : DirPos) : Bool × DirPos :=
  let entryIdx := u32 (pos.entryIdx + 1)
  if pos.off + 32 < 512 then (true, { pos with entryIdx, off := pos.off + 32 })
  else
    let lba := u32 (pos.lba + 1)
    if sub32 lba (c.vol.clusterToLba pos.cluster) % c.vol.secPerClus = 0 ∧
        lba ≠ c.vol.clusterToLba pos.cluster then
      let next := c.link pos.cluster
      if 0x0FFFFFF8 ≤ next ∨ next < 2 then (false, { pos with entryIdx, lba, off := 0 })
      else (true, ⟨next, entryIdx, c.vol.clusterToLba next, 0⟩)
    else (true, { pos with entryIdx, lba, off := 0 })

end Store

/-- The position is that of slot `i` of cluster `k`. -/
structure DirPos.IsSlot (v : Vol) (pos : DirPos) (k i : Nat) : Prop where
  cluster : pos.cluster = k
  lba : pos.lba = u32 (v.clusterToLba k + i / 16)
  off : pos.off = i % 16 * 32

/-- The numbers that the driver follows as links. -/
def IsLink (x : Nat) : Prop := 2 ≤ x ∧ x < 0x0FFFFFF8

instance (x : Nat) : Decidable (IsLink x) := inferInstanceAs (Decidable (_ ∧ _))

/-- The scan that starts at slot `i` of cluster `k` sees the entries `es` and ends. -/
inductive Store.Sees (c : Store) : Nat → Nat → List DirEntry → Prop
  | unreadable {k i : Nat} (h : c.slotOf k i = none) : Sees c k i []
  | zero {k i : Nat} {e : DirEntry} (h : c.slotOf k i = some e) (h0 : e.first = 0) : Sees c k i []
  | last {k i : Nat} {e : DirEntry} (h : c.slotOf k i = some e) (h0 : e.first ≠ 0)
      (hi : i + 1 = c.vol.perCluster) (hl : ¬ IsLink (c.link k)) : Sees c k i [e]
  | next {k i : Nat} {e : DirEntry} {es : List DirEntry} (h : c.slotOf k i = some e)
      (h0 : e.first ≠ 0) (hi : i + 1 < c.vol.perCluster) (hr : Sees c k (i + 1) es) :
      Sees c k i (e :: es)
  | hop {k i : Nat} {e : DirEntry} {es : List DirEntry} (h : c.slotOf k i = some e)
      (h0 : e.first ≠ 0) (hi : i + 1 = c.vol.perCluster) (hl : IsLink (c.link k))
      (hr : Sees c (c.link k) 0 es) : Sees c k i (e :: es)

/-- A scan does not go past cluster `k`: a slot is unused or cannot be read, or the
chain ends. -/
def Store.Stops (c : Store) (k : Nat) : Prop :=
  (∃ i < c.vol.perCluster, ∀ e, c.slotOf k i = some e → e.first = 0) ∨ ¬ IsLink (c.link k)

/-- The links from `a` reach a cluster that stops a scan. -/
def Store.Ends (c : Store) (a : Nat) : Prop := ∃ n, c.Stops (c.link^[n] a)

section Sees

variable {c : Store} {a k i : Nat} {es : List DirEntry}

/-- What follows the slots of a cluster decides what a scan of it comes to. -/
theorem Store.sees_of_rest (hrest : ¬ IsLink (c.link k) ∨ ∃ es, c.Sees (c.link k) 0 es)
    (hi : i < c.vol.perCluster) : ∃ es, c.Sees k i es := by
  induction hm : c.vol.perCluster - i generalizing i with
  | zero => omega
  | succ m ih =>
      cases hslot : c.slotOf k i with
      | none => exact ⟨[], .unreadable hslot⟩
      | some e =>
          by_cases h0 : e.first = 0
          · exact ⟨[], .zero hslot h0⟩
          rcases Nat.lt_or_ge (i + 1) c.vol.perCluster with hlt | hge
          · obtain ⟨es, hes⟩ := ih hlt (by omega)
            exact ⟨e :: es, .next hslot h0 hlt hes⟩
          have hend : i + 1 = c.vol.perCluster := by omega
          by_cases hl : IsLink (c.link k)
          · obtain ⟨es, hes⟩ := hrest.resolve_left (not_not_intro hl)
            exact ⟨e :: es, .hop hslot h0 hend hl hes⟩
          · exact ⟨[e], .last hslot h0 hend hl⟩

/-- A slot that stops a scan stops it from every slot before. -/
theorem Store.sees_of_slot {j : Nat} (hj : j < c.vol.perCluster)
    (h : ∀ e, c.slotOf k j = some e → e.first = 0) (hi : i ≤ j) : ∃ es, c.Sees k i es := by
  induction hm : j - i generalizing i with
  | zero =>
      obtain rfl : i = j := by omega
      cases hslot : c.slotOf k i with
      | none => exact ⟨[], .unreadable hslot⟩
      | some e => exact ⟨[], .zero hslot (h e hslot)⟩
  | succ m ih =>
      cases hslot : c.slotOf k i with
      | none => exact ⟨[], .unreadable hslot⟩
      | some e =>
          by_cases h0 : e.first = 0
          · exact ⟨[], .zero hslot h0⟩
          obtain ⟨es, hes⟩ := ih (i := i + 1) (by omega) (by omega)
          exact ⟨e :: es, .next hslot h0 (by omega) hes⟩

theorem Store.Sees.stops (h : c.Sees k i es) (hi : i < c.vol.perCluster) :
    ∃ n, c.Stops (c.link^[n] k) := by
  induction h with
  | unreadable hslot =>
      refine ⟨0, Or.inl ⟨_, hi, fun e he => ?_⟩⟩
      rw [Function.iterate_zero_apply, hslot] at he
      cases he
  | zero hslot h0 =>
      refine ⟨0, Or.inl ⟨_, hi, fun e he => ?_⟩⟩
      rw [Function.iterate_zero_apply, hslot, Option.some.injEq] at he
      exact he ▸ h0
  | last _ _ _ hl => exact ⟨0, Or.inr hl⟩
  | next _ _ hlt _ ih => exact ih hlt
  | hop _ _ _ _ _ ih =>
      obtain ⟨n, hn⟩ := ih (by omega)
      exact ⟨n + 1, hn⟩

/-- A scan of a directory ends where its links do. -/
theorem Store.ends_iff (hp : 0 < c.vol.perCluster) : c.Ends a ↔ ∃ es, c.Sees a 0 es := by
  constructor
  · rintro ⟨n, hn⟩
    induction n generalizing a with
    | zero =>
        rcases hn with ⟨i, hi, h⟩ | hl
        · exact Store.sees_of_slot hi h (Nat.zero_le i)
        · exact Store.sees_of_rest (Or.inl hl) hp
    | succ n ih => exact Store.sees_of_rest (Or.inr (ih hn)) hp
  · rintro ⟨es, hes⟩
    exact hes.stops hp

end Sees

section Reads

variable {α : Type} {c : Store} {lba : Nat} {a : α}

/-- A sector that is read into the cache and used, with another way out where the
read fails. -/
theorem Store.stays_read {f : Sector → Prog Drv α} {g : Prog Drv α}
    (hsome : ∀ b, c.readAt lba = some b → Stays c.Behind (f b) a)
    (hnone : c.readAt lba = none → Stays c.Behind g a) :
    Stays c.Behind (do if ← secRead lba then f (← cached) else g) a := by
  refine Moves.of_wp ?_
  rintro s ⟨hs, rfl⟩
  rw [secRead, wp_bind, wp_bind, wp_asks]
  by_cases hhit : s.secCacheLba = lba
  · have hread : s.toStore.readAt lba = some s.secCache := by
      rw [Store.readAt, ← hhit, if_pos hs.held, hs.coherent]
    simp only [id_eq, hhit, if_true, wp_pure, cached, wp_bind, wp_asks]
    exact (hsome _ hread).wp ⟨hs, rfl⟩
  · simp only [id_eq, hhit, if_false, secFlush, ataRead, wp_bind, wp_asks, hs.clean,
      Bool.false_eq_true, wp_pure, if_true, hs.present, wp_modify, hs.working, Bool.true_and,
      decide_eq_true_eq]
    by_cases hlt : lba % 268435456 < s.sectors
    · simp only [hlt, if_true, wp_pure, wp_bind, wp_modify, cached, wp_asks]
      exact (hsome _ (if_pos hlt)).wp ⟨⟨rfl, hs.working, rfl, hlt, rfl⟩, rfl⟩
    · simp only [hlt, if_false, wp_pure, Bool.false_eq_true]
      exact (hnone (if_neg hlt)).wp ⟨⟨rfl, hs.working, rfl, hs.held, hs.coherent⟩, rfl⟩

theorem Store.stays_store : Stays c.Behind getStore c :=
  Moves.asks fun _ hs => hs.2

theorem Store.stays_getStore {f : Store → Prog Drv α} (h : Stays c.Behind (f c) a) :
    Stays c.Behind (getStore >>= f) a :=
  Moves.bind Store.stays_store h

theorem Store.stays_fatGet (k : Nat) : Stays c.Behind (fatGet k) (c.link k) := by
  refine Store.stays_getStore (Store.stays_read (fun b hb => ?_) fun hb => ?_)
  · rw [Store.link, hb]
    exact Moves.pure
  · rw [Store.link, hb]
    exact Moves.pure

theorem Store.stays_dirReadEntry {k i : Nat} {pos : DirPos} (hpos : pos.IsSlot c.vol k i) :
    Stays c.Behind (dirReadEntry pos) (c.slotOf k i) := by
  unfold Store.slotOf
  rw [← hpos.lba, ← hpos.off]
  refine Store.stays_read (fun b hb => ?_) fun hb => ?_
  · rw [hb]
    exact Moves.pure
  · rw [hb]
    exact Moves.pure

theorem Store.stays_dirNext (pos : DirPos) : Stays c.Behind (dirNext pos) (c.nextPos pos) := by
  refine Store.stays_getStore ?_
  unfold Store.nextPos
  dsimp only
  split
  · exact Moves.pure
  split
  · refine Moves.bind (Store.stays_fatGet _) ?_
    split
    · exact Moves.pure
    · exact Moves.pure
  · exact Moves.pure

end Reads

section Scans

variable {L R : Type} {c : Store} {a k i : Nat} {pos : DirPos} {es : List DirEntry}
  {step : L → DirPos → DirEntry → L ⊕ R}

theorem Vol.clusterToLba_lt (v : Vol) (k : Nat) : v.clusterToLba k < 4294967296 :=
  Nat.mod_lt _ (by decide)

theorem isSlot_zero (v : Vol) (k idx : Nat) :
    DirPos.IsSlot v ⟨k, idx, v.clusterToLba k, 0⟩ k 0 := by
  refine ⟨rfl, ?_, rfl⟩
  rw [Nat.zero_div, Nat.add_zero, u32_of_lt (v.clusterToLba_lt k)]

theorem sub32_u32_add (a : Nat) {j : Nat} (hj : j < 4294967296) :
    sub32 (u32 (a + j)) a = j := by
  unfold sub32 u32
  omega

/-- `dir_next` goes to the next slot of the cluster, or from the last one along the
link. -/
theorem DirPos.IsSlot.nextPos (h : pos.IsSlot c.vol k i) (hi : i < c.vol.perCluster)
    (hspc : c.vol.secPerClus ≤ 128) :
    (i + 1 < c.vol.perCluster → (c.nextPos pos).1 = true ∧
        (c.nextPos pos).2.IsSlot c.vol k (i + 1)) ∧
      (i + 1 = c.vol.perCluster → (IsLink (c.link k) → (c.nextPos pos).1 = true ∧
          (c.nextPos pos).2.IsSlot c.vol (c.link k) 0) ∧
        (¬ IsLink (c.link k) → (c.nextPos pos).1 = false)) := by
  have hsec : u32 (pos.lba + 1) = u32 (c.vol.clusterToLba k + (i / 16 + 1)) := by
    rw [h.lba]
    unfold u32
    omega
  have hsub := sub32_u32_add (c.vol.clusterToLba k) (j := i / 16 + 1)
    (by unfold Vol.perCluster at hi; omega)
  have hne : u32 (c.vol.clusterToLba k + (i / 16 + 1)) ≠ c.vol.clusterToLba k := by
    intro heq
    rw [heq] at hsub
    have := sub32_u32_add (c.vol.clusterToLba k) (j := 0) (by decide)
    rw [Nat.add_zero, u32_of_lt (c.vol.clusterToLba_lt k)] at this
    omega
  unfold Store.nextPos
  simp only [h.off, h.cluster, hsec, hsub]
  unfold Vol.perCluster at *
  by_cases hoff : i % 16 * 32 + 32 < 512
  · rw [if_pos hoff]
    refine ⟨fun _ => ⟨rfl, rfl, ?_, ?_⟩, fun hlast => by omega⟩
    · have hdiv : (i + 1) / 16 = i / 16 := by omega
      rw [hdiv]
      exact h.lba
    · change i % 16 * 32 + 32 = _
      omega
  rw [if_neg hoff]
  have hdiv : (i + 1) / 16 = i / 16 + 1 := by omega
  refine ⟨fun hlt => ?_, fun hlast => ?_⟩
  · rw [if_neg fun hmod => ?_]
    · refine ⟨rfl, rfl, ?_, ?_⟩
      · rw [hdiv]
      · change 0 = _
        omega
    · rw [Nat.mod_eq_of_lt (by omega)] at hmod
      omega
  · have hspc' : i / 16 + 1 = c.vol.secPerClus := by omega
    rw [if_pos ⟨by rw [hspc', Nat.mod_self], hne⟩]
    refine ⟨fun hl => ?_, fun hl => ?_⟩
    · unfold IsLink at hl
      rw [if_neg (by omega)]
      exact ⟨rfl, isSlot_zero _ _ _⟩
    · unfold IsLink at hl
      rw [if_pos (by omega)]

/-- The round of a scan. -/
theorem Store.stays_round {st : L} {d : (L × DirPos) ⊕ ScanEnd L R}
    (hpos : pos.IsSlot c.vol k i) (h : (match c.slotOf k i with
      | none => .inr (.ioError st)
      | some e => match step st pos e with
        | .inr r => .inr (.stop r)
        | .inl st' => if (c.nextPos pos).1 then .inl (st', (c.nextPos pos).2)
            else .inr (.endOfDir st' (c.nextPos pos).2)) = d) :
    Stays c.Behind (do
      match ← dirReadEntry pos with
      | none => pure (.inr (.ioError st))
      | some e => match step st pos e with
        | .inr r => pure (.inr (.stop r))
        | .inl st' => do
            let next ← dirNext pos
            if next.1 then pure (.inl (st', next.2))
            else pure (.inr (.endOfDir st' next.2))) d := by
  subst h
  refine Moves.bind (Store.stays_dirReadEntry hpos) ?_
  cases c.slotOf k i with
  | none => exact Moves.pure
  | some e =>
      dsimp only
      cases step st pos e with
      | inr r => exact Moves.pure
      | inl st' =>
          refine Moves.bind (Store.stays_dirNext pos) ?_
          dsimp only
          split
          · exact Moves.pure
          · exact Moves.pure

section Rounds

variable {st st' : L} {e : DirEntry} (hpos : pos.IsSlot c.vol k i)
include hpos

theorem Store.stays_scan_error (hslot : c.slotOf k i = none) :
    Stays c.Behind (scanDir step st pos) (.ioError st) := by
  refine Moves.loop_last (Store.stays_round hpos ?_)
  rw [hslot]

theorem Store.stays_scan_stop {r : R} (hslot : c.slotOf k i = some e)
    (hstep : step st pos e = .inr r) : Stays c.Behind (scanDir step st pos) (.stop r) := by
  refine Moves.loop_last (Store.stays_round hpos ?_)
  rw [hslot]
  simp only [hstep]

theorem Store.stays_scan_end (hslot : c.slotOf k i = some e) (hstep : step st pos e = .inl st')
    (hnext : (c.nextPos pos).1 = false) :
    Stays c.Behind (scanDir step st pos) (.endOfDir st' (c.nextPos pos).2) := by
  refine Moves.loop_last (Store.stays_round hpos ?_)
  rw [hslot]
  simp only [hstep, hnext, Bool.false_eq_true, if_false]

theorem Store.stays_scan_go (hslot : c.slotOf k i = some e) (hstep : step st pos e = .inl st')
    (hnext : (c.nextPos pos).1 = true) {r : ScanEnd L R}
    (h : Stays c.Behind (scanDir step st' (c.nextPos pos).2) r) :
    Stays c.Behind (scanDir step st pos) r := by
  refine Moves.loop_next (Store.stays_round hpos ?_) h
  rw [hslot]
  simp only [hstep, hnext, if_true]

end Rounds

variable (step) in
/-- A scan that ends answers, and what makes it stop is an entry that it sees, or an
unused one. -/
theorem Store.Sees.scanDir (h : c.Sees k i es) (hi : i < c.vol.perCluster)
    (hspc : c.vol.secPerClus ≤ 128)
    (hzero : ∀ st pos (e : DirEntry), e.first = 0 → ∃ r, step st pos e = .inr r)
    (st : L) (hpos : pos.IsSlot c.vol k i) :
    ∃ r, Stays c.Behind (scanDir step st pos) r ∧ ∀ x, r = .stop x →
      ∃ e st' pos', step st' pos' e = .inr x ∧ (e.first = 0 ∨ e ∈ es) := by
  induction h generalizing st pos with
  | unreadable hslot =>
      exact ⟨_, Store.stays_scan_error hpos hslot, fun x hx => by cases hx⟩
  | zero hslot h0 =>
      obtain ⟨r, hr⟩ := hzero st pos _ h0
      refine ⟨_, Store.stays_scan_stop hpos hslot hr, fun x hx => ?_⟩
      cases hx
      exact ⟨_, st, pos, hr, Or.inl h0⟩
  | @last k i e hslot h0 hlast hl =>
      cases hs : step st pos e with
      | inr r =>
          refine ⟨_, Store.stays_scan_stop hpos hslot hs, fun x hx => ?_⟩
          cases hx
          exact ⟨e, st, pos, hs, Or.inr List.mem_cons_self⟩
      | inl st' =>
          have hnext := ((hpos.nextPos hi hspc).2 hlast).2 hl
          exact ⟨_, Store.stays_scan_end hpos hslot hs hnext, fun x hx => by cases hx⟩
  | @next k i e es hslot h0 hlt _ ih =>
      cases hs : step st pos e with
      | inr r =>
          refine ⟨_, Store.stays_scan_stop hpos hslot hs, fun x hx => ?_⟩
          cases hx
          exact ⟨e, st, pos, hs, Or.inr List.mem_cons_self⟩
      | inl st' =>
          obtain ⟨hnext, hpos'⟩ := (hpos.nextPos hi hspc).1 hlt
          obtain ⟨r, hr, hstop⟩ := ih hlt st' hpos'
          refine ⟨r, Store.stays_scan_go hpos hslot hs hnext hr, fun x hx => ?_⟩
          obtain ⟨e', st₁, pos₁, hs₁, hmem⟩ := hstop x hx
          exact ⟨e', st₁, pos₁, hs₁, hmem.imp_right (List.mem_cons_of_mem e)⟩
  | @hop k i e es hslot h0 hlast hl _ ih =>
      cases hs : step st pos e with
      | inr r =>
          refine ⟨_, Store.stays_scan_stop hpos hslot hs, fun x hx => ?_⟩
          cases hx
          exact ⟨e, st, pos, hs, Or.inr List.mem_cons_self⟩
      | inl st' =>
          obtain ⟨hnext, hpos'⟩ := ((hpos.nextPos hi hspc).2 hlast).1 hl
          obtain ⟨r, hr, hstop⟩ := ih (by omega) st' hpos'
          refine ⟨r, Store.stays_scan_go hpos hslot hs hnext hr, fun x hx => ?_⟩
          obtain ⟨e', st₁, pos₁, hs₁, hmem⟩ := hstop x hx
          exact ⟨e', st₁, pos₁, hs₁, hmem.imp_right (List.mem_cons_of_mem e)⟩

variable (step) in
/-- A scan whose step passes over every used entry, over links that never stop it, runs
for ever. -/
theorem Store.scanDir_diverges (hno : ¬ ∃ es, c.Sees k i es) (hi : i < c.vol.perCluster)
    (hspc : c.vol.secPerClus ≤ 128)
    (hgo : ∀ st pos (e : DirEntry), e.first ≠ 0 → ∃ st', step st pos e = .inl st')
    (st : L) (hpos : pos.IsSlot c.vol k i) {s : Drv} (hs : c.Behind s) :
    (scanDir step st pos).Diverges s := by
  refine Moves.diverges_loop (P := c.Behind) (fun (p : L × DirPos) => ∃ k i,
    i < c.vol.perCluster ∧ p.2.IsSlot c.vol k i ∧ ¬ ∃ es, c.Sees k i es) ?_
    ⟨k, i, hi, hpos, hno⟩ hs
  rintro ⟨st, pos⟩ ⟨k, i, hi, hpos, hno⟩
  cases hslot : c.slotOf k i with
  | none => exact absurd ⟨[], .unreadable hslot⟩ hno
  | some e =>
      have h0 : e.first ≠ 0 := fun h0 => hno ⟨[], .zero hslot h0⟩
      obtain ⟨st', hst'⟩ := hgo st pos e h0
      have hgoes : (c.nextPos pos).1 = true ∧ ∃ k' i', i' < c.vol.perCluster ∧
          (c.nextPos pos).2.IsSlot c.vol k' i' ∧ ¬ ∃ es, c.Sees k' i' es := by
        rcases Nat.lt_or_ge (i + 1) c.vol.perCluster with hlt | hge
        · obtain ⟨hnext, hpos'⟩ := (hpos.nextPos hi hspc).1 hlt
          refine ⟨hnext, k, i + 1, hlt, hpos', ?_⟩
          rintro ⟨es, hes⟩
          exact hno ⟨e :: es, .next hslot h0 hlt hes⟩
        · have hlast : i + 1 = c.vol.perCluster := by omega
          by_cases hl : IsLink (c.link k)
          · obtain ⟨hnext, hpos'⟩ := ((hpos.nextPos hi hspc).2 hlast).1 hl
            refine ⟨hnext, c.link k, 0, by omega, hpos', ?_⟩
            rintro ⟨es, hes⟩
            exact hno ⟨e :: es, .hop hslot h0 hlast hl hes⟩
          · exact absurd ⟨[e], .last hslot h0 hlast hl⟩ hno
      refine ⟨(st', (c.nextPos pos).2), Store.stays_round hpos ?_, hgoes.2⟩
      rw [hslot]
      simp only [hst', hgoes.1, if_true]

end Scans

end Chimaera.Fat32
