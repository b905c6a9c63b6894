/-
The periodic schedule: which descriptors the controller meets in each frame.
A descriptor has one link word but hangs on the lists of many frames, so these
lists are all right only while each interval is a multiple of the earlier ones.
-/
import Chimaera.Usb.Uhci

namespace Chimaera.Usb

variable {s s' : Uhci} {td a b p : UInt32} {n i f : Nat} {as ps : List UInt32}

structure IsTd (a : UInt32) : Prop where
  aligned : tdAddr a = a
  ne : a ≠ 0

instance : Decidable (IsTd a) := decidable_of_iff (tdAddr a = a ∧ a ≠ 0)
  ⟨fun ⟨h, h'⟩ => ⟨h, h'⟩, fun h => ⟨h.aligned, h.ne⟩⟩

theorem IsTd.and_terminate (h : IsTd a) : a &&& uhciLpTerminate = 0 := by
  rw [← h.aligned, tdAddr, UInt32.and_assoc]
  exact UInt32.and_zero

theorem tdAddr_terminate : tdAddr uhciLpTerminate = 0 := by decide

theorem dvd_sub_iff (hif : i < f) : n ∣ f - i ↔ i + n ≤ f ∧ n ∣ f - (i + n) := by
  constructor
  · intro h
    have hle : n ≤ f - i := Nat.le_of_dvd (by omega) h
    refine ⟨by omega, ?_⟩
    rw [Nat.sub_add_eq]
    exact Nat.dvd_sub h (Nat.dvd_refl n)
  · rintro ⟨hle, h⟩
    have heq : f - i = f - (i + n) + n := by omega
    rw [heq]
    exact Nat.dvd_add h (Nat.dvd_refl n)

theorem frameList_insertLoop (hn : 0 < n) :
    (insertLoop td n i s).frameList f =
      if i ≤ f ∧ f < uhciFrameCount ∧ n ∣ f - i then td else s.frameList f := by
  fun_induction insertLoop td n i s with
  | case1 i s h ih =>
      rw [ih]
      rcases Nat.lt_trichotomy f i with hlt | rfl | hgt
      · have h₁ : ¬ i ≤ f := by omega
        have h₂ : ¬ i + n ≤ f := by omega
        have hne : f ≠ i := by omega
        simp [h₁, h₂, hne]
      · have h₂ : ¬ f + n ≤ f := by omega
        simp [h₂, h.1]
      · have hne : f ≠ i := by omega
        simp [dvd_sub_iff hgt, hne, Nat.le_of_lt hgt, and_left_comm]
  | case2 i s h =>
      have hi : ¬ (i ≤ f ∧ f < uhciFrameCount ∧ n ∣ f - i) := by omega
      rw [if_neg hi]

theorem link_insertLoop (hn : 0 < n) (hi : i < uhciFrameCount) :
    (insertLoop td n i s).link = Function.update s.link td
      (s.frameList (i + (uhciFrameCount - 1 - i) / n * n)) := by
  fun_induction insertLoop td n i s with
  | case1 i s h ih =>
      by_cases hnext : i + n < uhciFrameCount
      · have hdiv : (uhciFrameCount - 1 - i) / n = (uhciFrameCount - 1 - (i + n)) / n + 1 := by
          rw [← Nat.add_div_right _ hn]
          congr 1
          omega
        have hlast : i + n + (uhciFrameCount - 1 - (i + n)) / n * n =
            i + (uhciFrameCount - 1 - i) / n * n := by
          rw [hdiv, Nat.add_mul]
          omega
        have hne : i + (uhciFrameCount - 1 - i) / n * n ≠ i := by
          rw [← hlast]
          omega
        rw [ih hnext, hlast, Uhci.frameList_setFrame, Function.update_of_ne hne]
        simp
      · have hdiv : (uhciFrameCount - 1 - i) / n = 0 := Nat.div_eq_of_lt (by omega)
        have hstop : ∀ t, insertLoop td n (i + n) t = t := by
          intro t
          rw [insertLoop, if_neg (by omega)]
        rw [hstop, hdiv]
        simp
  | case2 i s h => exact absurd ⟨hi, hn⟩ h

theorem ready_insertLoop : (insertLoop td n i s).ready = s.ready := by
  fun_induction insertLoop td n i s with
  | case1 i s h ih => rw [ih]; rfl
  | case2 i s h => rfl

/-- The last frame that gets a TD of interval `n`. -/
def lastFrame (n : Nat) : Nat := (uhciFrameCount - 1) / n * n

theorem lastFrame_lt : lastFrame n < uhciFrameCount := by
  have := Nat.div_mul_le_self (uhciFrameCount - 1) n
  unfold lastFrame
  unfold uhciFrameCount at *
  omega

theorem dvd_lastFrame : n ∣ lastFrame n := Nat.dvd_mul_left n _

section Insert

variable {k : UInt8}

theorem insertPeriodicTd_eq (hr : s.ready = true) (ha : IsTd a) (hk : 1 ≤ k.toNat) :
    uhciInsertPeriodicTd s a k = insertLoop a k.toNat 0 s := by
  have hk0 : k ≠ 0 := by
    rintro rfl
    simp at hk
  simp [uhciInsertPeriodicTd, hr, ha.ne, hk0]

theorem frameList_insert (hr : s.ready = true) (ha : IsTd a) (hk : 1 ≤ k.toNat)
    (hf : f < uhciFrameCount) : (uhciInsertPeriodicTd s a k).frameList f =
      if k.toNat ∣ f then a else s.frameList f := by
  rw [insertPeriodicTd_eq hr ha hk, frameList_insertLoop hk]
  simp [hf]

theorem link_insert (hr : s.ready = true) (ha : IsTd a) (hk : 1 ≤ k.toNat) :
    (uhciInsertPeriodicTd s a k).link =
      Function.update s.link a (s.frameList (lastFrame k.toNat)) := by
  rw [insertPeriodicTd_eq hr ha hk, link_insertLoop hk (by decide)]
  simp [lastFrame]

theorem ready_insert : (uhciInsertPeriodicTd s a k).ready = s.ready := by
  unfold uhciInsertPeriodicTd
  split
  · rfl
  · exact ready_insertLoop

end Insert

/-- The inserted TDs with their intervals, newest first. -/
abbrev History := List (UInt32 × UInt8)

/-- `uhci_insert_periodic_td` for one TD after the other. -/
def insertAll (s : Uhci) (ops : List (UInt32 × UInt8)) : Uhci :=
  ops.foldl (fun s x => uhciInsertPeriodicTd s x.1 x.2) s

/-- After `uhci_init`: every list is empty. -/
structure Idle (s : Uhci) : Prop where
  ready : s.ready = true
  frames : ∀ f < uhciFrameCount, s.frameList f = uhciLpTerminate

/-- What may be inserted: distinct TDs with intervals from 1 to 255. -/
structure Insertable (h : History) : Prop where
  isTd : ∀ x ∈ h, IsTd x.1
  pos : ∀ x ∈ h, 1 ≤ x.2.toNat
  nodup : (h.map Prod.fst).Nodup

theorem Insertable.tail {x : UInt32 × UInt8} {h : History} (hi : Insertable (x :: h)) :
    Insertable h where
  isTd y hy := hi.isTd y (List.mem_cons_of_mem x hy)
  pos y hy := hi.pos y (List.mem_cons_of_mem x hy)
  nodup := (List.nodup_cons.mp hi.nodup).2

/-- Every TD links to an older one or to the end of the list. -/
def Ordered (s : Uhci) : List UInt32 → Prop
  | [] => True
  | a :: as => (s.link a = uhciLpTerminate ∨ s.link a ∈ as) ∧ Ordered s as

theorem Ordered.congr (h : Ordered s as) (hl : ∀ a ∈ as, s'.link a = s.link a) :
    Ordered s' as := by
  induction as with
  | nil => trivial
  | cons a as ih =>
      refine ⟨?_, ih h.2 fun b hb => hl b (List.mem_cons_of_mem a hb)⟩
      rw [hl a List.mem_cons_self]
      exact h.1

/-- The frame list after the insertions `h`. -/
structure Listed (s : Uhci) (h : History) : Prop where
  ready : s.ready = true
  heads : ∀ f < uhciFrameCount, s.frameList f = uhciLpTerminate ∨ s.frameList f ∈ h.map Prod.fst
  ordered : Ordered s (h.map Prod.fst)

theorem Listed.insert {x : UInt32 × UInt8} {h : History} (hs : Listed s h)
    (hi : Insertable (x :: h)) : Listed (uhciInsertPeriodicTd s x.1 x.2) (x :: h) := by
  have hx := hi.isTd x List.mem_cons_self
  have hk := hi.pos x List.mem_cons_self
  have hnew : x.1 ∉ h.map Prod.fst := (List.nodup_cons.mp hi.nodup).1
  refine ⟨ready_insert.trans hs.ready, ?_, ?_, ?_⟩
  · intro f hf
    rw [frameList_insert hs.ready hx hk hf]
    split
    · exact Or.inr (by simp)
    · exact (hs.heads f hf).imp_right (List.mem_cons_of_mem _)
  · rw [link_insert hs.ready hx hk, Function.update_self]
    exact hs.heads _ lastFrame_lt
  · apply hs.ordered.congr
    intro a ha
    rw [link_insert hs.ready hx hk, Function.update_of_ne]
    rintro rfl
    exact hnew ha

/-- In frame `f` the controller meets the TDs `as`, one after the other, and
then the end of the list. -/
def Meets (s : Uhci) (f : Nat) (as : List UInt32) : Prop :=
  ∃ ps, s.Walk (s.frameList f) ps ∧ ps.map tdAddr = as

theorem map_tdAddr (h : ∀ a ∈ as, IsTd a) : as.map tdAddr = as := by
  conv_rhs => rw [← List.map_id as]
  exact List.map_congr_left fun a ha => (h a ha).aligned

theorem walk_terminate : s.Walk uhciLpTerminate [] := Links.Chain.nil_iff.mpr (by decide)

theorem walk_cons (ha : IsTd a) : s.Walk a (a :: ps) ↔ s.Walk (s.link a) ps := by
  unfold Uhci.Walk
  rw [Links.Chain.cons_iff]
  simp only [true_and, ha.and_terminate]
  rw [ha.aligned]

theorem Walk.unique (h : s.Walk p ps) (h' : s.Walk p as) : ps = as :=
  Links.Chain.unique (fun _ hx hne => hne hx) h h'

/-- A walk follows the order of the insertions, newest first. -/
theorem Ordered.walk (h : Ordered s as) (htd : ∀ a ∈ as, IsTd a)
    (hp : p = uhciLpTerminate ∨ p ∈ as) : ∃ ps, s.Walk p ps ∧ ps.Sublist as := by
  induction as generalizing p with
  | nil =>
      rcases hp with rfl | hp
      · exact ⟨[], walk_terminate, List.Sublist.refl _⟩
      · simp at hp
  | cons a as ih =>
      have htd' : ∀ b ∈ as, IsTd b := fun b hb => htd b (List.mem_cons_of_mem a hb)
      rcases hp with rfl | hp
      · exact ⟨[], walk_terminate, List.nil_sublist _⟩
      rcases List.mem_cons.mp hp with rfl | hp
      · obtain ⟨ps, hw, hsub⟩ := ih h.2 htd' h.1
        exact ⟨p :: ps, (walk_cons (htd p List.mem_cons_self)).mpr hw, hsub.cons_cons p⟩
      · obtain ⟨ps, hw, hsub⟩ := ih h.2 htd' (Or.inr hp)
        exact ⟨ps, hw, hsub.cons a⟩

theorem Listed.walk {h : History} (hs : Listed s h) (hi : Insertable h)
    (hf : f < uhciFrameCount) :
    ∃ ps, s.Walk (s.frameList f) ps ∧ ps.Sublist (h.map Prod.fst) := by
  apply hs.ordered.walk _ (hs.heads f hf)
  intro a ha
  obtain ⟨x, hx, rfl⟩ := List.mem_map.mp ha
  exact hi.isTd x hx

theorem Listed.meets {h : History} (hs : Listed s h) (hi : Insertable h)
    (hf : f < uhciFrameCount) :
    ∃ as, s.Walk (s.frameList f) as ∧ as.Sublist (h.map Prod.fst) ∧ Meets s f as ∧ as.Nodup := by
  obtain ⟨ps, hw, hsub⟩ := hs.walk hi hf
  refine ⟨ps, hw, hsub, ⟨ps, hw, map_tdAddr fun a ha => ?_⟩, hi.nodup.sublist hsub⟩
  obtain ⟨x, hx, rfl⟩ := List.mem_map.mp (hsub.subset ha)
  exact hi.isTd x hx

theorem Meets.unique {bs : List UInt32} (h : Meets s f as) (h' : Meets s f bs) : as = bs := by
  obtain ⟨ps, hw, rfl⟩ := h
  obtain ⟨qs, hw', rfl⟩ := h'
  rw [Walk.unique hw hw']

theorem Walk.congr (h : s.Walk p ps) (hl : s'.link = s.link) : s'.Walk p ps := by
  unfold Uhci.Walk
  rw [hl]
  exact h

/-- In every frame the controller meets exactly the TDs due then, each once. -/
def Polls (s : Uhci) (ops : List (UInt32 × UInt8)) : Prop :=
  ∀ f < uhciFrameCount, ∃ as, Meets s f as ∧ as.Nodup ∧
    ∀ a, a ∈ as ↔ ∃ k, (a, k) ∈ ops ∧ k.toNat ∣ f

/-- Removing `td` takes it off every list and changes nothing else. -/
def Drops (s : Uhci) (td : UInt32) : Prop :=
  ∀ f < uhciFrameCount, ∀ as, Meets s f as →
    Meets (uhciRemovePeriodicTd s td) f (as.filter (· ≠ td))

theorem Insertable.interval_unique {h : History} {k m : UInt8} (hi : Insertable h)
    (hk : (a, k) ∈ h) (hm : (a, m) ∈ h) : k = m := by
  have := List.inj_on_of_nodup_map hi.nodup hk hm rfl
  exact congrArg Prod.snd this

theorem pairwise_of_split {α : Type} {R : α → α → Prop} {l : List α}
    (h : ∀ pre x post, l = pre ++ x :: post → ∀ y ∈ post, R x y) : l.Pairwise R := by
  induction l with
  | nil => exact List.Pairwise.nil
  | cons x l ih =>
      refine List.Pairwise.cons (h [] x l rfl) (ih fun pre y post heq => ?_)
      exact h (x :: pre) y post (by rw [heq, List.cons_append])

section Necessary

variable {h : History}

/-- Frame 0 is due for every TD, so its list threads them all. -/
theorem Polls.walk_zero (hp : Polls s h) (hs : Listed s h) (hi : Insertable h) :
    s.Walk (s.frameList 0) (h.map Prod.fst) := by
  obtain ⟨as, hw, hsub, hm, hnd⟩ := hs.meets hi (f := 0) (by decide)
  obtain ⟨bs, hm', -, hmem⟩ := hp 0 (by decide)
  have hall : h.map Prod.fst ⊆ as := by
    intro a ha
    obtain ⟨⟨a, k⟩, hx, rfl⟩ := List.mem_map.mp ha
    rw [hm.unique hm', hmem]
    exact ⟨k, hx, Nat.dvd_zero _⟩
  have heq : as = h.map Prod.fst :=
    hsub.eq_of_length_le (List.subperm_of_subset hi.nodup hall).length_le
  rwa [heq] at hw

theorem Polls.pairwise (hp : Polls s h) (hs : Listed s h) (hi : Insertable h) :
    h.Pairwise fun x y => y.2.toNat ∣ x.2.toNat := by
  apply pairwise_of_split
  rintro pre ⟨a, k⟩ post rfl ⟨b, m⟩ hy
  have hzero := hp.walk_zero hs hi
  rw [List.map_append, List.map_cons] at hzero
  -- the list of frame `k` meets `a`, and from there on follows the list of frame 0
  have hk : k.toNat < uhciFrameCount := Nat.lt_trans k.toNat_lt (by decide)
  obtain ⟨as, hw, -, hm, -⟩ := hs.meets hi hk
  obtain ⟨bs, hm', -, hmem⟩ := hp _ hk
  obtain rfl := hm.unique hm'
  have ha : a ∈ as := (hmem a).mpr ⟨k, by simp, Nat.dvd_refl _⟩
  obtain ⟨q, r, rfl⟩ := List.append_of_mem ha
  have htail := Walk.unique (Links.Chain.suffix hw) (Links.Chain.suffix hzero)
  rw [List.cons.injEq] at htail
  have hb : b ∈ q ++ a :: r := by
    rw [htail.2]
    refine List.mem_append_right _ (List.mem_cons_of_mem _ ?_)
    exact List.mem_map.mpr ⟨(b, m), hy, rfl⟩
  obtain ⟨m', hm', hdvd⟩ := (hmem b).mp hb
  rwa [hi.interval_unique hm' (List.mem_append_right _ (List.mem_cons_of_mem _ hy))] at hdvd

end Necessary

/-- The TDs of `h` that are due in frame `f`. -/
def due (h : History) (f : Nat) : List UInt32 :=
  (h.filter fun x => x.2.toNat ∣ f).map Prod.fst

def Threads (s : Uhci) (h : History) : Prop :=
  ∀ f < uhciFrameCount, s.Walk (s.frameList f) (due h f)

theorem Walk.congr_of_not_mem (h : s.Walk p as) (htd : ∀ b ∈ as, IsTd b) (ha : a ∉ as)
    (hl : ∀ b, b ≠ a → s'.link b = s.link b) : s'.Walk p as := by
  apply Links.Chain.congr h
  intro b hb
  rw [(htd b hb).aligned]
  apply hl
  rintro rfl
  exact ha hb

theorem due_sublist {h : History} : (due h f).Sublist (h.map Prod.fst) :=
  List.Sublist.map _ List.filter_sublist

theorem due_isTd {h : History} (hi : Insertable h) (ha : a ∈ due h f) : IsTd a := by
  obtain ⟨x, hx, rfl⟩ := List.mem_map.mp ha
  exact hi.isTd x (List.mem_of_mem_filter hx)

theorem Threads.insert {x : UInt32 × UInt8} {h : History} (ht : Threads s h) (hs : Listed s h)
    (hi : Insertable (x :: h)) (hdvd : ∀ y ∈ h, y.2.toNat ∣ x.2.toNat) :
    Threads (uhciInsertPeriodicTd s x.1 x.2) (x :: h) := by
  have hx := hi.isTd x List.mem_cons_self
  have hk := hi.pos x List.mem_cons_self
  have hnew : x.1 ∉ h.map Prod.fst := (List.nodup_cons.mp hi.nodup).1
  have hkeep : ∀ p f, s.Walk p (due h f) →
      (uhciInsertPeriodicTd s x.1 x.2).Walk p (due h f) := by
    intro p f hw
    apply Walk.congr_of_not_mem hw (fun b hb => due_isTd hi.tail hb)
      (fun hm => hnew (due_sublist.subset hm))
    intro b hb
    rw [link_insert hs.ready hx hk, Function.update_of_ne hb]
  intro f hf
  rw [frameList_insert hs.ready hx hk hf]
  by_cases hd : x.2.toNat ∣ f
  · have hdue : due (x :: h) f = x.1 :: due h f := by simp [due, hd]
    have hall : due h (lastFrame x.2.toNat) = due h f := by
      unfold due
      congr 1
      apply List.filter_congr
      intro y hy
      have h₁ := Nat.dvd_trans (hdvd y hy) hd
      have h₂ := Nat.dvd_trans (hdvd y hy) (dvd_lastFrame (n := x.2.toNat))
      simp [h₁, h₂]
    rw [if_pos hd, hdue, walk_cons hx, link_insert hs.ready hx hk, Function.update_self]
    apply hkeep
    rw [← hall]
    exact ht _ lastFrame_lt
  · have hdue : due (x :: h) f = due h f := by simp [due, hd]
    rw [if_neg hd, hdue]
    exact hkeep _ f (ht f hf)

theorem Threads.polls {h : History} (ht : Threads s h) (hi : Insertable h) : Polls s h := by
  intro f hf
  refine ⟨due h f, ⟨_, ht f hf, map_tdAddr fun a ha => due_isTd hi ha⟩,
    hi.nodup.sublist due_sublist, fun a => ?_⟩
  simp [due]

theorem foldl_removeFrame (m : Nat) :
    ((List.range m).foldl (removeFrame td) s).link = s.link ∧
      ∀ f, ((List.range m).foldl (removeFrame td) s).frameList f =
        if f < m ∧ tdAddr (s.frameList f) = td then s.link td else s.frameList f := by
  induction m with
  | zero => simp
  | succ m ih =>
      obtain ⟨hl, hf⟩ := ih
      rw [List.range_succ, List.foldl_append, List.foldl_cons, List.foldl_nil]
      generalize (List.range m).foldl (removeFrame td) s = t at hl hf
      have hm : t.frameList m = s.frameList m := by simp [hf]
      unfold removeFrame
      rw [hm, hl]
      split
      · next hat =>
        refine ⟨hl, fun f => ?_⟩
        rw [Uhci.frameList_setFrame]
        by_cases hfm : f = m
        · subst hfm
          simp [hat]
        · have hlt : f < m + 1 ↔ f < m := by omega
          simp [hfm, hf, hlt]
      · next hat =>
        refine ⟨hl, fun f => ?_⟩
        rw [hf]
        by_cases hfm : f = m
        · subst hfm
          simp [hat]
        · have hlt : f < m + 1 ↔ f < m := by omega
          simp [hlt]

theorem link_remove (hr : s.ready = true) (htd : IsTd td) :
    (uhciRemovePeriodicTd s td).link = s.link := by
  simp only [uhciRemovePeriodicTd, hr, htd.ne, Bool.not_true, beq_iff_eq, Bool.false_or,
    if_false]
  exact (foldl_removeFrame _).1

theorem frameList_remove (hr : s.ready = true) (htd : IsTd td) (hf : f < uhciFrameCount) :
    (uhciRemovePeriodicTd s td).frameList f =
      if tdAddr (s.frameList f) = td then s.link td else s.frameList f := by
  simp only [uhciRemovePeriodicTd, hr, htd.ne, Bool.not_true, beq_iff_eq, Bool.false_or,
    if_false]
  rw [(foldl_removeFrame _).2]
  simp [hf]

theorem Listed.addr_eq_iff {h : History} (hs : Listed s h) (hi : Insertable h) (htd : IsTd td)
    (hf : f < uhciFrameCount) : tdAddr (s.frameList f) = td ↔ s.frameList f = td := by
  rcases hs.heads f hf with heq | hm
  · rw [heq, tdAddr_terminate]
    constructor
    · rintro rfl
      exact absurd rfl htd.ne
    · rintro rfl
      exact absurd htd.aligned (by decide)
  · obtain ⟨x, hx, heq⟩ := List.mem_map.mp hm
    rw [← heq, (hi.isTd x hx).aligned]

/-- The newest TD is at the head of every list it is on. -/
theorem Listed.drops {h : History} (hs : Listed s h) (hi : Insertable h) (htd : IsTd td)
    (hnew : td ∈ h.map Prod.fst → (h.map Prod.fst).head? = some td) : Drops s td := by
  intro f hf as hm
  obtain ⟨bs, hw, hsub, hm', hnd⟩ := hs.meets hi hf
  obtain rfl := hm.unique hm'
  have hisTd : ∀ a ∈ as, IsTd a := by
    intro a ha
    obtain ⟨x, hx, rfl⟩ := List.mem_map.mp (hsub.subset ha)
    exact hi.isTd x hx
  by_cases hat : s.frameList f = td
  · obtain ⟨rest, rfl⟩ := Links.Chain.head_mem hw (by
      rw [hat]
      exact fun hne => hne htd.and_terminate)
    rw [hat] at hw hnd hisTd
    have hrest : ∀ a ∈ rest, a ≠ td := by
      rintro a ha rfl
      exact (List.nodup_cons.mp hnd).1 ha
    have hfilter : (s.frameList f :: rest).filter (· ≠ td) = rest := by
      rw [hat]
      simpa using hrest
    rw [hfilter]
    refine ⟨rest, ?_, map_tdAddr fun a ha => hisTd a (List.mem_cons_of_mem _ ha)⟩
    rw [frameList_remove hs.ready htd hf, if_pos ((hs.addr_eq_iff hi htd hf).mpr hat)]
    exact Walk.congr ((walk_cons htd).mp hw) (link_remove hs.ready htd)
  · have hno : td ∉ as := by
      intro hin
      obtain ⟨rest, heq⟩ := List.head?_eq_some_iff.mp (hnew (hsub.subset hin))
      have hndh := hi.nodup
      rw [heq] at hsub hndh
      cases hsub with
      | cons _ hsub => exact (List.nodup_cons.mp hndh).1 (hsub.subset hin)
      | cons_cons _ hsub =>
          obtain ⟨hhead, -, -⟩ := Links.Chain.cons_iff.mp hw
          exact hat hhead
    have hfilter : as.filter (· ≠ td) = as := by
      rw [List.filter_eq_self]
      intro a ha
      simp only [ne_eq, decide_not, Bool.not_eq_true', decide_eq_false_iff_not]
      rintro rfl
      exact hno ha
    rw [hfilter]
    refine ⟨as, ?_, map_tdAddr hisTd⟩
    rw [frameList_remove hs.ready htd hf, if_neg (mt (hs.addr_eq_iff hi htd hf).mp hat)]
    exact Walk.congr hw (link_remove hs.ready htd)

/-- An older TD stays on the list of frame 0. -/
theorem Drops.newest {h : History} (hd : Drops s td) (hp : Polls s h) (hs : Listed s h)
    (hi : Insertable h) (hin : td ∈ h.map Prod.fst) : (h.map Prod.fst).head? = some td := by
  have hw := hp.walk_zero hs hi
  have hisTd : ∀ a ∈ h.map Prod.fst, IsTd a := by
    intro a ha
    obtain ⟨x, hx, rfl⟩ := List.mem_map.mp ha
    exact hi.isTd x hx
  have htd := hisTd td hin
  obtain ⟨a, rest, heq⟩ := List.exists_cons_of_ne_nil (List.ne_nil_of_mem hin)
  rw [heq] at hw hisTd hin ⊢
  obtain ⟨hhead, -, -⟩ := Links.Chain.cons_iff.mp hw
  by_contra hne
  have hat : s.frameList 0 ≠ td := by
    rw [hhead]
    rintro rfl
    exact hne rfl
  have hm : Meets s 0 (a :: rest) := ⟨_, hw, map_tdAddr hisTd⟩
  have hm' : Meets (uhciRemovePeriodicTd s td) 0 (a :: rest) := by
    refine ⟨_, ?_, map_tdAddr hisTd⟩
    rw [frameList_remove hs.ready htd (by decide),
      if_neg (mt (hs.addr_eq_iff hi htd (by decide)).mp hat)]
    exact Walk.congr hw (link_remove hs.ready htd)
  have hsame := (hd 0 (by decide) _ hm).unique hm'
  rw [← hsame, List.mem_filter] at hin
  simpa using hin.2

theorem Insertable.reverse {h : History} (hi : Insertable h) : Insertable h.reverse where
  isTd x hx := hi.isTd x (List.mem_reverse.mp hx)
  pos x hx := hi.pos x (List.mem_reverse.mp hx)
  nodup := by
    rw [List.map_reverse]
    exact List.nodup_reverse.mpr hi.nodup

theorem Idle.listed (hs : Idle s) : Listed s [] :=
  ⟨hs.ready, fun f hf => Or.inl (hs.frames f hf), trivial⟩

theorem Insertable.append {g h : History} (hi : Insertable (g ++ h)) : Insertable h where
  isTd y hy := hi.isTd y (List.mem_append_right g hy)
  pos y hy := hi.pos y (List.mem_append_right g hy)
  nodup := by
    have hnd := hi.nodup
    rw [List.map_append] at hnd
    exact (List.nodup_append.mp hnd).2.1

theorem Listed.insertAll {ops h : History} (hs : Listed s h)
    (hi : Insertable (ops.reverse ++ h)) : Listed (insertAll s ops) (ops.reverse ++ h) := by
  induction ops generalizing s h with
  | nil => exact hs
  | cons x ops ih =>
      rw [List.reverse_cons, List.append_assoc] at hi ⊢
      exact ih (hs.insert hi.append) hi

theorem Threads.insertAll {ops h : History} (ht : Threads s h) (hs : Listed s h)
    (hi : Insertable (ops.reverse ++ h))
    (hdvd : (ops.reverse ++ h).Pairwise fun x y => y.2.toNat ∣ x.2.toNat) :
    Threads (insertAll s ops) (ops.reverse ++ h) := by
  induction ops generalizing s h with
  | nil => exact ht
  | cons x ops ih =>
      rw [List.reverse_cons, List.append_assoc] at hi hdvd ⊢
      have hx := (List.pairwise_append.mp hdvd).2.1
      exact ih (ht.insert hs hi.append (List.pairwise_cons.mp hx).1) (hs.insert hi.append) hi hdvd

theorem Idle.threads (hs : Idle s) : Threads s [] := by
  intro f hf
  rw [hs.frames f hf]
  exact walk_terminate

variable {ops : History}

theorem Idle.listed_insertAll (hs : Idle s) (hi : Insertable ops) :
    Listed (insertAll s ops) ops.reverse := by
  rw [← List.append_nil ops.reverse]
  exact hs.listed.insertAll (by rw [List.append_nil]; exact hi.reverse)

theorem polls_reverse : Polls s ops.reverse ↔ Polls s ops := by
  simp only [Polls, List.mem_reverse]

/-- The lists are right exactly if the intervals form a chain of multiples. -/
theorem Idle.polls_iff (hs : Idle s) (hi : Insertable ops) :
    Polls (insertAll s ops) ops ↔ ops.Pairwise fun x y => x.2.toNat ∣ y.2.toNat := by
  rw [← polls_reverse, ← List.pairwise_reverse]
  constructor
  · intro hp
    exact hp.pairwise (hs.listed_insertAll hi) hi.reverse
  · intro hdvd
    have ht := @Threads.insertAll s ops [] hs.threads hs.listed (by rw [List.append_nil]; exact hi.reverse)
      (by rw [List.append_nil]; exact hdvd)
    rw [List.append_nil] at ht
    exact ht.polls hi.reverse

theorem Idle.drops_iff (hs : Idle s) (hi : Insertable ops) (htd : IsTd td)
    (hp : Polls (insertAll s ops) ops) : Drops (insertAll s ops) td ↔
      (td ∈ ops.map Prod.fst → (ops.map Prod.fst).getLast? = some td) := by
  rw [← List.head?_reverse, ← List.map_reverse, ← List.mem_reverse, ← List.map_reverse]
  have hl := hs.listed_insertAll hi
  constructor
  · intro hd hin
    exact hd.newest (polls_reverse.mpr hp) hl hi.reverse hin
  · intro hnew
    exact hl.drops hi.reverse htd hnew

/-- After any sequence of insertions, and one removal: the periodic schedule
is right if and only if each interval is a multiple of all earlier ones and the
removed TD is the one inserted last. -/
theorem periodic_schedule_iff (hs : Idle s) (hi : Insertable ops) (htd : IsTd td) :
    Polls (insertAll s ops) ops ∧ Drops (insertAll s ops) td ↔
      (ops.Pairwise fun x y => x.2.toNat ∣ y.2.toNat) ∧
        (td ∈ ops.map Prod.fst → (ops.map Prod.fst).getLast? = some td) := by
  constructor
  · rintro ⟨hp, hd⟩
    exact ⟨(hs.polls_iff hi).mp hp, (hs.drops_iff hi htd hp).mp hd⟩
  · rintro ⟨hdvd, hnew⟩
    have hp := (hs.polls_iff hi).mpr hdvd
    exact ⟨hp, (hs.drops_iff hi htd hp).mpr hnew⟩

/-- The controller after `uhci_init`. -/
def idleUhci : Uhci := ⟨true, fun _ => uhciLpTerminate, fun _ => ⟨uhciLpTerminate, 0, 0, 0⟩⟩

theorem idle_idleUhci : Idle idleUhci := ⟨rfl, fun _ _ => rfl⟩

theorem isTd_kbd : IsTd 0x1000 := ⟨by decide, by decide⟩

theorem isTd_mouse : IsTd 0x1020 := ⟨by decide, by decide⟩

theorem insertable_two {m : UInt8} (hk : 1 ≤ k.toNat) (hm : 1 ≤ m.toNat) :
    Insertable [(0x1000, k), (0x1020, m)] where
  isTd := by simp [isTd_kbd, isTd_mouse]
  pos := by simp [hk, hm]
  nodup := by simp

/-- A keyboard polled every 8 frames and a mouse every 16; the mouse goes. -/
theorem periodic_schedule_kbd_mouse :
    Polls (insertAll idleUhci [(0x1000, 8), (0x1020, 16)]) [(0x1000, 8), (0x1020, 16)] ∧
      Drops (insertAll idleUhci [(0x1000, 8), (0x1020, 16)]) 0x1020 :=
  (periodic_schedule_iff idle_idleUhci (insertable_two (by decide) (by decide)) isTd_mouse).mpr
    (by decide)

/-- A mouse polled every 10 frames takes the keyboard off the lists of the
frames 0, 40, 80, …; and a keyboard inserted first is not removed. -/
theorem periodic_schedule_breaks :
    ¬ Polls (insertAll idleUhci [(0x1000, 8), (0x1020, 10)]) [(0x1000, 8), (0x1020, 10)] ∧
      ¬ Drops (insertAll idleUhci [(0x1000, 8), (0x1020, 8)]) 0x1000 := by
  constructor
  · rw [idle_idleUhci.polls_iff (insertable_two (by decide) (by decide))]
    decide
  · have hi : Insertable [(0x1000, 8), (0x1020, 8)] := insertable_two (by decide) (by decide)
    have hp := (idle_idleUhci.polls_iff hi).mpr (by decide)
    rw [idle_idleUhci.drops_iff hi isTd_kbd hp]
    decide

end Chimaera.Usb
