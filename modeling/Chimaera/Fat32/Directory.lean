/-
Looking things up in a directory whose slots are a listing: `dir_find`,
`dir_83_exists`, `make_83_unique` and the scan of `fat32_readdir`.
-/
import Chimaera.Fat32.Names

namespace Chimaera.Fat32

open Prog

/-- The clusters `xs` from `a` on hold the listing `l`. -/
structure View.Lists (w : View) (a : Nat) (xs : List Nat) (l : Listing) : Prop where
  chain : w.Chain a xs
  ne : xs ≠ []
  slots : w.slots xs = l.slots

section Lists

variable {w : View} {a : Nat} {xs : List Nat} {l : Listing}

theorem View.Lists.head (h : w.Lists a xs l) : ∃ ys, xs = a :: ys := by
  cases xs with
  | nil => exact absurd rfl h.ne
  | cons x ys =>
      obtain ⟨rfl, -, -⟩ := Links.Chain.cons_iff.mp h.chain
      exact ⟨ys, rfl⟩

theorem View.Lists.inRange (h : w.Lists a xs l) : w.vol.InRange a := by
  obtain ⟨ys, rfl⟩ := h.head
  exact h.chain.inRange List.mem_cons_self

theorem View.Lists.length_slots (h : w.Lists a xs l) :
    l.slots.length = xs.length * w.vol.perCluster := by
  rw [← h.slots, View.length_slots]

theorem View.Lists.pos (h : w.Lists a xs l) {n : Nat} (hs : w.vol.Sound n) :
    0 < xs.length * w.vol.perCluster :=
  Nat.mul_pos (List.length_pos_iff.mpr h.ne) (perCluster_pos hs)

theorem View.Lists.dirPosInit (h : w.Lists a xs l) {n : Nat} (hs : w.vol.Sound n) :
    dirPosInit w.vol a = posAt w.vol 0 xs 0 := by
  have ha := h.inRange
  obtain ⟨ys, rfl⟩ := h.head
  simp [Fat32.dirPosInit, posAt, hs.clusterToLba_eq ha, u32]

end Lists

section Scans

variable {pos : Nat → DirPos} {i : Nat}

/-- The step of `dir_83_exists`. -/
def hasStep (name83 : List UInt8) (_ : Unit) (_ : DirPos) (e : DirEntry) : Unit ⊕ Bool :=
  if e.first = 0 then .inr false
  else if e.first = 0xE5 ∨ e.isLfn then .inl ()
  else if e.name = name83 then .inr true
  else .inl ()

theorem has_pieces {n83 : List UInt8} {sum : UInt8} {last : Bool} {ps : List DirEntry}
    (h : Pieces sum last ps) (hlt : ps.length < 32) :
    scanSlots (hasStep n83) pos () i ps = .inr () := by
  have hall := h.mem_ne hlt
  clear h hlt
  induction ps generalizing i with
  | nil => rfl
  | cons p ps ih =>
      obtain ⟨h₀, -, hl⟩ := hall p List.mem_cons_self
      rw [scanSlots, hasStep, if_neg h₀, if_pos (Or.inr hl)]
      exact ih fun q hq => hall q (List.mem_cons_of_mem p hq)

theorem has_items {n83 : List UInt8} {items : List Item} (hok : ∀ it ∈ items, it.Ok) :
    scanSlots (hasStep n83) pos () i (items.flatMap Item.slots) =
      if items.any (Item.hasName n83) then .inl true else .inr () := by
  induction items generalizing i with
  | nil => rfl
  | cons it its ih =>
      have hit := hok it List.mem_cons_self
      have ih' := fun i => ih (i := i) fun x hx => hok x (List.mem_cons_of_mem it hx)
      rw [List.flatMap_cons, scanSlots_append, List.any_cons]
      cases it with
      | hole e =>
          have h₁ : e.first = 0xE5 := hit
          have h₀ : e.first ≠ 0 := by rw [h₁]; decide
          simp only [Item.slots, scanSlots, hasStep, h₁, true_or, if_true, Item.hasName,
            Bool.false_or]
          simp only [show (0xE5 : UInt8) ≠ 0 by decide, if_false]
          exact ih' _
      | dot e =>
          obtain ⟨hd, hlfn⟩ := hit
          have hf := DirEntry.first_of_isDot hd
          have h₀ : e.first ≠ 0 := by rw [hf]; decide
          have h₁ : e.first ≠ 0xE5 := by rw [hf]; decide
          by_cases hn : e.name = n83
          · simp [Item.slots, scanSlots, hasStep, h₀, h₁, hlfn, Item.hasName, hn]
          · simp only [Item.slots, scanSlots, hasStep, h₀, h₁, hlfn, Item.hasName, hn, if_false,
              Bool.false_eq_true, or_self, decide_false, Bool.false_or]
            exact ih' _
      | entry run e =>
          obtain ⟨hrun, h₀, h₁, hlfn, -⟩ := hit
          rw [Item.slots, scanSlots_append, has_pieces hrun.1 hrun.2]
          by_cases hn : e.name = n83
          · simp [scanSlots, hasStep, h₀, h₁, hlfn, Item.hasName, hn]
          · simp only [scanSlots, hasStep, h₀, h₁, hlfn, Item.hasName, hn, if_false,
              Bool.false_eq_true, or_self, decide_false, Bool.false_or]
            exact ih' _

def Listing.has (l : Listing) (name83 : List UInt8) : Bool :=
  l.items.any (Item.hasName name83)

variable (pos) in
theorem has_listing (l : Listing) (n83 : List UInt8) :
    scanSlots (hasStep n83) pos () 0 l.slots = .inl (l.has n83) ∨
      (l.has n83 = false ∧ scanSlots (hasStep n83) pos () 0 l.slots = .inr ()) := by
  rw [Listing.slots, scanSlots_append, has_items l.ok, Listing.has]
  cases hany : l.items.any (Item.hasName n83) with
  | true => exact Or.inl rfl
  | false =>
      simp only [Bool.false_eq_true, if_false]
      cases ht : l.tail with
      | nil => exact Or.inr ⟨trivial, rfl⟩
      | cons z zs =>
          have hz := l.zero.first_eq z (by simp [ht])
          exact Or.inl (by rw [scanSlots, hasStep, if_pos hz])

theorem readdir_pieces {sum : UInt8} {ps : List DirEntry} {st : ReaddirState}
    (h : Pieces sum false ps) (hlt : ps.length < 32) (hb : st.buildingLfn = true) :
    scanSlots readdirStep pos st i ps = .inr { st with lfnBuf := ps.foldl lfnFeed st.lfnBuf } := by
  induction ps generalizing st i with
  | nil => rfl
  | cons p ps ih =>
      obtain ⟨h₀, h₁⟩ := h.1.first_ne (by omega) (by simpa using hlt)
      obtain ⟨buf, building, out⟩ := st
      simp only at hb
      subst hb
      rw [scanSlots, readdirStep, if_neg h₀, if_neg h₁, if_pos h.1.lfn]
      simp only [Bool.true_or, if_true]
      exact ih h.2 (by simp at hlt; omega) rfl

theorem readdir_run {sum : UInt8} {run : List DirEntry} {st : ReaddirState}
    (h : RunOk sum run) (hne : run ≠ []) :
    scanSlots readdirStep pos st i run = .inr ⟨runBuf run, true, st.out⟩ := by
  cases run with
  | nil => exact absurd rfl hne
  | cons p ps =>
      obtain ⟨hp, hlt⟩ := h
      have hlt' : ps.length + 1 < 32 := by simpa using hlt
      obtain ⟨h₀, h₁⟩ := hp.1.first_ne (by omega) hlt'
      have hl := hp.1.isLast (by omega) hlt'
      rw [scanSlots, readdirStep, if_neg h₀, if_neg h₁, if_pos hp.1.lfn]
      simp only [hl, Bool.or_true, if_true]
      rw [readdir_pieces hp.2 (by omega) rfl, lfnFeed_of_isLast hl]
      rfl

variable (pos i) in
theorem readdir_items {items : List Item} (st : ReaddirState) (hok : ∀ it ∈ items, it.Ok)
    (hb : st.buildingLfn = false) : ∃ buf,
      scanSlots readdirStep pos st i (items.flatMap Item.slots) =
        .inr ⟨buf, false, st.out ++ items.flatMap Item.listed⟩ := by
  induction items generalizing st i with
  | nil =>
      obtain ⟨buf, building, out⟩ := st
      simp only at hb
      subst hb
      exact ⟨buf, by simp [scanSlots]⟩
  | cons it its ih =>
      have hit := hok it List.mem_cons_self
      have ih' := fun {st : ReaddirState} {i : Nat} (hb : st.buildingLfn = false) =>
        ih i st (fun x hx => hok x (List.mem_cons_of_mem it hx)) hb
      rw [List.flatMap_cons, List.flatMap_cons]
      cases it with
      | hole e =>
          have h₁ : e.first = 0xE5 := hit
          have h₀ : e.first ≠ 0 := by rw [h₁]; decide
          simp only [Item.slots, List.singleton_append, scanSlots, readdirStep, if_neg h₀,
            if_pos h₁, Item.listed, List.nil_append]
          exact ih' rfl
      | dot e =>
          obtain ⟨hd, hlfn⟩ := hit
          have hf := DirEntry.first_of_isDot hd
          have h₀ : e.first ≠ 0 := by rw [hf]; decide
          have h₁ : e.first ≠ 0xE5 := by rw [hf]; decide
          simp only [Item.slots, List.singleton_append, scanSlots, readdirStep, if_neg h₀,
            if_neg h₁, hlfn, Bool.false_eq_true, if_false, hd, if_true, Item.listed,
            List.nil_append]
          exact ih' rfl
      | entry run e =>
          obtain ⟨hrun, h₀, h₁, hlfn, hdot⟩ := hit
          rw [Item.slots]
          have hshort : ∀ st' : ReaddirState, st'.out = st.out →
              (st'.buildingLfn = true ∧ st'.lfnBuf = runBuf run ∧ run ≠ [] ∨
                st'.buildingLfn = false ∧ run = []) →
              readdirStep st' (pos (i + run.length)) e = .inl { st' with
                buildingLfn := false, out := st.out ++ [e.dirent (shownName run e)] } := by
            rintro st' hout (⟨hb', hbuf, hne⟩ | ⟨hb', hnil⟩)
            · by_cases h0 : runBuf run 0 = 0
              · simp [readdirStep, h₀, h₁, hlfn, hdot, hb', hbuf, hout, shownName, hne, h0]
              · simp [readdirStep, h₀, h₁, hlfn, hdot, hb', hbuf, hout, shownName, hne, h0,
                  runName]
            · simp [readdirStep, h₀, h₁, hlfn, hdot, hb', hout, shownName, hnil]
          have hfinish : ∀ st', scanSlots readdirStep pos st i run = .inr st' →
              st'.out = st.out → (st'.buildingLfn = true ∧ st'.lfnBuf = runBuf run ∧ run ≠ [] ∨
                st'.buildingLfn = false ∧ run = []) →
              ∃ buf, scanSlots readdirStep pos st i ((run ++ [e]) ++ its.flatMap Item.slots) =
                .inr ⟨buf, false, st.out ++ (Item.listed (.entry run e) ++
                  its.flatMap Item.listed)⟩ := by
            intro st' hscan hout hcases
            rw [scanSlots_append, scanSlots_append, hscan]
            simp only [scanSlots, hshort st' hout hcases, Item.listed]
            rw [← List.append_assoc]
            exact ih' rfl
          by_cases hne : run = []
          · subst hne
            exact hfinish st rfl rfl (Or.inr ⟨hb, rfl⟩)
          · exact hfinish _ (readdir_run hrun hne) rfl (Or.inl ⟨rfl, rfl, hne⟩)

/-- The entries that a listing shows. -/
def Listing.listed (l : Listing) : List Dirent := l.items.flatMap Item.listed

variable (pos) in
theorem readdir_listing (l : Listing) (st : ReaddirState) (hb : st.buildingLfn = false) :
    scanSlots readdirStep pos st 0 l.slots = .inl (st.out ++ l.listed) ∨
      ∃ st', scanSlots readdirStep pos st 0 l.slots = .inr st' ∧
        st'.out = st.out ++ l.listed := by
  obtain ⟨buf, hbuf⟩ := readdir_items pos 0 st l.ok hb
  rw [Listing.slots, scanSlots_append, hbuf]
  cases ht : l.tail with
  | nil => exact Or.inr ⟨_, rfl, rfl⟩
  | cons z zs =>
      have hz := l.zero.first_eq z (by simp [ht])
      exact Or.inl (by simp only [scanSlots, readdirStep, if_pos hz]; rfl)

end Scans

section Rules

variable {α β : Type} {R : β → View → Prop} {w : View} {a : Nat} {xs : List Nat} {l : Listing}

/-- What `dir_find` answers on a listing. -/
def Listing.found (l : Listing) (v : Vol) (xs : List Nat) (name : CStr) :
    Option (DirEntry × DirPos × DirPos) :=
  (l.find name).map fun r =>
    (r.2.2, posAt v 0 xs (r.1 + r.2.1.length), posAt v 0 xs r.1)

theorem Holds.dirFind (hl : w.Lists a xs l) {name : CStr}
    {f : Option (DirEntry × DirPos × DirPos) → Prog Drv β}
    (h : Holds (f (l.found w.vol xs name)) R w) : Holds (dirFind a name >>= f) R w := by
  refine Holds.of_sound fun n hn => ?_
  rw [Fat32.dirFind, bind_assoc]
  apply Holds.getStore
  intro c hc
  simp only [bind_assoc]
  have hfind := find_listing name (posAt w.vol 0 xs) ⟨fun _ => 0, 0, false, dirPosInit c.vol a⟩
    l rfl
  unfold Listing.found at h
  rw [← List.drop_zero (l := l.slots), ← hl.slots] at hfind
  rw [hc.vol, hl.dirPosInit hn] at hfind ⊢
  apply Holds.scanDir hl.chain (hl.pos hn)
  · intro r hr
    simp only [hr] at hfind
    simp only [pure_bind]
    cases hf : l.find name with
    | none =>
        simp only [hf, Sum.inl.injEq, reduceCtorEq, exists_false, or_false] at hfind
        rw [hf] at h
        rw [hfind]
        exact h
    | some p =>
        simp only [hf, Sum.inl.injEq] at hfind
        rw [hf] at h
        rw [hfind]
        exact h
  · intro st' hr p _
    simp only [hr] at hfind
    simp only [pure_bind]
    cases hf : l.find name with
    | none =>
        rw [hf] at h
        exact h
    | some q => simp [hf] at hfind

theorem Holds.dir83Exists (hl : w.Lists a xs l) {n83 : List UInt8} {f : Bool → Prog Drv β}
    (h : Holds (f (l.has n83)) R w) : Holds (dir83Exists a n83 >>= f) R w := by
  refine Holds.of_sound fun n hn => ?_
  rw [Fat32.dir83Exists, bind_assoc]
  apply Holds.getStore
  intro c hc
  have hhas := has_listing (posAt w.vol 0 xs) l n83
  rw [← List.drop_zero (l := l.slots), ← hl.slots] at hhas
  rw [hc.vol, hl.dirPosInit hn, bind_assoc]
  change Holds (Fat32.scanDir (hasStep n83) _ _ >>= _) R w
  apply Holds.scanDir hl.chain (hl.pos hn)
  · intro r hr
    rw [hr] at hhas
    simp only [pure_bind]
    rcases hhas with heq | ⟨-, heq⟩
    · rw [Sum.inl.inj heq]
      exact h
    · cases heq
  · intro st' hr p _
    rw [hr] at hhas
    simp only [pure_bind]
    rcases hhas with heq | ⟨hno, -⟩
    · cases heq
    · rw [hno] at h
      exact h

/-- A search whose rounds leave the state alone. -/
theorem Holds.forUntil_find {body : Nat → Prog Drv (Option α)} {g : Nat → Option α}
    (hbody : ∀ i, ∀ f : Option α → Prog Drv β, Holds (f (g i)) R w →
      Holds (body i >>= f) R w)
    {n i : Nat} {f : Option α → Prog Drv β}
    (h : Holds (f ((List.range' i n).findSome? g)) R w) :
    Holds (forUntil body n i >>= f) R w := by
  induction n generalizing i with
  | zero =>
      rw [forUntil, pure_bind]
      exact h
  | succ n ih =>
      rw [forUntil, bind_assoc]
      apply hbody
      rw [List.range'_succ, List.findSome?_cons] at h
      cases hg : g i with
      | none =>
          simp only [hg] at h ⊢
          exact ih h
      | some b =>
          simp only [hg, pure_bind] at h ⊢
          exact h

theorem Holds.make83Unique (hl : w.Lists a xs l) {name : CStr}
    {f : List UInt8 → Prog Drv β} (h : Holds (f (pick83 l.has name)) R w) :
    Holds (make83Unique a name >>= f) R w := by
  unfold pick83 at h
  rw [Fat32.make83Unique, bind_assoc]
  apply Holds.dir83Exists hl
  cases hhas : l.has (make83 name) with
  | false =>
      simp only [hhas, Bool.false_eq_true, if_false, pure_bind] at h ⊢
      exact h
  | true =>
      simp only [hhas, if_true, bind_assoc] at h ⊢
      refine Holds.forUntil_find (g := fun n =>
        if l.has (make83Tail name n) then none else some (make83Tail name n))
        (fun n f hf => ?_) ?_
      · rw [bind_assoc]
        apply Holds.dir83Exists hl
        cases hn : l.has (make83Tail name n) <;> simpa [hn] using hf
      · simpa using h

theorem Holds.readdirCluster (hl : w.Lists a xs l) {f : List Dirent → Prog Drv β}
    (h : Holds (f l.listed) R w) : Holds (readdirCluster a >>= f) R w := by
  refine Holds.of_sound fun n hn => ?_
  rw [Fat32.readdirCluster, bind_assoc]
  apply Holds.getStore
  intro c hc
  have hread := readdir_listing (posAt w.vol 0 xs) l ⟨fun _ => 0, false, []⟩ rfl
  rw [← List.drop_zero (l := l.slots), ← hl.slots, List.nil_append] at hread
  rw [hc.vol, hl.dirPosInit hn, bind_assoc]
  apply Holds.scanDir hl.chain (hl.pos hn)
  · intro r hr
    rw [hr] at hread
    simp only [pure_bind]
    rcases hread with heq | ⟨_, heq, -⟩
    · rw [Sum.inl.inj heq]
      exact h
    · cases heq
  · intro st' hr p _
    rw [hr] at hread
    simp only [pure_bind]
    rcases hread with heq | ⟨st'', heq, hout⟩
    · cases heq
    · rw [Sum.inr.inj heq, hout]
      exact h

end Rules

end Chimaera.Fat32
