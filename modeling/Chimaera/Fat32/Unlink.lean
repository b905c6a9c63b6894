/-
`fat32_unlink` takes one file away: its clusters, the slots of its entry, and
nothing else on the disk.
-/
import Chimaera.Fat32.Contents

namespace Chimaera.Fat32

open Prog

variable {w w' : View} {ch : Nat → List Nat} {D : List Dir} {T xs ys : List Nat} {l l' : Listing}
  {run : List DirEntry} {e : DirEntry} {a s i j k n : Nat} {c : Store} {v : Vol} {path p : CStr}
  {name : CStr}

/-- Lookups that found another entry, or none, still do. -/
theorem Listing.Deleted.find (h : l.Deleted l' i run e)
    (hno : ∀ j r x, l.find name = some (j, r, x) → j + r.length ≠ i) :
    l'.find name = l.find name := by
  obtain ⟨pre, post, heq, hi, heq'⟩ := h
  have hlen : i + 1 = (pre.flatMap Item.slots).length + (run.length + 1) := by omega
  unfold Listing.find at hno ⊢
  rw [heq, findFrom_append, Nat.zero_add, findFrom] at hno ⊢
  rw [heq', List.append_assoc, findFrom_append, findFrom_append, Nat.zero_add,
    findFrom_holes Listing.isHole_map, Option.none_or, flatMap_holes, List.length_map,
    List.length_append, List.length_singleton]
  cases hpre : findFrom name 0 pre with
  | some r => rfl
  | none =>
      rw [hpre, Option.none_or] at hno
      rw [Option.none_or, Option.none_or]
      split
      · next hc =>
        rw [if_pos hc] at hno
        exact absurd hi.symm (hno _ _ _ rfl)
      · rfl

theorem listingOf_setListing (hnd : (D.map Dir.start).Nodup) (hd : ⟨s, l⟩ ∈ D) :
    listingOf (setListing D s l') a = if a = s then some l' else listingOf D a := by
  split
  · next ha =>
    subst ha
    exact listingOf_start (d := ⟨a, l'⟩) (by rwa [map_start_setListing])
      ((mem_setListing hd).mpr (Or.inr rfl))
  · next ha =>
    unfold listingOf setListing
    have hp : (fun d : Dir => (if d.start = s then (⟨s, l'⟩ : Dir) else d).start == a) =
        fun d => d.start == a := by
      funext d
      split
      · next hs => rw [hs]
      · rfl
    rw [List.find?_map, Function.comp_def, hp, Option.map_map]
    cases hf : D.find? fun d => d.start == a with
    | none => rfl
    | some d =>
        have hda : d.start = a := by simpa using List.find?_some hf
        simp [hda, ha]

/-- A lookup in one of the directories, after the entry in slot `i` of `s` went. -/
theorem lookup_delete (hnd : (D.map Dir.start).Nodup) (hd : ⟨s, l⟩ ∈ D)
    (hdel : l.Deleted l' i run e)
    (hno : a = s → ∀ j r x, l.find name = some (j, r, x) → j + r.length ≠ i) :
    ((listingOf (setListing D s l') a).bind fun l => l.find name) =
      (listingOf D a).bind fun l => l.find name := by
  rw [listingOf_setListing hnd hd]
  split
  · next ha =>
    subst ha
    rw [listingOf_start hnd hd, Option.bind_some, Option.bind_some]
    exact hdel.find (hno rfl)
  · rfl

/-- A walk ends with a lookup of the entry in slot `i` of `s`. -/
def Meets (l : Listing) (s i : Nat) (t : Nat × CStr) : Prop :=
  t.1 = s ∧ ∃ j r x, l.find t.2 = some (j, r, x) ∧ j + r.length = i

theorem pathComp_append {C q : CStr} (h : ∀ b ∈ C, b ≠ 0x2F) :
    pathComp (C ++ 0x2F :: q) = C.take 255 ∧ pathRest (C ++ 0x2F :: q) = q := by
  have hall : ∀ b ∈ C, (b != 0x2F) = true := fun b hb => by simpa using h b hb
  unfold pathComp pathRest
  rw [List.takeWhile_append_of_pos hall, List.dropWhile_append_of_pos hall]
  simp

/-- A path that goes on behind its first component. -/
theorem exists_comp (h : pathRest p ≠ []) :
    ∃ C, (∀ b ∈ C, b ≠ 0x2F) ∧ p = C ++ 0x2F :: pathRest p := by
  refine ⟨p.takeWhile (· != 0x2F), fun b hb => ?_, ?_⟩
  · simpa using List.all_eq_true.mp List.all_takeWhile b hb
  · unfold pathRest at h ⊢
    cases hd : p.dropWhile (· != 0x2F) with
    | nil => simp [hd] at h
    | cons b q =>
        have hb := List.head_dropWhile_not (· != 0x2F) (l := p) (by rw [hd]; simp)
        simp only [hd, List.head_cons, bne_eq_false_iff_eq] at hb
        conv_lhs => rw [← List.takeWhile_append_dropWhile (p := (· != 0x2F)) (l := p), hd, hb]
        simp

/-- A walk that succeeds, or that never looks the entry up, goes as before. -/
theorem resolve_delete (hnd : (D.map Dir.start).Nodup) (hd : ⟨s, l⟩ ∈ D)
    (hdel : l.Deleted l' i run e) (hat : l.At i run e) (hfile : e.isDir = false)
    (h : (resolve v D a p).1 ≠ 0 ∨
      ∀ q, q ≠ [] → q <+: p → ¬ Meets l s i (resolve v D a q)) :
    resolve v (setListing D s l') a p = resolve v D a p := by
  induction hn : p.length using Nat.strong_induction_on generalizing a p with
  | h n ih =>
      conv_lhs => rw [resolve]
      conv_rhs => rw [resolve]
      by_cases hp : p = []
      · rw [if_pos hp, if_pos hp]
      rw [if_neg hp, if_neg hp]
      by_cases hr : pathRest p = []
      · rw [if_pos hr, if_pos hr]
      rw [if_neg hr, if_neg hr]
      obtain ⟨C, hC, hsplit⟩ := exists_comp hr
      have hcomp : pathComp p = C.take 255 := by
        rw [hsplit]
        exact (pathComp_append hC).1
      have hlook : ((listingOf (setListing D s l') a).bind fun l => l.find (pathComp p)) =
          (listingOf D a).bind fun l => l.find (pathComp p) := by
        refine lookup_delete hnd hd hdel fun ha j r x hfind hji => ?_
        subst ha
        rcases h with hne | hclear
        · have hx := Listing.find_at hfind
          rw [hji] at hx
          obtain ⟨-, rfl⟩ := hx.unique hat
          rw [resolve, if_neg hp, if_neg hr, listingOf_start hnd hd, Option.bind_some, hfind] at hne
          simp [hfile] at hne
        · refine hclear (C ++ [0x2F]) (by simp) ⟨pathRest p, ?_⟩ ⟨?_, j, r, x, ?_, hji⟩
          · rw [List.append_assoc, List.singleton_append]
            exact hsplit.symm
          · rw [resolve, if_neg (by simp), if_pos (pathComp_append hC).2]
          · rw [resolve, if_neg (by simp), if_pos (pathComp_append hC).2]
            rwa [(pathComp_append hC).1, ← hcomp]
      rw [hlook]
      cases hf : (listingOf D a).bind fun l => l.find (pathComp p) with
      | none => rfl
      | some r =>
          simp only
          split
          · next hdir =>
            refine ih _ (hn ▸ length_pathRest_lt hp) ?_ rfl
            rcases h with hne | hclear
            · left
              rw [resolve, if_neg hp, if_neg hr, hf] at hne
              simpa only [hdir, if_true] using hne
            · right
              intro q hq hpre hhit
              refine hclear (C ++ 0x2F :: q) (by simp) ?_ ?_
              · rw [hsplit]
                exact (List.prefix_append_right_inj C).mpr (List.cons_prefix_cons.mpr ⟨rfl, hpre⟩)
              · rw [resolve, if_neg (by simp), if_neg (by rw [(pathComp_append hC).2]; exact hq),
                  (pathComp_append hC).1, ← hcomp, hf]
                simp only [hdir, if_true, (pathComp_append hC).2]
                exact hhit
          · rfl

theorem bind_found {a : Nat} : ((listingOf D a).bind fun l => l.found v xs name) =
    ((listingOf D a).bind fun l => l.find name).map fun r =>
      (r.2.2, posAt v 0 xs (r.1 + r.2.1.length), posAt v 0 xs r.1) := by
  cases listingOf D a <;> rfl

/-- What a path names, after the entry in slot `i` of `s` went. -/
theorem statPath_delete {r : Option PathInfo} (h : w.Layout ch D T) (hd : ⟨s, l⟩ ∈ D)
    (hdel : l.Deleted l' i run e) (hat : l.At i run e) (hfile : e.isDir = false)
    (hr : statPath w.vol ch D path = r)
    (hother : ∀ p, r = some p → (p.pos.lba, p.pos.off) ≠ slotPlace w.vol (ch s) i)
    (hclear : r = none → ∀ q rest, path = 0x2F :: rest → q ≠ [] → q <+: rest →
      ¬ Meets l s i (resolve w.vol D w.vol.rootCluster q)) :
    statPath w.vol ch (setListing D s l') path = r := by
  unfold statPath at hr ⊢
  by_cases hroot : path = [0x2F]
  · rw [if_pos hroot] at hr ⊢
    exact hr
  rw [if_neg hroot] at hr ⊢
  have hpar : resolveParent w.vol (setListing D s l') path = resolveParent w.vol D path := by
    unfold resolveParent at hr ⊢
    split
    · next rest =>
      refine resolve_delete h.tree.nodup hd hdel hat hfile ?_
      cases r with
      | none => exact Or.inr fun q hq hpre => hclear rfl q rest rfl hq hpre
      | some p =>
          left
          intro h0
          simp [h0] at hr
    · rfl
  rw [hpar]
  by_cases herr : (resolveParent w.vol D path).1 = 0 ∨ (resolveParent w.vol D path).2 = []
  · rw [if_pos herr] at hr ⊢
    exact hr
  rw [if_neg herr] at hr ⊢
  rw [← hr, bind_found, bind_found, lookup_delete h.tree.nodup hd hdel]
  intro ha j r' x hfind hji
  refine hother ⟨x, posAt w.vol 0 (ch s) i, s⟩ ?_ rfl
  rw [← hr, ha, listingOf_start h.tree.nodup hd, Option.bind_some, Listing.found, hfind]
  simp [hji]

/-- The places of entry `k` of copy `f` of the FAT. -/
def Vol.entryPlaces (v : Vol) (f k : Nat) : Set (Nat × Nat) :=
  {p | p.1 = v.fatSec f k ∧ k * 4 % 512 ≤ p.2 ∧ p.2 < k * 4 % 512 + 4}

/-- The places of the FAT entries of the clusters `xs`, in every copy. -/
def Vol.fatPlaces (v : Vol) (xs : List Nat) : Set (Nat × Nat) :=
  {p | ∃ k ∈ xs, ∃ f < v.numFats, p ∈ v.entryPlaces f k}

theorem overwritten_setCopies {f : Nat} :
    Overwritten 0 {p | ∃ g, f ≤ g ∧ g < f + n ∧ p ∈ c.vol.entryPlaces g k} c.disk
      (c.setCopies k 0 n f).disk := by
  induction n generalizing c f with
  | zero =>
      refine Overwritten.refl.congr fun p => ⟨fun hp => absurd hp (Set.notMem_empty p), ?_⟩
      rintro ⟨g, hle, hlt, -⟩
      omega
  | succ n ih =>
      have hput := overwritten_update (x := 0) (d := c.disk) (l := c.vol.fatSec f k)
        (o := k * 4 % 512) (k := 4) (show k * 4 % 512 + 4 ≤ 512 by omega)
      refine (hput.union (ih (c := c.put _ _) (f := f + 1))).congr fun p => ?_
      constructor
      · rintro (hp | ⟨g, hle, hlt, hp⟩)
        · exact ⟨f, Nat.le_refl f, by omega, hp⟩
        · exact ⟨g, by omega, by omega, hp⟩
      · rintro ⟨g, hle, hlt, hp⟩
        rcases Nat.eq_or_lt_of_le hle with rfl | hlt'
        · exact Or.inl hp
        · exact Or.inr ⟨g, hlt', by omega, hp⟩

theorem overwritten_freeChain (hv : c.vol = v) :
    Overwritten 0 (v.fatPlaces xs) c.disk (c.freeChain xs).disk := by
  induction xs generalizing c with
  | nil =>
      refine Overwritten.refl.congr fun p => ⟨fun hp => absurd hp (Set.notMem_empty p), ?_⟩
      rintro ⟨k, hk, -⟩
      simp at hk
  | cons k ks ih =>
      have hset := overwritten_setCopies (c := c) (k := k) (n := c.vol.numFats) (f := 0)
      refine (hset.union (ih (Store.sameVars_setFat.vol.trans hv))).congr fun p => ?_
      rw [hv]
      constructor
      · rintro (⟨g, -, hlt, hp⟩ | ⟨y, hy, hp⟩)
        · exact ⟨k, List.mem_cons_self, g, by omega, hp⟩
        · exact ⟨y, List.mem_cons_of_mem k hy, hp⟩
      · rintro ⟨y, hy, g, hlt, hp⟩
        rcases List.mem_cons.mp hy with rfl | hy
        · exact Or.inl ⟨g, Nat.zero_le g, by omega, hp⟩
        · exact Or.inr ⟨y, hy, g, hlt, hp⟩

theorem overwritten_marks (hv : c.vol = v) : Overwritten 0xE5
    {p | ∃ q, i ≤ q ∧ q < i + n ∧ p = slotPlace v xs q} c.disk (c.marks xs i n).disk := by
  induction n generalizing c i with
  | zero =>
      refine Overwritten.refl.congr fun p => ⟨fun hp => absurd hp (Set.notMem_empty p), ?_⟩
      rintro ⟨q, hle, hlt, -⟩
      omega
  | succ n ih =>
      have hmark := overwritten_mark (c := c) (slotPlace_off_lt c.vol xs i)
      refine (hmark.union (ih (c := c.mark _) (i := i + 1) hv)).congr fun p => ?_
      rw [hv]
      constructor
      · rintro (hp | ⟨q, hle, hlt, hp⟩)
        · exact ⟨i, Nat.le_refl i, by omega, hp⟩
        · exact ⟨q, by omega, by omega, hp⟩
      · rintro ⟨q, hle, hlt, hp⟩
        rcases Nat.eq_or_lt_of_le hle with rfl | hlt'
        · exact Or.inl hp
        · exact Or.inr ⟨q, hlt', by omega, hp⟩

/-- The path names the file with the entry `e` and the clusters `ys`.  The entry
is in slot `i` of the directory with the clusters `xs`, behind the pieces of its
long name, the first of which is in slot `j`. -/
structure Drv.NamesFile (s : Drv) (path : CStr) (e : DirEntry) (xs ys : List Nat) (j i : Nat) :
    Prop where
  stat : ∃ p, (pathStat path).Answers s (some p) ∧ p.entry = e ∧
    (p.pos.lba, p.pos.off) = slotPlace s.vol xs i ∧ s.toStore.Chain p.dirCluster xs
  file : e.isDir = false
  chain : s.toStore.FileChain e ys
  le : j ≤ i
  run : RunOk (lfnChecksum e.name) ((List.range (i - j)).map fun q => s.toStore.slot xs (j + q))
  whole : 0 < j → (s.toStore.slot xs (j - 1)).first = 0xE5 ∨
    (s.toStore.slot xs (j - 1)).isLfn = false

/-- The clusters `ys` became free and the slots `j` up to `i` of the directory
with the clusters `xs` are marked; no other byte of the disk changed. -/
structure Store.Removed (c c' : Store) (xs ys : List Nat) (j i : Nat) : Prop where
  fat : ∀ k, c.vol.InRange k → c'.fat k = if k ∈ ys then 0 else c.fat k
  disk : ∃ d, Overwritten 0 (c.vol.fatPlaces ys) c.disk d ∧
    Overwritten 0xE5 (slotPlace c.vol xs '' Set.Icc j i) d c'.disk

/-- The walk along the path looks up the entry at `place`. -/
def Drv.WalksOver (s : Drv) (path : CStr) (place : Nat × Nat) : Prop :=
  ∃ q a nm x, q <+: path ∧ (pathResolveParent q).Answers s (a, nm) ∧ a ≠ 0 ∧
    (dirFind a nm).Answers s (some x) ∧ (x.2.1.lba, x.2.1.off) = place

/-- Paths that do not lead to the entry at `place` resolve as before, files with
the same content. -/
structure Drv.OthersKept (s s' : Drv) (place : Nat × Nat) : Prop where
  found : ∀ q p, (pathStat q).Answers s (some p) → (p.pos.lba, p.pos.off) ≠ place →
    (pathStat q).Answers s' (some p) ∧ (p.entry.isDir = false →
      ∀ bs, s'.toStore.Content p.entry bs ↔ s.toStore.Content p.entry bs)
  missing : ∀ q, (pathStat q).Answers s none → ¬ s.WalksOver q place →
    (pathStat q).Answers s' none

/-- The slot before an item is deleted or no piece of a long name. -/
theorem getLast?_slots (its : List Item) {x : DirEntry} (hok : ∀ it ∈ its, it.Ok)
    (hx : (its.flatMap Item.slots).getLast? = some x) : x.first = 0xE5 ∨ x.isLfn = false := by
  rcases List.eq_nil_or_concat its with rfl | ⟨its', it, rfl⟩
  · simp at hx
  · have hit := hok it (by simp)
    rw [List.concat_eq_append, List.flatMap_append, List.flatMap_singleton] at hx
    cases it with
    | hole d =>
        obtain rfl : d = x := by simpa [Item.slots] using hx
        exact Or.inl hit
    | dot d =>
        obtain rfl : d = x := by simpa [Item.slots] using hx
        exact Or.inr hit.2
    | entry r d =>
        obtain rfl : d = x := by simpa [Item.slots] using hx
        exact Or.inr hit.2.2.2.1

namespace View.Layout

variable {s₀ s₁ : Drv}

/-- The slots of a directory are those of its listing. -/
theorem slot_eq (h : w.Layout ch D T) (hw : c.Shows w) (hd : ⟨a, l⟩ ∈ D) {x : DirEntry}
    (hx : l.slots[i]? = some x) : c.slot (ch a) i = x := by
  have hlists := h.lists hd
  obtain ⟨hlt, hget⟩ := List.getElem?_eq_some_iff.mp hx
  have hlt' : i < (ch a).length * w.vol.perCluster := by
    rw [← hlists.length_slots]
    exact hlt
  rw [hw.slot (fun k hk => hlists.chain.inRange hk) hlt', ← hget, ← View.getElem_slots (by
    rw [View.length_slots]
    exact hlt')]
  congr 1
  exact hlists.slots

theorem namesFile (h : w.Layout ch D T) (hs : s₀.Ready) (hw : s₀.toStore.Shows w)
    (hd : ⟨a, l⟩ ∈ D) (ha : a = (resolveParent w.vol D path).1)
    (hfind : l.find (resolveParent w.vol D path).2 = some (j, run, e))
    (hne : (resolveParent w.vol D path).2 ≠ []) (hfile : e.isDir = false) :
    s₀.NamesFile path e (ch a) (Fat32.fileChain ch e) j (j + run.length) := by
  have heD := (entryAt_iff h.tree.nodup hd).mpr (Listing.find_at hfind)
  have hlists := h.lists hd
  have ha0 : a ≠ 0 := by
    have hr := h.chains.inRange (h.sound_start hd) (h.chains.mem_self (h.sound_start hd))
    have := hr.1
    change 2 ≤ a at this
    omega
  have hstat : statPath w.vol ch D path =
      some ⟨e, posAt w.vol 0 (ch a) (j + run.length), a⟩ := by
    unfold statPath
    rw [if_neg, if_neg, ← ha, listingOf_start h.tree.nodup hd, Option.bind_some, Listing.found,
      hfind]
    · rfl
    · rintro (h0 | h0)
      · exact ha0 (ha.trans h0)
      · exact hne h0
    · rintro rfl
      exact hne (by simp [resolveParent, resolve])
  obtain ⟨pre, post, heq, hj, -⟩ := Listing.find_eq_some hfind
  refine ⟨⟨_, hstat ▸ h.answers_stat hs hw _, rfl, ?_, hw.chain hlists.chain⟩, hfile,
    h.fileChain hw heD, Nat.le_add_right _ _, ?_, fun hpos => ?_⟩
  · rw [hw.vol]
    rfl
  · have hrun : (List.range (j + run.length - j)).map
        (fun q => s₀.toStore.slot (ch a) (j + q)) = run := by
      rw [Nat.add_sub_cancel_left]
      refine List.ext_getElem (by simp) fun q hq hq' => ?_
      rw [List.getElem_map, List.getElem_range]
      refine h.slot_eq hw hd ?_
      rw [Listing.find_slots hfind (by simp; omega), List.getElem?_append_left hq',
        List.getElem?_eq_getElem hq']
    rw [hrun]
    exact (Listing.find_at hfind).ok.1
  · have hlt : j - 1 < (pre.flatMap Item.slots).length := by omega
    have hget : l.slots[j - 1]? = some (pre.flatMap Item.slots)[j - 1] := by
      rw [Listing.slots, heq, List.flatMap_append, List.append_assoc,
        List.getElem?_append_left hlt, List.getElem?_eq_getElem hlt]
    rw [h.slot_eq hw hd hget]
    refine getLast?_slots pre (fun it hit => l.ok it (by simp [heq, hit])) ?_
    rw [List.getLast?_eq_getElem?, ← hj, List.getElem?_eq_getElem hlt]

theorem removed {c' : Store} (hw : c.Shows w) (hw' : c'.Shows w') (hv : w'.vol = w.vol)
    (hf : w'.fat = (w.freeChain ys).fat) (hc' : c' = (c.freeChain ys).marks xs j (n + 1)) :
    c.Removed c' xs ys j (j + n) := by
  have hfree : (c.freeChain ys).vol = c.vol := Store.sameVars_freeChain.vol
  refine ⟨fun k hk => ?_, (c.freeChain ys).disk, overwritten_freeChain rfl, ?_⟩
  · rw [hw.vol] at hk
    rw [hw'.fat (hv ▸ hk), hf, hw.fat hk]
    rfl
  · rw [hc']
    refine (overwritten_marks hfree).congr fun p => ?_
    constructor
    · rintro ⟨q, hle, hlt, rfl⟩
      exact ⟨q, ⟨hle, by omega⟩, rfl⟩
    · rintro ⟨q, ⟨hle, hlt⟩, rfl⟩
      exact ⟨q, hle, by omega, rfl⟩

/-- A walk that ends with a lookup of the entry in slot `i` of `s` walks over it. -/
theorem walksOver {q rest : CStr} (h : w.Layout ch D T) (hs : s₀.Ready) (hw : s₀.toStore.Shows w)
    (hd : ⟨a, l⟩ ∈ D) (hpre : q <+: rest)
    (hmeets : Meets l a i (resolve w.vol D w.vol.rootCluster q)) :
    s₀.WalksOver (0x2F :: rest) (slotPlace s₀.vol (ch a) i) := by
  obtain ⟨ha, j, r, x, hfind, hji⟩ := hmeets
  have hparent : (pathResolveParent (0x2F :: q)).Answers s₀
      (resolve w.vol D w.vol.rootCluster q) :=
    Holds.answers hs hw (Holds.pathResolveParent h (Holds.pure rfl))
  have hdir : (dirFind a (resolve w.vol D w.vol.rootCluster q).2).Answers s₀
      (l.found w.vol (ch a) (resolve w.vol D w.vol.rootCluster q).2) :=
    (h.lists hd).answers_find hs hw
  rw [Listing.found, hfind, Option.map_some] at hdir
  have hr := h.chains.inRange (h.sound_start hd) (h.chains.mem_self (h.sound_start hd))
  refine ⟨0x2F :: q, a, _, _, List.cons_prefix_cons.mpr ⟨rfl, hpre⟩, ?_, ?_, hdir, ?_⟩
  · rw [← ha]
    exact hparent
  · have := hr.1
    change 2 ≤ a at this
    omega
  · rw [hw.vol, hji]
    rfl

theorem othersKept (h : w.Layout ch D T) (hs₀ : s₀.Ready) (hs₁ : s₁.Ready)
    (hw₀ : s₀.toStore.Shows w) (hw₁ : s₁.toStore.Shows w') (hv : w'.vol = w.vol)
    (hd : ⟨a, l⟩ ∈ D) (hdel : l.Deleted l' i run e) (hat : l.At i run e)
    (hfile : e.isDir = false) (hlay : w'.Layout ch (setListing D a l') T)
    (hkept : Kept (fun t k => t = a ∧ k = i) w ch D w' ch (setListing D a l')) :
    s₀.OthersKept s₁ (slotPlace s₀.vol (ch a) i) := by
  have hold := h.answers_stat hs₀ hw₀
  have hnew := hlay.answers_stat hs₁ hw₁
  rw [hv] at hnew
  refine ⟨fun q p hq hp => ?_, fun q hq hno => ?_⟩
  · have hstat := (hold q).det hq
    rw [hw₀.vol] at hp
    have hsame := statPath_delete h hd hdel hat hfile hstat
      (fun p' hp' => by cases hp'; exact hp) nofun
    refine ⟨hsame ▸ hnew q, fun hpfile bs => ?_⟩
    obtain ⟨t, k, r, hpath, hpe⟩ := exists_pathAt h hstat hpfile
    have hX : ¬ (t = a ∧ k = i) := by
      rintro ⟨rfl, rfl⟩
      rw [hpe] at hp
      exact hp rfl
    have he := hpath.entryAt
    rw [hlay.content_iff hw₁ (hkept.entry t k r _ he hX) hpfile, h.content_iff hw₀ he hpfile,
      h.content_kept hkept hv he hX hpfile]
  · have hstat := (hold q).det hq
    refine statPath_delete h hd hdel hat hfile hstat nofun (fun _ q₁ rest hqr _ hpre hm => ?_) ▸
      hnew q
    subst hqr
    exact hno (h.walksOver hs₀ hw₀ hd hpre hm)

end View.Layout

/-- `fat32_unlink` either fails and leaves the disk alone, or removes the one file
that the path names. -/
theorem fat32Unlink_exact {s : Drv} (hs : s.Ready) (hc : s.Consistent) (path : CStr) :
    (fat32Unlink path).wp (fun r s' =>
      (r = 0 → ∃ e xs ys j i, s.NamesFile path e xs ys j i ∧
        s.toStore.Removed s'.toStore xs ys j i ∧ s.OthersKept s' (slotPlace s.vol xs i)) ∧
      (r ≠ 0 → s'.toStore = s.toStore)) s := by
  obtain ⟨w, hw, ch, D, h⟩ := hc
  have hon : On (fat32Unlink path >>= Pure.pure) (fun r c' => (r ≠ 0 ∧ c' = s.toStore) ∨
      (r = 0 ∧ ∃ a l j run e, ⟨a, l⟩ ∈ D ∧ a = (resolveParent w.vol D path).1 ∧
        l.find (resolveParent w.vol D path).2 = some (j, run, e) ∧
        (resolveParent w.vol D path).2 ≠ [] ∧ e.isDir = false ∧
        c' = (s.toStore.freeChain (fileChain ch e)).marks (ch a) j (run.length + 1)))
      s.toStore := by
    refine On.fat32Unlink hw h (fun err _ => ?_) fun a l j run e hd ha hfind hne hfile => ?_
    · have := err.code_neg
      exact On.pure (Or.inl ⟨by omega, rfl⟩)
    · exact On.pure (Or.inr ⟨rfl, a, l, j, run, e, hd, ha, hfind, hne, hfile, rfl⟩)
  rw [bind_pure] at hon
  obtain ⟨r, s', hr, hs', hq⟩ := hon s hs rfl
  refine hr.wp ?_
  rcases hq with ⟨hr0, hsame⟩ | ⟨rfl, a, l, j, run, e, hd, ha, hfind, hne, hfile, hstore⟩
  · exact ⟨fun h0 => absurd h0 hr0, fun _ => hsame⟩
  · refine ⟨fun _ => ?_, fun h0 => absurd rfl h0⟩
    obtain ⟨w', l', hshows, hf, -, hevo, hdel, hlay, hkept⟩ := h.shows_unlinked hw hd hfind hfile
    rw [← hstore] at hshows
    exact ⟨e, ch a, fileChain ch e, j, j + run.length, h.namesFile hs hw hd ha hfind hne hfile,
      View.Layout.removed hw hshows hevo.vol hf hstore,
      h.othersKept hs hs' hw hshows hevo.vol hd hdel (Listing.find_at hfind) hfile hlay hkept⟩

/-- A file of two clusters with a long name. -/
theorem fat32Unlink_exact_stocked : ∃ s', (fat32Unlink (0x2F :: letterName)).Runs stocked 0 s' ∧
    ∃ e xs ys j i, stocked.NamesFile (0x2F :: letterName) e xs ys j i ∧
      stocked.toStore.Removed s'.toStore xs ys j i ∧
        stocked.OthersKept s' (slotPlace stocked.vol xs i) := by
  obtain ⟨s', hrun⟩ : (fat32Unlink (0x2F :: letterName)).Answers stocked 0 :=
    answers_of_run (n := 10) (by decide +kernel)
  have hwp := fat32Unlink_exact stocked_ready stocked_consistent (0x2F :: letterName)
  exact ⟨s', hrun, (hwp.of_runs hrun).1 rfl⟩

end Chimaera.Fat32
