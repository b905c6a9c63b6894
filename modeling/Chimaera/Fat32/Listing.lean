/-
Well-formed directory contents.  A listing is a sequence of items (deleted
slots, dot entries, entries with their long names) and a tail of unused slots;
the scans of the driver are computed on its items.
-/
import Chimaera.Fat32.Slots

namespace Chimaera.Fat32

open Prog

/-- The `order` byte of piece `n`; the piece that comes first is marked. -/
def orderByte (n : Nat) (last : Bool) : UInt8 :=
  UInt8.ofNat n ||| (if last then 0x40 else 0)

theorem orderByte_spec {n : Nat} (h : 1 ≤ n) (hn : n < 32) (last : Bool) :
    orderByte n last ≠ 0 ∧ orderByte n last ≠ 0xE5 ∧
      (orderByte n last &&& 0x1F).toNat = n ∧ (orderByte n last &&& 0x40 != 0) = last := by
  have hall : ∀ m : Fin 32, ∀ b : Bool, 1 ≤ m.val →
      orderByte m b ≠ 0 ∧ orderByte m b ≠ 0xE5 ∧
        (orderByte m b &&& 0x1F).toNat = m.val ∧ (orderByte m b &&& 0x40 != 0) = b := by
    decide
  exact hall ⟨n, hn⟩ last h

/-- Piece `n` of a long name for a short name with the checksum `sum`. -/
structure Piece (sum : UInt8) (n : Nat) (last : Bool) (p : DirEntry) : Prop where
  lfn : p.isLfn = true
  checksum : p.checksum = sum
  order : p.first = orderByte n last

/-- The pieces `k`, `k - 1`, ..., 1. -/
def Pieces (sum : UInt8) : Bool → List DirEntry → Prop
  | _, [] => True
  | last, p :: ps => Piece sum (ps.length + 1) last p ∧ Pieces sum false ps

/-- A complete long name, or none. -/
def RunOk (sum : UInt8) (run : List DirEntry) : Prop :=
  Pieces sum true run ∧ run.length < 32

/-- What the pieces of a long name leave in a scan's buffer. -/
def runBuf (run : List DirEntry) : NameBuf := run.foldl lfnFeed fun _ => 0

def runName (run : List DirEntry) : CStr := (runBuf run).str

section Piece

variable {sum : UInt8} {n : Nat} {last : Bool} {p : DirEntry}

theorem Piece.first_ne (h : Piece sum n last p) (hn : 1 ≤ n) (hlt : n < 32) :
    p.first ≠ 0 ∧ p.first ≠ 0xE5 := by
  rw [h.order]
  exact ⟨(orderByte_spec hn hlt last).1, (orderByte_spec hn hlt last).2.1⟩

theorem Piece.seq (h : Piece sum n last p) (hn : 1 ≤ n) (hlt : n < 32) : p.seq = n := by
  rw [DirEntry.seq, h.order]
  exact (orderByte_spec hn hlt last).2.2.1

theorem Piece.isLast (h : Piece sum n last p) (hn : 1 ≤ n) (hlt : n < 32) :
    p.isLast = last := by
  rw [DirEntry.isLast, h.order]
  exact (orderByte_spec hn hlt last).2.2.2

/-- The marked piece clears the buffer first. -/
theorem lfnFeed_of_isLast (h : p.isLast = true) (buf : NameBuf) :
    lfnFeed buf p = lfnFeed (fun _ => 0) p := by
  simp [lfnFeed, h]

theorem Pieces.mem_ne {ps : List DirEntry} (h : Pieces sum last ps) (hlt : ps.length < 32) :
    ∀ q ∈ ps, q.first ≠ 0 ∧ q.first ≠ 0xE5 ∧ q.isLfn = true := by
  induction ps generalizing last with
  | nil => simp
  | cons q qs ih =>
      intro r hr
      rcases List.mem_cons.mp hr with rfl | hr
      · obtain ⟨h₀, h₁⟩ := h.1.first_ne (by omega) (by simpa using hlt)
        exact ⟨h₀, h₁, h.1.lfn⟩
      · exact ih h.2 (by simp at hlt; omega) r hr

end Piece

inductive Item where
  | hole (e : DirEntry)
  | dot (e : DirEntry)
  | entry (run : List DirEntry) (e : DirEntry)

namespace Item

def slots : Item → List DirEntry
  | hole e => [e]
  | dot e => [e]
  | entry run e => run ++ [e]

/-- A deleted slot, a dot entry without a long name, or a short entry with a
complete long name that carries its checksum. -/
def Ok : Item → Prop
  | hole e => e.first = 0xE5
  | dot e => e.isDot = true ∧ e.isLfn = false
  | entry run e => RunOk (lfnChecksum e.name) run ∧ e.first ≠ 0 ∧ e.first ≠ 0xE5 ∧
      e.isLfn = false ∧ e.isDot = false

def isHole : Item → Bool
  | hole _ => true
  | _ => false

end Item

/-- Everything after the first unused slot is zero. -/
def ZeroTail : List DirEntry → Prop
  | [] => True
  | z :: zs => z.first = 0 ∧ ∀ e ∈ zs, e = Block.zero 32

structure Listing where
  items : List Item
  tail : List DirEntry
  ok : ∀ it ∈ items, it.Ok
  zero : ZeroTail tail

def Listing.slots (l : Listing) : List DirEntry := l.items.flatMap Item.slots ++ l.tail

theorem DirEntry.first_of_isDot {e : DirEntry} (h : e.isDot = true) : e.first = 0x2E := by
  unfold DirEntry.isDot at h
  simp only [Bool.and_eq_true, beq_iff_eq] at h
  exact h.1

theorem ZeroTail.first_eq {es : List DirEntry} (h : ZeroTail es) : ∀ e ∈ es, e.first = 0 := by
  cases es with
  | nil => simp
  | cons z zs =>
      intro e he
      rcases List.mem_cons.mp he with rfl | he
      · exact h.1
      · rw [h.2 e he]
        exact Block.byte_zero 0

theorem ZeroTail.drop {es : List DirEntry} (h : ZeroTail es) (n : Nat) :
    ZeroTail (es.drop n) := by
  cases es with
  | nil => simpa using h
  | cons z zs =>
      cases n with
      | zero => exact h
      | succ n =>
          rw [List.drop_succ_cons]
          have hall : ∀ e ∈ zs.drop n, e = Block.zero 32 := fun e he =>
            h.2 e (List.mem_of_mem_drop he)
          cases hd : zs.drop n with
          | nil => exact trivial
          | cons y ys =>
              rw [hd] at hall
              refine ⟨?_, fun e he => hall e (List.mem_cons_of_mem y he)⟩
              rw [hall y List.mem_cons_self]
              exact Block.byte_zero 0

theorem ZeroTail.append_zeros {es : List DirEntry} (h : ZeroTail es) (n : Nat) :
    ZeroTail (es ++ List.replicate n (Block.zero 32)) := by
  cases es with
  | nil =>
      cases n with
      | zero => exact trivial
      | succ n =>
          refine ⟨Block.byte_zero 0, fun e he => ?_⟩
          exact List.eq_of_mem_replicate he
  | cons z zs =>
      refine ⟨h.1, fun e he => ?_⟩
      rcases List.mem_append.mp he with he | he
      · exact h.2 e he
      · exact List.eq_of_mem_replicate he

theorem ZeroTail.zeros (n : Nat) : ZeroTail (List.replicate n (Block.zero 32)) := by
  have h := ZeroTail.append_zeros (show ZeroTail [] from trivial) n
  rwa [List.nil_append] at h

/-- What `dir_find` compares a name with: the long name where there is one,
the short name otherwise. -/
def called (name : CStr) (run : List DirEntry) (e : DirEntry) : Bool :=
  if run = [] then decide (e.name = make83 name) else sameName name (runName run)

/-- The first entry with a name, behind slot `i`: its first slot, its long name
and its short entry. -/
def findFrom (name : CStr) : Nat → List Item → Option (Nat × List DirEntry × DirEntry)
  | _, [] => none
  | i, .entry run e :: its =>
      if called name run e then some (i, run, e) else findFrom name (i + (run.length + 1)) its
  | i, _ :: its => findFrom name (i + 1) its

def Listing.find (l : Listing) (name : CStr) : Option (Nat × List DirEntry × DirEntry) :=
  findFrom name 0 l.items

def Item.hasName (name83 : List UInt8) : Item → Bool
  | .hole _ => false
  | .dot e => decide (e.name = name83)
  | .entry _ e => decide (e.name = name83)

/-- The name under which `fat32_readdir` shows an entry. -/
def shownName (run : List DirEntry) (e : DirEntry) : CStr :=
  if run ≠ [] ∧ runBuf run 0 ≠ 0 then runName run else e.shortName

/-- What `fat32_readdir` hands to its callback for an item. -/
def Item.listed : Item → List Dirent
  | .entry run e => [e.dirent (shownName run e)]
  | _ => []

/-- A short name never starts with a dot. -/
theorem make83_getD_zero_ne_dot (name : CStr) : (make83 name).getD 0 0 ≠ 0x2E := by
  unfold make83 padTo
  cases hs : stem83 name 8 with
  | nil => simp
  | cons c cs =>
      have hc : c ∈ stem83 name 8 := by simp [hs]
      have hf := (List.mem_filter.mp (List.mem_of_mem_take hc)).2
      simp only [Bool.and_eq_true, bne_iff_ne, ne_eq] at hf
      simpa using hf.2

theorem DirEntry.getD_name (e : DirEntry) : e.name.getD 0 0 = e.first := by
  rw [DirEntry.name, Block.getD_toList, Block.byte_slice _ _ (by omega), Nat.zero_add]
  rfl

theorem name_ne_make83_of_isDot {e : DirEntry} (h : e.isDot = true) (name : CStr) :
    e.name ≠ make83 name := by
  intro heq
  apply make83_getD_zero_ne_dot name
  rw [← heq, DirEntry.getD_name, DirEntry.first_of_isDot h]

section Find

variable {name : CStr} {pos : Nat → DirPos} {st : FindState} {i : Nat}

theorem find_pieces {sum : UInt8} {ps : List DirEntry} (h : Pieces sum false ps)
    (hlt : ps.length < 32) (hb : st.buildingLfn = true) :
    scanSlots (dirFindStep name) pos st i ps =
      .inr { st with lfnBuf := ps.foldl lfnFeed st.lfnBuf } := by
  induction ps generalizing st i with
  | nil => rfl
  | cons p ps ih =>
      have hlt' : ps.length + 1 < 32 := by simpa using hlt
      obtain ⟨h₀, h₁⟩ := h.1.first_ne (by omega) hlt'
      have hl := h.1.isLast (by omega) hlt'
      obtain ⟨buf, parts, building, start⟩ := st
      simp only at hb
      subst hb
      rw [scanSlots, dirFindStep, if_neg h₀, if_neg h₁, if_pos h.1.lfn]
      simp only [hl, Bool.false_eq_true, if_false, if_true]
      exact ih h.2 (by omega) rfl

theorem find_run {sum : UInt8} {run : List DirEntry} (h : RunOk sum run) (hne : run ≠ []) :
    scanSlots (dirFindStep name) pos st i run = .inr ⟨runBuf run, run.length, true, pos i⟩ := by
  cases run with
  | nil => exact absurd rfl hne
  | cons p ps =>
      obtain ⟨hp, hlt⟩ := h
      have hlt' : ps.length + 1 < 32 := by simpa using hlt
      obtain ⟨h₀, h₁⟩ := hp.1.first_ne (by omega) hlt'
      have hl := hp.1.isLast (by omega) hlt'
      rw [scanSlots, dirFindStep, if_neg h₀, if_neg h₁, if_pos hp.1.lfn]
      simp only [hl, if_true]
      rw [find_pieces hp.2 (by omega) rfl, lfnFeed_of_isLast hl, hp.1.seq (by omega) hlt']
      rfl

variable (name pos i) in
theorem find_items {items : List Item} (hok : ∀ it ∈ items, it.Ok)
    (hb : st.buildingLfn = false) :
    match findFrom name i items with
    | some (j, run, e) =>
        scanSlots (dirFindStep name) pos st i (items.flatMap Item.slots) =
          .inl (some (e, pos (j + run.length), pos j))
    | none => ∃ st', st'.buildingLfn = false ∧
        scanSlots (dirFindStep name) pos st i (items.flatMap Item.slots) = .inr st' := by
  induction items generalizing st i with
  | nil => exact ⟨st, hb, rfl⟩
  | cons it its ih =>
      have hit := hok it List.mem_cons_self
      have ih' := fun {st : FindState} {i : Nat} (hb : st.buildingLfn = false) =>
        ih (i := i) (fun x hx => hok x (List.mem_cons_of_mem it hx)) hb
      rw [List.flatMap_cons]
      cases it with
      | hole e =>
          have h₁ : e.first = 0xE5 := hit
          have h₀ : e.first ≠ 0 := by rw [h₁]; decide
          rw [findFrom, Item.slots, List.singleton_append, scanSlots, dirFindStep,
            if_neg h₀, if_pos h₁]
          · exact ih' rfl
          · simp
      | dot e =>
          obtain ⟨hd, hlfn⟩ := hit
          have hf := DirEntry.first_of_isDot hd
          have h₀ : e.first ≠ 0 := by rw [hf]; decide
          have h₁ : e.first ≠ 0xE5 := by rw [hf]; decide
          rw [findFrom, Item.slots, List.singleton_append, scanSlots, dirFindStep,
            if_neg h₀, if_neg h₁, hlfn]
          · simp only [Bool.false_eq_true, if_false, hb, Bool.false_and, Bool.not_false,
              Bool.true_and, Bool.false_or, name_ne_make83_of_isDot hd, decide_false]
            exact ih' rfl
          · simp
      | entry run e =>
          obtain ⟨hrun, h₀, h₁, hlfn, -⟩ := hit
          have hlen : i + (run ++ [e]).length = i + (run.length + 1) := by simp
          have hshort : ∀ st' : FindState, (st'.buildingLfn = true → 0 < st'.lfnParts ∧
                st'.lfnBuf = runBuf run ∧ st'.lfnStart = pos i ∧ run ≠ []) →
              (st'.buildingLfn = false → run = []) →
              dirFindStep name st' (pos (i + run.length)) e =
                if called name run e then .inr (some (e, pos (i + run.length), pos i))
                else .inl { st' with
                  buildingLfn := false, lfnParts := 0, lfnStart := pos (i + run.length) } := by
            intro st' hyes hno
            rw [dirFindStep, if_neg h₀, if_neg h₁, hlfn]
            simp only [Bool.false_eq_true, if_false]
            cases hbl : st'.buildingLfn with
            | true =>
                obtain ⟨hpos, hbuf, hstart, hne⟩ := hyes hbl
                simp [hpos, hbuf, hstart, hne, called, runName]
            | false =>
                have hnil := hno hbl
                subst hnil
                simp [called]
          have hwhole : ∀ st', scanSlots (dirFindStep name) pos st i run = .inr st' →
              (st'.buildingLfn = true → 0 < st'.lfnParts ∧
                st'.lfnBuf = runBuf run ∧ st'.lfnStart = pos i ∧ run ≠ []) →
              (st'.buildingLfn = false → run = []) →
              match findFrom name i (.entry run e :: its) with
              | some (j, run', e') =>
                  scanSlots (dirFindStep name) pos st i
                    ((run ++ [e]) ++ its.flatMap Item.slots) =
                      .inl (some (e', pos (j + run'.length), pos j))
              | none => ∃ st', st'.buildingLfn = false ∧
                  scanSlots (dirFindStep name) pos st i
                    ((run ++ [e]) ++ its.flatMap Item.slots) = .inr st' := by
            intro st' hscan hyes hno
            rw [findFrom, scanSlots_append, scanSlots_append, hscan]
            simp only [scanSlots, hshort st' hyes hno]
            by_cases hc : called name run e = true
            · simp only [hc, if_true]
            · simp only [hc, Bool.false_eq_true, if_false, hlen]
              exact ih' rfl
          by_cases hne : run = []
          · subst hne
            refine hwhole st rfl ?_ fun _ => rfl
            intro ht
            rw [hb] at ht
            exact absurd ht (by decide)
          · refine hwhole _ (find_run hrun hne) ?_ ?_
            · exact fun _ => ⟨List.length_pos_iff.mpr hne, rfl, rfl, hne⟩
            · intro ht
              simp at ht

variable (name pos st) in
/-- The scan of `dir_find` over a whole listing. -/
theorem find_listing (l : Listing) (hb : st.buildingLfn = false) :
    match l.find name with
    | some (j, run, e) => scanSlots (dirFindStep name) pos st 0 l.slots =
        .inl (some (e, pos (j + run.length), pos j))
    | none => scanSlots (dirFindStep name) pos st 0 l.slots = .inl none ∨
        ∃ st', scanSlots (dirFindStep name) pos st 0 l.slots = .inr st' := by
  have hitems := find_items name pos 0 l.ok hb
  rw [Listing.find, Listing.slots, scanSlots_append]
  cases hf : findFrom name 0 l.items with
  | some r =>
      simp only [hf] at hitems
      simp only [hitems]
  | none =>
      simp only [hf] at hitems
      obtain ⟨st', -, hst'⟩ := hitems
      simp only [hst']
      cases ht : l.tail with
      | nil => exact Or.inr ⟨st', rfl⟩
      | cons z zs =>
          have hz := l.zero.first_eq z (by simp [ht])
          exact Or.inl (by rw [scanSlots, dirFindStep, if_pos hz])

end Find

end Chimaera.Fat32
