/-
The calls on one descriptor, in any order: as long as the three of them agree on
where the cursor is, the descriptor is a growable byte array.
-/
import Chimaera.ByteFile
import Chimaera.Fat32.RoundTrip

namespace Chimaera.Fat32

open Prog

variable {β : Type} {R : β → View → Prop} {w w' : View} {ch ch' : Nat → List Nat}
  {D : List Dir} {S T xs : List Nat} {a fd n q p cap : Nat} {f : Fd} {path : CStr}

/-- The walk of `fat32_seek` from cluster `q` of a chain. -/
theorem Holds.seekChain (hch : w.Chain a xs) (hf : w.fds fd = f) (hq : q < xs.length)
    (hcur : f.curCluster = xs.getD q 0) {g : Bool → Prog Drv β}
    (hin : q + n < xs.length →
      Holds (g true) R (w.setFd fd { f with curCluster := xs.getD (q + n) 0 }))
    (hend : xs.length ≤ q + n →
      Holds (g false) R (w.setFd fd { f with curCluster := xs.getLastD 0 })) :
    Holds (Fat32.seekChain fd n >>= g) R w := by
  induction n generalizing w f q with
  | zero =>
      rw [Fat32.seekChain, pure_bind]
      have hself : w.setFd fd { f with curCluster := xs.getD (q + 0) 0 } = w := by
        have hsame : { f with curCluster := xs.getD (q + 0) 0 } = f := by
          rw [Nat.add_zero, ← hcur]
        rw [hsame, View.setFd, ← hf, Function.update_eq_self]
      rw [← hself]
      exact hin hq
  | succ n ih =>
      refine Holds.of_sound fun m hs => ?_
      rw [Fat32.seekChain, bind_assoc]
      apply Holds.getStore
      intro c hc
      have hk : w.vol.InRange (xs.getD q 0) := by
        rw [List.getD_eq_getElem _ _ hq]
        exact hch.inRange (List.getElem_mem hq)
      rw [hc.fds, hf]
      simp only [hcur, bind_assoc]
      apply Holds.fatGet hk
      rcases Nat.lt_or_ge (q + 1) xs.length with hlt | hge
      · have hnext := hch.fat_getD hlt
        have hr : w.vol.InRange (xs.getD (q + 1) 0) := by
          rw [List.getD_eq_getElem _ _ hlt]
          exact hch.inRange (List.getElem_mem hlt)
        have hfin := hs.not_eoc hr
        have hge := hr.1
        rw [hnext, if_neg (by omega), bind_assoc]
        apply Holds.putFd
        refine ih (w := w.setFd fd { f with curCluster := xs.getD (q + 1) 0 })
          (f := { f with curCluster := xs.getD (q + 1) 0 }) (q := q + 1)
          (hch.of_fat rfl fun _ _ => rfl) (by rw [View.fds_setFd, Function.update_self]) hlt rfl
          ?_ ?_
        · intro hlt'
          rw [View.setFd_setFd]
          have hidx : q + 1 + n = q + (n + 1) := by omega
          rw [hidx] at hlt' ⊢
          exact hin hlt'
        · intro hge'
          rw [View.setFd_setFd]
          exact hend (by omega)
      · have hlast : xs.getD q 0 = xs.getLastD 0 := getD_eq_getLastD (by omega)
        have heoc : 0x0FFFFFF8 ≤ w.fat (xs.getD q 0) := by
          rw [hlast]
          exact hch.fat_last (List.length_pos_iff.mp (by omega))
        rw [if_pos (Or.inl heoc), pure_bind]
        have hself : w.setFd fd { f with curCluster := xs.getLastD 0 } = w := by
          have hsame : { f with curCluster := xs.getLastD 0 } = f := by
            rw [← hlast, ← hcur]
          rw [hsame, View.setFd, ← hf, Function.update_eq_self]
        rw [← hself]
        exact hend (by omega)

/-- `fat32_seek` refuses positions past the size; at a position that fills the
chain it runs off the end. -/
theorem Holds.fat32Seek (hch : w.Chain a xs) (hne : xs ≠ []) (hlt : fd < 16)
    (hf : w.fds fd = f) (hopen : f.isOpen = true) (hcl : f.cluster = a)
    {g : Int → Prog Drv β}
    (hpast : f.size < p → Holds (g Err.notFound.code) R w)
    (hin : p ≤ f.size → p / (w.vol.secPerClus * 512) < xs.length →
      Holds (g 0) R (w.setFd fd { f with
        pos := p, curCluster := xs.getD (p / (w.vol.secPerClus * 512)) 0 }))
    (hend : p ≤ f.size → xs.length ≤ p / (w.vol.secPerClus * 512) →
      Holds (g Err.notFound.code) R (w.setFd fd { f with curCluster := xs.getLastD 0 })) :
    Holds (Fat32.fat32Seek fd p >>= g) R w := by
  refine Holds.of_sound fun m hs => ?_
  rw [Fat32.fat32Seek, bind_assoc]
  apply Holds.getStore
  intro c hc
  rw [c.fdOpen_natCast hlt, Int.toNat_natCast, hc.fds, hf, hopen, hc.vol, hs.clusterSize_eq]
  simp only [Bool.not_true, Bool.false_eq_true, if_false]
  by_cases hp : f.size < p
  · rw [if_pos hp, pure_bind]
    exact hpast hp
  rw [if_neg hp]
  have hstart : f.cluster = xs.getD 0 0 := by
    cases xs with
    | nil => exact absurd rfl hne
    | cons x ys =>
        obtain ⟨rfl, -, -⟩ := Links.Chain.cons_iff.mp hch
        exact hcl
  simp only [bind_assoc]
  apply Holds.putFd
  refine Holds.seekChain (w := w.setFd fd { f with curCluster := f.cluster })
    (f := { f with curCluster := f.cluster }) (q := 0) (hch.of_fat rfl fun _ _ => rfl)
    (by rw [View.fds_setFd, Function.update_self]) (List.length_pos_iff.mpr hne) hstart ?_ ?_
  · intro hlt'
    rw [Nat.zero_add] at hlt' ⊢
    simp only [if_true, bind_assoc]
    apply Holds.getStore
    intro c' hc'
    rw [hc'.fds]
    apply Holds.putFd
    simp only [View.setFd_setFd, View.fds_setFd, Function.update_self, pure_bind]
    exact hin (by omega) hlt'
  · intro hge
    rw [Nat.zero_add] at hge
    simp only [Bool.false_eq_true, if_false, pure_bind, View.setFd_setFd]
    exact hend (by omega) hge

theorem Holds.fat32Write_nil (hlt : fd < 16) (hf : w.fds fd = f) (hopen : f.isOpen = true)
    (hwr : f.write = true) {g : Int → Prog Drv β} (hg : Holds (g 0) R w) :
    Holds (Fat32.fat32Write fd [] >>= g) R w := by
  rw [Fat32.fat32Write, bind_assoc]
  apply Holds.getStore
  intro c hc
  rw [c.fdOpen_natCast hlt, Int.toNat_natCast, hc.fds, hf, hopen, hwr]
  simp only [Bool.not_true, Bool.or_self, Bool.false_eq_true, if_false, bind_assoc, pure_bind]
  apply Holds.bind
  apply Holds.loop
  rw [Fat32.writeStep]
  apply Holds.getStore
  intro c' hc'
  simp only [List.length_nil, Nat.le_refl, if_true]
  apply Holds.pure
  simpa only [i32_of_lt (show 0 < 2147483648 by omega), Nat.cast_zero] using hg

theorem Holds.fat32Read_nil {len : Nat} (hlt : fd < 16) (hf : w.fds fd = f)
    (hopen : f.isOpen = true) (h0 : min len (f.size - f.pos) = 0)
    {g : Int × List UInt8 → Prog Drv β} (hg : Holds (g (0, [])) R w) :
    Holds (Fat32.fat32Read fd len >>= g) R w := by
  rw [Fat32.fat32Read, bind_assoc]
  apply Holds.getStore
  intro c hc
  rw [c.fdOpen_natCast hlt, Int.toNat_natCast, hc.fds, hf, hopen]
  simp only [Bool.not_true, Bool.false_eq_true, if_false]
  by_cases hend : f.size ≤ f.pos
  · rw [if_pos hend, pure_bind]
    exact hg
  · rw [if_neg hend, bind_assoc, h0]
    apply Holds.bind
    apply Holds.loop
    rw [Fat32.readStep]
    apply Holds.getStore
    intro c' hc'
    simp only [List.length_nil, Nat.le_refl, if_true]
    apply Holds.pure
    simpa only [pure_bind, List.length_nil, i32_of_lt (show 0 < 2147483648 by omega),
      Nat.cast_zero] using hg

theorem Fd.Eager.lazy {v : Vol} (h : f.Eager v xs) (hlt : f.pos < xs.length * (v.secPerClus * 512))
    (hb : f.pos % (v.secPerClus * 512) = 0 → f.pos = 0) : f.Lazy v xs := by
  unfold Fd.Lazy
  rw [h hlt]
  by_cases h0 : f.pos = 0
  · rw [h0]
  · rw [div_pred_of_mod fun hm => h0 (hb hm)]

theorem Fd.Lazy.eager {v : Vol} (h : f.Lazy v xs)
    (hb : f.pos % (v.secPerClus * 512) = 0 → f.pos = 0) : f.Eager v xs := by
  intro _
  rw [h]
  by_cases h0 : f.pos = 0
  · rw [h0]
  · rw [div_pred_of_mod fun hm => h0 (hb hm)]

/-- The cursor is where one cluster ends and the next one begins. -/
def AtBoundary (cs : Nat) (b : ByteFile) : Prop := b.pos % cs = 0 ∧ 0 < b.pos

instance (cs : Nat) (b : ByteFile) : Decidable (AtBoundary cs b) :=
  inferInstanceAs (Decidable (_ ∧ _))

/-- Whether the cursor was moved by a write last: `wrote` tells it of the calls
before. -/
def lastWrote (b : ByteFile) (wrote : Bool) : FileCall → Bool
  | .write bs => if bs = [] then wrote else true
  | .read len => if b.peek len = [] then wrote else false
  | .seek p => if p ≤ b.bytes.length then false else wrote

/-- The calls on which the driver's cursor is right: at a cluster boundary, no
write after a read or a seek, no read after a write, and no seek to the end; and
no count that an `int` cannot hold. -/
def Smooth (cs : Nat) (b : ByteFile) (wrote : Bool) : FileCall → Prop
  | .write bs => bs.length < 2147483648 ∧ (AtBoundary cs b → bs = [] ∨ wrote = true)
  | .read len => (b.peek len).length < 2147483648 ∧
      (AtBoundary cs b → b.peek len = [] ∨ wrote = false)
  | .seek p => ¬ (p = b.bytes.length ∧ p % cs = 0 ∧ 0 < p)

/-- Every call of a sequence is smooth. -/
def SmoothRun (cs : Nat) : ByteFile → Bool → List FileCall → Prop
  | _, _, [] => True
  | b, wrote, c :: calls =>
      Smooth cs b wrote c ∧ SmoothRun cs (b.step c).2 (lastWrote b wrote c) calls

/-- The answer of the driver for a reply, with the bytes it transfers. -/
def answerOf : Reply → Int × List UInt8
  | .wrote n => (n, [])
  | .bytes bs => (bs.length, bs)
  | .sought ok => (if ok then 0 else Err.notFound.code, [])

/-- A call on the descriptor `fd`. -/
def runCall (fd : Int) : FileCall → Prog Drv (Int × List UInt8)
  | .write bs => do
      let n ← fat32Write fd bs
      pure (n, [])
  | .read len => fat32Read fd len
  | .seek p => do
      let n ← fat32Seek fd p
      pure (n, [])

def runCalls (fd : Int) : List FileCall → Prog Drv (List (Int × List UInt8))
  | [] => pure []
  | c :: calls => do
      let answer ← runCall fd c
      let answers ← runCalls fd calls
      pure (answer :: answers)

/-- The descriptor `fd` holds the chain of `a`, which can grow to `cap`
clusters, and shows the file `b`; its cursor was moved by a write last, or not. -/
structure StreamAt (w : View) (ch : Nat → List Nat) (a : Nat) (S : List Nat) (fd cap : Nat)
    (b : ByteFile) (wrote : Bool) : Prop where
  chains : w.Chains ch (a :: S)
  isOpen : (w.fds fd).isOpen = true
  write : (w.fds fd).write = true
  cluster : (w.fds fd).cluster = a
  pos : (w.fds fd).pos = b.pos
  size : (w.fds fd).size = b.bytes.length
  size_le : b.bytes.length ≤ (ch a).length * (w.vol.secPerClus * 512)
  size_lt : b.bytes.length < 4294967296
  cursor : if wrote then (w.fds fd).Lazy w.vol (ch a) else (w.fds fd).Eager w.vol (ch a)
  bytes : ∀ i, i < b.bytes.length → w.fileByte (ch a) i = b.bytes.getD i 0
  cap : (ch a).length + w.freeCount = cap

namespace StreamAt

variable {b : ByteFile} {wrote : Bool} {bs : List UInt8}

theorem within (h : StreamAt w ch a S fd cap b wrote) : (w.fds fd).Within w.vol (ch a) :=
  ⟨by rw [h.pos, h.size]; exact b.pos_le, by rw [h.size]; exact h.size_le⟩

/-- Off the cluster boundaries all calls agree on the cluster. -/
theorem lazy (h : StreamAt w ch a S fd cap b wrote) {n : Nat} (hs : w.vol.Sound n)
    (hb : AtBoundary (w.vol.secPerClus * 512) b → wrote = true) :
    (w.fds fd).Lazy w.vol (ch a) := by
  have hcur := h.cursor
  cases hw : wrote with
  | true => simpa [hw] using hcur
  | false =>
      simp only [hw, Bool.false_eq_true, if_false] at hcur
      have hno : ¬ AtBoundary (w.vol.secPerClus * 512) b := fun hat => by simpa [hw] using hb hat
      have hle := Nat.le_trans b.pos_le h.size_le
      have hpos : 0 < (ch a).length * (w.vol.secPerClus * 512) := by
        have := hs.spc_pos
        have := List.length_pos_iff.mpr (h.chains.chain a List.mem_cons_self).2
        exact Nat.mul_pos (by omega) (by omega)
      have hlt : b.pos < (ch a).length * (w.vol.secPerClus * 512) := by
        refine Nat.lt_of_le_of_ne hle fun heq => hno ⟨?_, ?_⟩
        · rw [heq]
          exact Nat.mul_mod_left _ _
        · omega
      refine hcur.lazy (by rw [h.pos]; exact hlt) fun hm => ?_
      rw [h.pos] at hm ⊢
      by_contra h0
      exact hno ⟨hm, by omega⟩

theorem eager (h : StreamAt w ch a S fd cap b wrote)
    (hb : AtBoundary (w.vol.secPerClus * 512) b → wrote = false) :
    (w.fds fd).Eager w.vol (ch a) := by
  have hcur := h.cursor
  cases hw : wrote with
  | false => simpa [hw] using hcur
  | true =>
      simp only [hw, if_true] at hcur
      refine hcur.eager fun hm => ?_
      rw [h.pos] at hm ⊢
      by_contra h0
      have := hb ⟨hm, by omega⟩
      simp [hw] at this

/-- What is left of a stream after a write through its descriptor. -/
theorem of_written (h : StreamAt w ch a S fd cap b wrote) (hwr : Written w ch a S fd (w.fds fd) bs
    bs.length w' ch') (h32 : b.pos + bs.length < 4294967296) :
    StreamAt w' ch' a S fd cap (b.write bs) true := by
  have hf : w'.fds fd = (w.fds fd).wrote bs.length
      ((ch' a).getD (((w.fds fd).pos + bs.length - 1) / (w.vol.secPerClus * 512)) 0) := by
    rw [hwr.fds, Function.update_self]
  have hsize := hwr.size_le
  have hlt := h.size_lt
  have hposle := b.pos_le
  rw [h.size, h.pos] at hsize
  refine ⟨hwr.chains, ?_, ?_, ?_, ?_, ?_, ?_, ?_, ?_, ?_, ?_⟩
  · rw [hf]
    exact h.isOpen
  · rw [hf]
    exact h.write
  · rw [hf]
    exact h.cluster
  · rw [hf, ByteFile.pos_write, ← h.pos]
    rfl
  · rw [hf, ByteFile.length_write, ← h.pos, ← h.size]
    rfl
  · rw [ByteFile.length_write, hwr.vol]
    exact hsize
  · rw [ByteFile.length_write]
    omega
  · simp only [if_true]
    rw [hf, hwr.vol]
    rfl
  · intro i hi
    rw [ByteFile.length_write] at hi
    rw [hwr.bytes i (by omega), ByteFile.getD_write, h.pos]
    split
    · rfl
    · have hle := h.size_le
      rw [if_pos (by omega)]
      exact h.bytes i (by omega)
  · rw [hwr.free]
    exact h.cap

/-- What is left of a stream after its cursor moved. -/
theorem moved (h : StreamAt w ch a S fd cap b wrote) {b' : ByteFile} {wrote' : Bool} {cur : Nat}
    (hbytes : b'.bytes = b.bytes)
    (hcur : if wrote' then ({ w.fds fd with pos := b'.pos, curCluster := cur } : Fd).Lazy w.vol (ch a)
      else ({ w.fds fd with pos := b'.pos, curCluster := cur } : Fd).Eager w.vol (ch a)) :
    StreamAt (w.setFd fd { w.fds fd with pos := b'.pos, curCluster := cur }) ch a S fd cap b'
      wrote' := by
  have hself : (w.setFd fd { w.fds fd with pos := b'.pos, curCluster := cur }).fds fd =
      { w.fds fd with pos := b'.pos, curCluster := cur } := by
    rw [View.fds_setFd, Function.update_self]
  refine ⟨h.chains.of_fat rfl rfl, ?_, ?_, ?_, ?_, ?_, ?_, ?_, ?_, ?_, h.cap⟩
  · rw [hself]
    exact h.isOpen
  · rw [hself]
    exact h.write
  · rw [hself]
    exact h.cluster
  · rw [hself]
  · rw [hself, hbytes]
    exact h.size
  · rw [hbytes]
    exact h.size_le
  · rw [hbytes]
    exact h.size_lt
  · rw [hself]
    exact hcur
  · rw [hbytes]
    exact h.bytes

/-- The next bytes of the stream, as they lie on the chain. -/
theorem map_fileByte (h : StreamAt w ch a S fd cap b wrote) (len : Nat) :
    ((List.range (min len (b.bytes.length - b.pos))).map fun i => w.fileByte (ch a) (b.pos + i)) =
      b.peek len := by
  have hposle := b.pos_le
  rw [ByteFile.peek_eq_map]
  apply List.map_congr_left
  intro i hi
  rw [List.mem_range] at hi
  exact h.bytes _ (by omega)

/-- A position of the stream behind its chain is the end of the chain. -/
theorem chain_end (h : StreamAt w ch a S fd cap b wrote) {q : Nat} (hspc : 1 ≤ w.vol.secPerClus)
    (hle : q ≤ b.bytes.length) (hend : (ch a).length ≤ q / (w.vol.secPerClus * 512)) :
    q = b.bytes.length ∧ q % (w.vol.secPerClus * 512) = 0 ∧ 0 < q := by
  have hsize := h.size_le
  have hne := (h.chains.chain a List.mem_cons_self).2
  have hmul : (ch a).length * (w.vol.secPerClus * 512) ≤ q :=
    Nat.le_trans (Nat.mul_le_mul_right _ hend) (Nat.div_mul_le_self _ _)
  have hlen : 0 < (ch a).length * (w.vol.secPerClus * 512) :=
    Nat.mul_pos (List.length_pos_iff.mpr hne) (by omega)
  have heq : q = (ch a).length * (w.vol.secPerClus * 512) := by omega
  exact ⟨by omega, by rw [heq]; exact Nat.mul_mod_left _ _, by omega⟩

end StreamAt

section Calls

variable {b : ByteFile} {wrote : Bool} {g : Int × List UInt8 → Prog Drv β}

theorem Holds.runCall_write (h : StreamAt w ch a S fd cap b wrote) (hlt : fd < 16)
    (hsm : Smooth (w.vol.secPerClus * 512) b wrote (.write bs))
    (hcap : (b.write bs).bytes.length ≤ cap * (w.vol.secPerClus * 512))
    (h32 : (b.write bs).bytes.length < 4294967296)
    (hg : ∀ w' ch', StreamAt w' ch' a S fd cap (b.write bs) (lastWrote b wrote (.write bs)) →
      w'.vol = w.vol → Holds (g (answerOf (b.step (.write bs)).1)) R w') :
    Holds (runCall fd (.write bs) >>= g) R w := by
  refine Holds.of_sound fun n hs => ?_
  rw [Fat32.runCall, bind_assoc]
  simp only [pure_bind]
  rw [ByteFile.length_write] at hcap h32
  by_cases hnil : bs = []
  · subst hnil
    apply Holds.fat32Write_nil hlt rfl h.isOpen h.write
    refine hg w ch ?_ rfl
    have hsame : b.write [] = b := by
      simp [ByteFile.write]
    simp only [hsame, lastWrote, if_true]
    exact h
  · apply Holds.fat32Write h.chains hlt rfl h.isOpen h.write h.within
      (h.lazy hs fun hat => (hsm.2 hat).resolve_left hnil) (by rw [h.pos]; omega)
    intro m w' ch' hm hshort hwr
    have hfull : m = bs.length := by
      by_contra hlt'
      obtain ⟨h0, hend⟩ := hshort (by omega)
      have hfree := hwr.free
      rw [h0, Nat.add_zero, h.cap] at hfree
      rw [hfree, h.pos] at hend
      omega
    subst hfull
    rw [i32_of_lt hsm.1]
    refine hg w' ch' ?_ hwr.vol
    rw [lastWrote, if_neg hnil]
    exact h.of_written hwr (by omega)

theorem Holds.runCall_read {len : Nat} (h : StreamAt w ch a S fd cap b wrote) (hlt : fd < 16)
    (hsm : Smooth (w.vol.secPerClus * 512) b wrote (.read len))
    (hg : ∀ w' ch', StreamAt w' ch' a S fd cap (b.skip len) (lastWrote b wrote (.read len)) →
      w'.vol = w.vol → Holds (g (answerOf (b.step (.read len)).1)) R w') :
    Holds (runCall fd (.read len) >>= g) R w := by
  have hch := (h.chains.chain a List.mem_cons_self).1
  have hlen := b.length_peek len
  rw [Fat32.runCall]
  by_cases h0 : min len (b.bytes.length - b.pos) = 0
  · have hnil : b.peek len = [] := List.eq_nil_of_length_eq_zero (by omega)
    apply Holds.fat32Read_nil hlt rfl h.isOpen (by rw [h.size, h.pos]; exact h0)
    have hgo := hg w ch ?_ rfl
    · simpa [ByteFile.step, hnil, answerOf] using hgo
    · have hsame : b.skip len = b := by
        simp [ByteFile.skip, h0]
      simp only [hsame, lastWrote, hnil, if_true]
      exact h
  · have hnn : b.peek len ≠ [] := by
      intro hnil
      rw [hnil, List.length_nil] at hlen
      omega
    apply Holds.fat32Read hch hlt rfl h.isOpen h.within
      (h.eager fun hat => (hsm.2 hat).resolve_left hnn) (by rw [h.size]; exact h.size_lt)
    intro cur hcur
    rw [h.size, h.pos] at hcur ⊢
    rw [h.map_fileByte, ← hlen, i32_of_lt hsm.1]
    have hreads : (w.fds fd).reads (b.peek len).length cur =
        { w.fds fd with pos := (b.skip len).pos, curCluster := cur } := by
      rw [Fd.reads, h.pos, hlen]
      rfl
    rw [← hlen, hreads] at hcur
    rw [hreads]
    refine hg _ ch ?_ rfl
    rw [lastWrote, if_neg hnn]
    exact h.moved rfl (by simpa using hcur)

theorem Holds.runCall_seek {q : Nat} (h : StreamAt w ch a S fd cap b wrote) (hlt : fd < 16)
    (hsm : Smooth (w.vol.secPerClus * 512) b wrote (.seek q))
    (hg : ∀ w' ch', StreamAt w' ch' a S fd cap (b.seek q) (lastWrote b wrote (.seek q)) →
      w'.vol = w.vol → Holds (g (answerOf (b.step (.seek q)).1)) R w') :
    Holds (runCall fd (.seek q) >>= g) R w := by
  refine Holds.of_sound fun n hs => ?_
  obtain ⟨hch, hne⟩ := h.chains.chain a List.mem_cons_self
  rw [Fat32.runCall, bind_assoc]
  simp only [pure_bind]
  apply Holds.fat32Seek hch hne hlt rfl h.isOpen h.cluster
  · intro hpast
    rw [h.size] at hpast
    have hgo := hg w ch ?_ rfl
    · simpa [ByteFile.step, answerOf, show ¬ q ≤ b.bytes.length by omega] using hgo
    · simp only [b.seek_of_lt q hpast, lastWrote, if_neg (show ¬ q ≤ b.bytes.length by omega)]
      exact h
  · intro hle _
    rw [h.size] at hle
    have hpos := b.pos_seek q hle
    have hmoved := @StreamAt.moved w ch S a fd cap b wrote h (b.seek q) false
      ((ch a).getD (q / (w.vol.secPerClus * 512)) 0) (b.bytes_seek q) (by
        simp only [Bool.false_eq_true, if_false]
        intro _
        simp only [hpos])
    simp only [lastWrote, if_pos hle] at hg
    have hgo := hg _ ch hmoved rfl
    rw [hpos] at hgo
    simpa [ByteFile.step, answerOf, hle] using hgo
  · intro hle hend
    rw [h.size] at hle
    exact absurd (h.chain_end hs.spc_pos hle hend) hsm

/-- A smooth call answers what the byte array answers, and leaves a stream. -/
theorem Holds.runCall (c : FileCall) (h : StreamAt w ch a S fd cap b wrote) (hlt : fd < 16)
    (hsm : Smooth (w.vol.secPerClus * 512) b wrote c)
    (hcap : (b.step c).2.bytes.length ≤ cap * (w.vol.secPerClus * 512))
    (h32 : (b.step c).2.bytes.length < 4294967296)
    (hg : ∀ w' ch', StreamAt w' ch' a S fd cap (b.step c).2 (lastWrote b wrote c) →
      w'.vol = w.vol → Holds (g (answerOf (b.step c).1)) R w') :
    Holds (runCall fd c >>= g) R w := by
  cases c with
  | write bs => exact Holds.runCall_write h hlt hsm hcap h32 hg
  | read len => exact Holds.runCall_read h hlt hsm hg
  | seek q => exact Holds.runCall_seek h hlt hsm hg

end Calls

/-- A smooth run answers what the byte array answers. -/
theorem Holds.runCalls {b : ByteFile} {wrote : Bool} {calls : List FileCall}
    (h : StreamAt w ch a S fd cap b wrote) (hlt : fd < 16)
    (hsm : SmoothRun (w.vol.secPerClus * 512) b wrote calls)
    (hcap : (b.after calls).bytes.length ≤ cap * (w.vol.secPerClus * 512))
    (h32 : (b.after calls).bytes.length < 4294967296)
    {g : List (Int × List UInt8) → Prog Drv β}
    (hg : ∀ w', Holds (g ((b.replies calls).map answerOf)) R w') :
    Holds (runCalls fd calls >>= g) R w := by
  induction calls generalizing w ch b wrote g with
  | nil =>
      rw [Fat32.runCalls, pure_bind]
      exact hg w
  | cons c calls ih =>
      have hlen := (b.step c).2.length_after_le calls
      rw [ByteFile.after] at hcap h32
      rw [Fat32.runCalls, bind_assoc]
      apply Holds.runCall c h hlt hsm.1 (by omega) (by omega)
      intro w' ch' h' hv
      simp only [bind_assoc, pure_bind]
      rw [← hv] at hsm hcap
      exact ih h' hsm.2 hcap h32 fun w'' => hg w''

/-- A read where a write has just filled a cluster gives the bytes of that
cluster again. -/
theorem Holds.read_behind {b : ByteFile} (h : StreamAt w ch a S fd cap b true) (hlt : fd < 16)
    (hat : AtBoundary (w.vol.secPerClus * 512) b) (hin : b.pos < b.bytes.length)
    {g : Int × List UInt8 → Prog Drv β}
    (hg : ∀ w', Holds (g (1, [b.bytes.getD (b.pos - w.vol.secPerClus * 512) 0])) R w') :
    Holds (Fat32.runCall fd (.read 1) >>= g) R w := by
  refine Holds.of_sound fun n hs => ?_
  have hc : 0 < w.vol.secPerClus * 512 := by
    have := hs.spc_pos
    omega
  have hch := (h.chains.chain a List.mem_cons_self).1
  have hlazy : (w.fds fd).curCluster = (ch a).getD ((b.pos - 1) / (w.vol.secPerClus * 512)) 0 := by
    have hcur := h.cursor
    simp only [if_true] at hcur
    rw [hcur, h.pos]
  obtain ⟨hmod, hpos⟩ := hat
  have hmul := Nat.div_mul_cancel (Nat.dvd_of_mod_eq_zero hmod)
  have hidx := div_pred_of_dvd hc hmod hpos
  have hsize := h.size_le
  have hq : (b.pos - 1) / (w.vol.secPerClus * 512) < (ch a).length :=
    Nat.div_lt_of_lt_mul (by rw [Nat.mul_comm]; omega)
  have hk : w.vol.InRange (w.fds fd).curCluster := by
    rw [hlazy, List.getD_eq_getElem _ _ hq]
    exact hch.inRange (List.getElem_mem hq)
  have hback : b.pos - w.vol.secPerClus * 512 =
      (b.pos - 1) / (w.vol.secPerClus * 512) * (w.vol.secPerClus * 512) := by
    rw [← hidx, Nat.succ_mul] at hmul
    omega
  have hbyte : (w.sec (w.fds fd).curCluster (b.pos / 512 % w.vol.secPerClus)).byte
      (b.pos % 512 + 0) = b.bytes.getD (b.pos - w.vol.secPerClus * 512) 0 := by
    rw [← h.bytes _ (by omega), View.fileByte, ← div_mul_512, hback, Nat.mul_div_cancel _ hc,
      hlazy]
    have h₁ : b.pos / 512 % w.vol.secPerClus = 0 := by
      rw [← mod_mul_512, hmod]
    have h₂ : b.pos % 512 = 0 := by
      rw [← mod_mod_512 w.vol.secPerClus, hmod]
    have h₃ : ∀ m, m * (w.vol.secPerClus * 512) / 512 % w.vol.secPerClus = 0 := by
      intro m
      rw [← mod_mul_512, Nat.mul_mod_left]
    have h₄ : ∀ m, m * (w.vol.secPerClus * 512) % 512 = 0 := by
      intro m
      rw [← mod_mod_512 w.vol.secPerClus, Nat.mul_mod_left]
    rw [h₁, h₂, h₃, h₄]
  rw [Fat32.runCall, Fat32.fat32Read, bind_assoc]
  apply Holds.getStore
  intro c hcw
  rw [c.fdOpen_natCast hlt, Int.toNat_natCast, hcw.fds, h.isOpen]
  simp only [Bool.not_true, Bool.false_eq_true, if_false, h.size, h.pos]
  have hone : min 1 (b.bytes.length - b.pos) = 1 := by omega
  rw [if_neg (by omega), bind_assoc, hone]
  apply Holds.bind
  apply Holds.loop
  have hlt32 := h.size_lt
  refine (@Holds.readStep w fd _ _ (w.fds fd) [] hs rfl (by simp) hk
    (by rw [h.pos, List.length_nil]; omega)).mono ?_
  rintro d w' ⟨m, hm, hm', -, rfl, -⟩
  have hm1 : m = 1 := by
    rw [List.length_nil] at hm'
    omega
  subst hm1
  apply Holds.loop
  rw [Fat32.readStep]
  apply Holds.getStore
  intro c' hcw'
  simp only [List.nil_append, List.length_map, List.length_range, Nat.le_refl, if_true]
  apply Holds.pure
  simp only [pure_bind, List.range_one, List.map_cons, List.map_nil, h.pos, hbyte]
  exact hg w'

/-- A descriptor as `fat32_open` sets it up for writing, on the cluster `k`. -/
structure Fd.Fresh (f : Fd) (k : Nat) : Prop where
  isOpen : f.isOpen = true
  write : f.write = true
  cluster : f.cluster = k
  curCluster : f.curCluster = k
  pos : f.pos = 0
  size : f.size = 0

theorem Fd.Fresh.streamAt {k : Nat} (h : f.Fresh k) (hf : w.fds fd = f)
    (hch : w.Chains ch (k :: S)) (hk : ch k = [k]) :
    StreamAt w ch k S fd (1 + w.freeCount) ByteFile.empty true := by
  subst hf
  have hlen : (ch k).length = 1 := by rw [hk, List.length_singleton]
  refine ⟨hch, h.isOpen, h.write, h.cluster, h.pos, h.size, Nat.zero_le _, ?_, ?_, ?_, ?_⟩
  · change 0 < _
    omega
  · simp only [if_true]
    rw [Fd.Lazy, h.curCluster, h.pos, hk]
    simp
  · intro i hi
    exact absurd hi (Nat.not_lt_zero i)
  · rw [hlen]

/-- The slots of a new name have room in its directory and one more cluster, where the
disk has a second one. -/
def View.SlotsFit (w : View) (D : List Dir) (path : CStr) : Prop :=
  2 ≤ w.freeCount → ∀ l, ⟨(resolveParent w.vol D path).1, l⟩ ∈ D →
    RoomFor l.slots w.vol.perCluster (lfnCount (resolveParent w.vol D path).2 + 1)

/-- `fat32_open` creates a file, whatever its name, when its slots have room. -/
theorem Holds.openCreate_fresh {g : Int → Prog Drv β} (h : w.Layout ch D T)
    (hfit : w.SlotsFit D path)
    (hno : (resolveParent w.vol D path).1 = 0 → Holds (g Err.notFound.code) R w)
    (hfull : w.freeCount ≤ 1 → ∀ w', Holds (g Err.full.code) R w')
    (hok : ∀ k f w' ch' S, f.Fresh k → w'.Chains ch' (k :: S) → ch' k = [k] → w'.vol = w.vol →
      w'.fds = Function.update w.fds fd f → w.freeCount ≤ w'.freeCount + 2 → Holds (g fd) R w') :
    Holds (Fat32.openCreate fd path >>= g) R w := by
  refine Holds.of_sound fun n hs => ?_
  rw [Fat32.openCreate, bind_assoc]
  apply Holds.pathResolveParent h
  have hcase := resolveParent_mem h path
  unfold View.SlotsFit at hfit
  generalize resolveParent w.vol D path = r at *
  obtain ⟨s, name⟩ := r
  simp only at *
  by_cases h0 : s = 0
  · rw [if_pos h0, pure_bind]
    exact hno h0
  rw [if_neg h0, bind_assoc]
  obtain ⟨⟨s', l⟩, hd, hs'⟩ := hcase.resolve_left h0
  change s' = s at hs'
  subst hs'
  apply Holds.fatAlloc (Or.inl rfl)
  · intro hall
    rw [if_pos rfl, pure_bind]
    exact hfull (by rw [View.freeCount_eq_zero.mpr hall]; omega) w
  intro k hk hk0 _
  have hkne : k ≠ 0 := by
    have := hk.1
    omega
  rw [if_neg hkne, bind_assoc]
  have hlay := h.alloc hs hk hk0
  have hvol : (w.alloc 0 k).vol = w.vol := View.vol_alloc
  have hsS : s' ∈ starts (w.alloc 0 k).vol D ++ k :: T := hlay.sound_start hd
  have hsk : s' ≠ k := by
    rintro rfl
    exact (List.nodup_append.mp hlay.chains.nodup_start).2.2 _ (hlay.tree.start_mem hd) _
      List.mem_cons_self rfl
  have hcount := @View.freeCount_alloc _ _ 0 (Ne.symm hkne) hk hk0 (by simp)
  apply Holds.dirAddEntry_fit (hlay.lists hd)
    (fun h1 => by rw [hvol]; exact hfit (by omega) l hd)
  · intro _ hzero
    simp only [bind_assoc, pure_bind]
    rw [hzero] at hcount
    have hchain : (w.alloc 0 k).Chain k [k] := by
      have := (hlay.chains.chain k (by simp)).1
      rwa [Function.update_self] at this
    apply Holds.fatFreeChain hchain
    exact hfull (by omega) _
  · intro w₁ xs' l₁ m hg hgrows hgrown j o hrun
    simp only [bind_assoc, pure_bind]
    apply Holds.putFd
    obtain ⟨hch₁, -, -⟩ := hg.chains hlay.chains (hvol ▸ hs) hsS
    have hperm : (starts (w.alloc 0 k).vol D ++ k :: T).Perm
        (k :: (starts (w.alloc 0 k).vol D ++ T)) := List.perm_middle
    refine hok k ⟨true, true, k, s', (posAt (w.alloc 0 k).vol o xs' (j + lfnCount name)).lba,
      (posAt (w.alloc 0 k).vol o xs' (j + lfnCount name)).off, 0, 0, k⟩ _
      (Function.update (Function.update ch k [k]) s' xs') _ ⟨rfl, rfl, rfl, rfl, rfl, rfl⟩ 
      ((hch₁.perm hperm).of_fat ?_ ?_) ?_ ?_ ?_ ?_
    · rw [View.vol_setFd, View.vol_setSlots]
    · rw [View.fat_setFd, View.fat_setSlots]
    · rw [Function.update_of_ne (Ne.symm hsk), Function.update_self]
    · rw [View.vol_setFd, View.vol_setSlots, hg.vol, hvol]
    · rw [View.fds_setFd, View.fds_setSlots, hg.fds, View.fds_alloc]
    · have hle := hgrows.le
      have hsame : ((w₁.setSlots xs' j (newPieces l name ++ [newEntry l name 0x20 k 0])).setFd fd
          ⟨true, true, k, s', (posAt (w.alloc 0 k).vol o xs' (j + lfnCount name)).lba,
          (posAt (w.alloc 0 k).vol o xs' (j + lfnCount name)).off, 0, 0, k⟩).freeCount =
          w₁.freeCount := View.freeCount_congr (by rw [View.vol_setFd, View.vol_setSlots])
        (by rw [View.fat_setFd, View.fat_setSlots])
      omega

/-- `fat32_open` for writing, on any path: it hands out a fresh stream, and fails
only where it must. -/
theorem Holds.fat32Open_stream {g : Int → Prog Drv β} (h : w.Layout ch D T)
    (hfit : Admits w ch D path true → statPath w.vol ch D path = none → w.SlotsFit D path)
    (herr : ∀ (err : Err) w', (Admits w ch D path true →
      (resolveParent w.vol D path).1 ≠ 0 → w.freeCount ≤ 1) → Holds (g err.code) R w')
    (hok : ∀ fd k w' ch' S, fd < 16 →
      StreamAt w' ch' k S fd (1 + w'.freeCount) ByteFile.empty true → w'.vol = w.vol →
      (statPath w.vol ch D path = none → w.freeCount ≤ w'.freeCount + 2) → Holds (g fd) R w') :
    Holds (Fat32.fat32Open path true >>= g) R w := by
  refine Holds.of_sound fun n hs => ?_
  apply Holds.fat32Open h
  · exact fun err hno => herr err w fun ha _ => absurd ha hno
  · intro fd p hfd hstat hfile _ _
    obtain ⟨s, i, run, hpath, hpe⟩ := exists_pathAt h hstat hfile
    obtain ⟨l, j, hd, -, -, hfind, rfl⟩ := id hpath
    have hat := Listing.find_at hfind
    apply Holds.openExisting_write h hpe hd hat hfile
    · exact fun _ h0 => herr Err.full _ fun _ _ => by omega
    · intro k w' l' hk _ hup hlay _ hevo hfds
      have hcl : (truncated p.entry k).cluster = k :=
        cluster_truncated (by have := hs.inRange_lt hk; omega)
      have hk0 : (truncated p.entry k).cluster ≠ 0 := by
        have := hk.1
        omega
      have hentry : EntryAt (setListing D s l') s (j + run.length) run (truncated p.entry k) :=
        (entryAt_setListing hd).mpr (Or.inr ⟨rfl, hup.at_iff.mpr (Or.inr ⟨rfl, rfl, rfl⟩)⟩)
      have hchains := hlay.chains.perm (hentry.perm_starts hk0)
      rw [hcl] at hchains
      have hfresh : (openFd w.vol (ch s) true s (j + run.length) (truncated p.entry k)).Fresh k :=
        ⟨rfl, rfl, hcl, hcl, rfl, size_truncated⟩
      exact hok fd k w' _ _ (View.freeFd_lt hfd) (hfresh.streamAt
        (by rw [hfds, Function.update_self]) hchains (Function.update_self _ _ _)) hevo.vol
        fun hnone => by rw [hstat] at hnone; cases hnone
  · intro fd hfd hstat _ hm hro
    have hadmits : Admits w ch D path true :=
      ⟨hm, fun _ => hro, ⟨fd, hfd⟩, fun q hq => absurd (hstat.symm.trans hq) (by simp),
        fun _ => rfl⟩
    refine Holds.openCreate_fresh h (hfit hadmits hstat)
      (fun h0 => herr Err.notFound w fun _ hne => absurd h0 hne)
      (fun hle w' => herr Err.full w' fun _ _ => hle) ?_
    intro k f w' ch' S hfresh hch hk hv hfds hcount
    exact hok fd k w' ch' S (View.freeFd_lt hfd)
      (hfresh.streamAt (by rw [hfds, Function.update_self]) hch hk) hv fun _ => hcount

def Drv.freeClusters (s : Drv) : Nat := s.toStore.view.freeCount

/-- The calls on a descriptor that `fat32_open` hands out for writing answer what
a byte array answers, as long as the clusters last. -/
def LikeBytes (s : Drv) (path : CStr) (calls : List FileCall) : Prop :=
  (fat32Open path true).wp (fun fd s' => 0 ≤ fd →
    (ByteFile.empty.after calls).bytes.length ≤
      (1 + s'.freeClusters) * (s.vol.secPerClus * 512) →
    (ByteFile.empty.after calls).bytes.length < 4294967296 →
    (runCalls fd calls).wp (fun answers _ =>
      answers = (ByteFile.empty.replies calls).map answerOf) s') s

/-- What `fat32_open` for writing asks for before it touches the disk. -/
structure Drv.Opens (s : Drv) (path : CStr) : Prop where
  mounted : s.volMounted = true
  writable : s.volReadonly = false
  room : ∃ i < 16, (s.fds i).isOpen = false
  file : ∀ p, (pathStat path).Answers s (some p) → p.entry.isDir = false
  parent : ∀ r, (pathResolveParent path).Answers s r → r.1 ≠ 0

/-- The slots of a new entry at the path have room in its directory and one more cluster. -/
def Drv.SlotsFit (s : Drv) (path : CStr) : Prop :=
  ∀ r xs, (pathResolveParent path).Answers s r → s.toStore.Chain r.1 xs →
    RoomFor (s.toStore.slots xs) s.vol.perCluster (lfnCount r.2 + 1)

/-- Where `fat32_open` creates the file and its directory may grow, there is room for the
slots of its name. -/
def Fits (s : Drv) (path : CStr) : Prop :=
  s.Opens path → (pathStat path).Answers s none → 2 ≤ s.freeClusters → s.SlotsFit path

namespace View.Layout

variable {t : Drv} {l : Listing}

theorem freeClusters_eq (hw : t.toStore.Shows w) : t.freeClusters = w.freeCount := by
  unfold Drv.freeClusters
  rw [hw.view]

theorem store_slots (h : w.Layout ch D T) (hw : t.toStore.Shows w) (hd : ⟨a, l⟩ ∈ D) :
    t.toStore.slots (ch a) = l.slots := by
  have hlists := h.lists hd
  rw [← hlists.slots, Store.slots, View.slots, hw.vol]
  refine List.map_congr_left fun k hk => ?_
  exact hw.slot (fun x hx => hlists.chain.inRange hx) (List.mem_range.mp hk)

/-- The chain of a directory. -/
theorem store_chain {xs : List Nat} (h : w.Layout ch D T) (hw : t.toStore.Shows w)
    (hd : ⟨a, l⟩ ∈ D) (hx : t.toStore.Chain a xs) : xs = ch a :=
  Links.Chain.unique (fun _ hk => hw.sound.not_eoc hk) hx (hw.chain (h.lists hd).chain)

theorem opens_iff (h : w.Layout ch D T) (ht : t.Ready) (hw : t.toStore.Shows w) (path : CStr) :
    t.Opens path ↔ Admits w ch D path true ∧ (resolveParent w.vol D path).1 ≠ 0 := by
  have hstat := h.answers_stat ht hw path
  have hpar := h.answers_parent ht hw path
  constructor
  · rintro ⟨hm, hro, ⟨i, hi, hc⟩, hfile, hparent⟩
    rw [hw.fds] at hc
    refine ⟨⟨hw.mounted ▸ hm, fun _ => hw.readonly ▸ hro, View.exists_freeFd hi hc, ?_, fun _ => rfl⟩,
      hparent _ hpar⟩
    exact fun p hp => hfile p (hp ▸ hstat)
  · rintro ⟨ha, hne⟩
    obtain ⟨k, hk⟩ := ha.room
    refine ⟨hw.mounted ▸ ha.mounted, hw.readonly ▸ ha.writable rfl,
      ⟨k, View.freeFd_lt hk, hw.fds ▸ View.freeFd_closed hk⟩, fun p hp => ?_, fun r hr => ?_⟩
    · exact ha.file p (hstat.det hp)
    · rw [← hpar.det hr]
      exact hne

theorem slotsFit_iff (h : w.Layout ch D T) (ht : t.Ready) (hw : t.toStore.Shows w)
    (hd : ⟨(resolveParent w.vol D path).1, l⟩ ∈ D) :
    t.SlotsFit path ↔
      RoomFor l.slots w.vol.perCluster (lfnCount (resolveParent w.vol D path).2 + 1) := by
  have hpar := h.answers_parent ht hw path
  have hslots := h.store_slots hw hd
  have hv : t.vol = w.vol := hw.vol
  refine ⟨fun hf => ?_, fun hf r xs hr hx => ?_⟩
  · rw [← hslots, ← congrArg Vol.perCluster hv]
    exact hf _ _ hpar (hw.chain (h.lists hd).chain)
  · obtain rfl := hpar.det hr
    rw [h.store_chain hw hd hx, hslots, hv]
    exact hf

theorem slotsFit (h : w.Layout ch D T) (ht : t.Ready) (hw : t.toStore.Shows w)
    (hfit : Fits t path) (ha : Admits w ch D path true) (hno : statPath w.vol ch D path = none) :
    w.SlotsFit D path := by
  intro h2 l hd
  refine (h.slotsFit_iff ht hw hd).mp (hfit ?_ (hno ▸ h.answers_stat ht hw path) ?_)
  · exact (h.opens_iff ht hw path).mpr ⟨ha, h.start_ne_zero hd⟩
  · rw [freeClusters_eq hw]
    exact h2

end View.Layout

/-- Every smooth run on a fresh descriptor is a run of a byte array. -/
theorem smooth_likeBytes {s : Drv} (hs : s.Ready) (hc : s.Consistent) {calls : List FileCall}
    (hfit : Fits s path) (hsm : SmoothRun (s.vol.secPerClus * 512) ByteFile.empty true calls) :
    LikeBytes s path calls := by
  obtain ⟨w, hw, ch, D, h⟩ := hc
  have hopen : Holds (fat32Open path true >>= Pure.pure) (fun fd w' => 0 ≤ fd →
      ∃ k ch' S n, fd = (n : Nat) ∧ n < 16 ∧ w'.vol = w.vol ∧
        StreamAt w' ch' k S n (1 + w'.freeCount) ByteFile.empty true) w := by
    apply Holds.fat32Open_stream h (h.slotsFit hs hw hfit)
    · intro err w' _
      refine Holds.pure fun h0 => ?_
      have := err.code_neg
      omega
    · intro fd k w' ch' S hlt hst hv _
      exact Holds.pure fun _ => ⟨k, ch', S, fd, rfl, hlt, hv, hst⟩
  rw [bind_pure] at hopen
  refine (hopen.wp hs hw).mono ?_
  rintro fd s' ⟨hs', w', hw', hfd⟩ h0 hcap h32
  obtain ⟨k, ch', S, n, rfl, hlt, hv, hst⟩ := hfd h0
  have hfree : s'.freeClusters = w'.freeCount := by
    unfold Drv.freeClusters
    rw [hw'.view]
  rw [hw.vol, ← hv] at hsm hcap
  rw [hfree] at hcap
  have hrun : Holds (runCalls n calls >>= Pure.pure) (fun answers _ =>
      answers = (ByteFile.empty.replies calls).map answerOf) w' :=
    Holds.runCalls hst hlt hsm hcap h32 fun _ => Holds.pure rfl
  rw [bind_pure] at hrun
  refine (hrun.wp hs' hw').mono ?_
  rintro answers s'' ⟨-, -, -, heq⟩
  exact heq

/-- Two clusters of `n` zeros, ones over the first of them, and then the byte at
the cursor, which is a zero. -/
def overwriteThenRead (n : Nat) : List FileCall :=
  [.write (List.replicate (2 * n) 0), .seek 0, .write (List.replicate n 1), .read 1]

theorem bytes_overwrite (n : Nat) :
    (((ByteFile.empty.write (List.replicate (2 * n) 0)).seek 0).write
      (List.replicate n 1)).bytes = List.replicate n 1 ++ List.replicate n 0 := by
  have hsub : 2 * n - n = n := by omega
  simp [ByteFile.write, ByteFile.seek, ByteFile.empty, hsub]

theorem pos_overwrite (n : Nat) :
    (((ByteFile.empty.write (List.replicate (2 * n) 0)).seek 0).write
      (List.replicate n 1)).pos = n := by
  rw [ByteFile.pos_write, ByteFile.pos_seek _ _ (Nat.zero_le _), List.length_replicate,
    Nat.zero_add]

/-- On every fresh stream with room for two clusters the byte array and the
driver part ways there. -/
theorem Holds.overwriteThenRead (h : StreamAt w ch a S fd cap ByteFile.empty true)
    (hlt : fd < 16) (hcap : 2 ≤ cap) :
    Holds (Fat32.runCalls fd (overwriteThenRead (w.vol.secPerClus * 512)))
      (fun answers _ => answers ≠ (ByteFile.empty.replies
        (overwriteThenRead (w.vol.secPerClus * 512))).map answerOf) w := by
  refine Holds.of_sound fun n hs => ?_
  have hlo := hs.spc_pos
  have hhi := hs.spc_le
  have hroom := Nat.mul_le_mul_right (w.vol.secPerClus * 512) hcap
  have hbytes := bytes_overwrite (w.vol.secPerClus * 512)
  have hpos := pos_overwrite (w.vol.secPerClus * 512)
  unfold Fat32.overwriteThenRead
  generalize hcs : w.vol.secPerClus * 512 = cs at *
  have hlo' : 512 ≤ cs := by omega
  have hhi' : cs ≤ 65536 := by omega
  simp only [Fat32.runCalls, ByteFile.replies, List.map_cons, List.map_nil]
  have hlen₁ : (ByteFile.empty.write (List.replicate (2 * cs) 0)).bytes.length = 2 * cs := by
    simp [ByteFile.empty]
  apply Holds.runCall (.write (List.replicate (2 * cs) 0)) h hlt
  · refine ⟨by rw [List.length_replicate]; omega, fun hat => absurd hat.2 (Nat.lt_irrefl 0)⟩
  · rw [hcs]
    simp only [ByteFile.step, hlen₁]
    omega
  · simp only [ByteFile.step, hlen₁]
    omega
  intro w₁ ch₁ h₁ hv₁
  rw [← hv₁] at hcs
  simp only [bind_assoc, pure_bind]
  apply Holds.runCall (.seek 0) h₁ hlt
  · exact fun hat => absurd hat.2.2 (Nat.lt_irrefl 0)
  · rw [hcs]
    simp only [ByteFile.step, ByteFile.bytes_seek, hlen₁]
    omega
  · simp only [ByteFile.step, ByteFile.bytes_seek, hlen₁]
    omega
  intro w₂ ch₂ h₂ hv₂
  rw [← hv₂] at hcs
  apply Holds.runCall (.write (List.replicate cs 1)) h₂ hlt
  · refine ⟨by rw [List.length_replicate]; omega, fun hat => absurd hat.2 ?_⟩
    simp only [ByteFile.step]
    rw [ByteFile.pos_seek _ _ (Nat.zero_le _)]
    exact Nat.lt_irrefl 0
  · rw [hcs]
    simp only [ByteFile.step, hbytes, List.length_append, List.length_replicate]
    omega
  · simp only [ByteFile.step, hbytes, List.length_append, List.length_replicate]
    omega
  intro w₃ ch₃ h₃ hv₃
  rw [← hv₃] at hcs
  have hlast : lastWrote (((ByteFile.empty.write (List.replicate (2 * cs) 0))).seek 0)
      (lastWrote (ByteFile.empty.write (List.replicate (2 * cs) 0))
        (lastWrote ByteFile.empty true (.write (List.replicate (2 * cs) 0))) (.seek 0))
      (.write (List.replicate cs 1)) = true := by
    rw [lastWrote, if_neg]
    intro hnil
    have := congrArg List.length hnil
    rw [List.length_replicate, List.length_nil] at this
    omega
  simp only [ByteFile.step] at h₃ ⊢
  rw [hlast] at h₃
  apply Holds.read_behind h₃ hlt
  · rw [hcs]
    exact ⟨by rw [hpos, Nat.mod_self], by omega⟩
  · rw [hpos, hbytes, List.length_append, List.length_replicate, List.length_replicate]
    omega
  intro w₄
  apply Holds.pure
  rw [hcs, hpos, Nat.sub_self, hbytes]
  intro heq
  simp only [List.cons.injEq, true_and, and_true, answerOf, Prod.mk.injEq] at heq
  have hone := heq.2
  rw [ByteFile.peek, hpos, hbytes, List.drop_left' (List.length_replicate ..)] at hone
  obtain ⟨m, rfl⟩ : ∃ m, cs = m + 1 := ⟨cs - 1, by omega⟩
  simp [List.replicate_succ] at hone

theorem freeCount_fresh : (fresh 4).toStore.view.freeCount = 3 := by
  have hb := fresh_blank (n := 4) (by omega) (by omega)
  have hfat : ∀ i, i < 4 → (fresh 4).toStore.view.fat (i + 2) = if i = 0 then 0x0FFFFFFF else 0 := by
    intro i hi
    have hr : (fresh 4).vol.InRange (i + 2) := ⟨by omega, by simp [fresh, freshVol]; omega⟩
    change (if (fresh 4).vol.InRange (i + 2) then (fresh 4).toStore.fat (i + 2) else 0) = _
    rw [if_pos hr, hb.fat_eq hr]
    by_cases h0 : i = 0
    · rw [if_pos (by omega), if_pos h0]
    · rw [if_neg (by omega), if_neg h0]
  have hvol : (fresh 4).toStore.view.vol.totalClusters = 4 := rfl
  unfold View.freeCount
  rw [hvol, List.countP_congr (q := fun i => decide (i ≠ 0))]
  · decide
  · intro i hi
    rw [List.mem_range] at hi
    rw [hfat i hi]
    by_cases h0 : i = 0 <;> simp [h0]

theorem fresh_layout : (fresh 4).toStore.view.Layout (fun _ => [2]) [⟨2, Listing.blank 128⟩] [] :=
  (fresh_blank (n := 4) (by omega) (by omega)).empty.layout

theorem fresh_shows : (fresh 4).toStore.Shows (fresh 4).toStore.view :=
  (fresh_blank (by omega) (by omega)).shows

theorem resolveParent_fresh :
    resolveParent (fresh 4).toStore.view.vol [⟨2, Listing.blank 128⟩] [0x2F, 0x41] = (2, [0x41]) :=
  resolveParent_single (by decide) (by decide) (by simp)

theorem statPath_fresh : statPath (fresh 4).toStore.view.vol (fun _ => [2])
    [⟨2, Listing.blank 128⟩] [0x2F, 0x41] = none := by
  rw [statPath, if_neg (by decide), resolveParent_fresh]
  rfl

theorem slotsFit_fresh : (fresh 4).SlotsFit [0x2F, 0x41] := by
  intro r xs hr _
  have hpar := fresh_layout.answers_parent (fresh_ready (by omega)) fresh_shows [0x2F, 0x41]
  rw [← hpar.det hr, resolveParent_fresh]
  exact roomFor_of_le (by decide)

theorem fits_fresh : Fits (fresh 4) [0x2F, 0x41] := fun _ _ _ => slotsFit_fresh

/-- Write, go back and read on a fresh volume. -/
theorem smooth_likeBytes_fresh :
    LikeBytes (fresh 4) [0x2F, 0x41] [.write [1, 2, 3], .seek 1, .read 2] :=
  smooth_likeBytes (fresh_ready (by omega)) ⟨_, fresh_shows, _, _, fresh_layout⟩ fits_fresh (by
    have hcs : (fresh 4).vol.secPerClus * 512 = 4096 := rfl
    simp [hcs, SmoothRun, Smooth, AtBoundary, ByteFile.step, ByteFile.write, ByteFile.seek,
      ByteFile.peek, ByteFile.empty])

/-- Reading on where a write has ended does not read on: after a file of two
clusters got its first one overwritten, the next byte is the one just written. -/
theorem stream_differs : (fresh 4).Ready ∧ (fresh 4).Consistent ∧ Fits (fresh 4) [0x2F, 0x41] ∧
    ¬ LikeBytes (fresh 4) [0x2F, 0x41] (overwriteThenRead 4096) := by
  have hs : (fresh 4).Ready := fresh_ready (by omega)
  refine ⟨hs, ⟨_, fresh_shows, _, _, fresh_layout⟩, fits_fresh, fun hlike => ?_⟩
  have hopen : Holds (fat32Open [0x2F, 0x41] true >>= Pure.pure) (fun fd w' => 0 ≤ fd ∧
      ∃ k ch' S n, fd = (n : Nat) ∧ n < 16 ∧ w'.vol = (fresh 4).vol ∧ 1 ≤ w'.freeCount ∧
        StreamAt w' ch' k S n (1 + w'.freeCount) ByteFile.empty true)
      (fresh 4).toStore.view := by
    apply Holds.fat32Open_stream fresh_layout
      (fresh_layout.slotsFit hs fresh_shows fits_fresh)
    · intro err w' hno
      have hle := hno ⟨rfl, fun _ => rfl, View.freeFd_ne_none fun _ => rfl,
        fun p hp => (by rw [statPath_fresh] at hp; cases hp), fun _ => rfl⟩
        (by rw [resolveParent_fresh]; decide)
      rw [freeCount_fresh] at hle
      omega
    · intro fd k w' ch' S hlt hst hv hcount
      have hfree := hcount statPath_fresh
      rw [freeCount_fresh] at hfree
      exact Holds.pure ⟨by omega, k, ch', S, fd, rfl, hlt, hv, by omega, hst⟩
  rw [bind_pure] at hopen
  obtain ⟨fd, s', hrun, hs', w', hw', h0, k, ch', S, n, rfl, hlt, hv, hfree, hst⟩ :=
    hopen.wp hs fresh_shows
  have hfc : s'.freeClusters = w'.freeCount := by
    unfold Drv.freeClusters
    rw [hw'.view]
  have hcs : w'.vol.secPerClus * 512 = 4096 := by
    rw [hv]
    rfl
  have hlen : (ByteFile.empty.after (overwriteThenRead 4096)).bytes.length = 8192 := by
    have hbytes := bytes_overwrite 4096
    simp only [ByteFile.after, overwriteThenRead, ByteFile.step, ByteFile.bytes_skip, hbytes,
      List.length_append, List.length_replicate]
  have hgood := hlike.of_runs hrun h0 (by
    have hcs' : (fresh 4).vol.secPerClus * 512 = 4096 := rfl
    rw [hlen, hfc, hcs']
    omega) (by omega)
  have hbad := (Holds.overwriteThenRead hst hlt (by omega)).wp hs' hw'
  rw [hcs] at hbad
  obtain ⟨answers, s'', hr, heq⟩ := hgood
  obtain ⟨-, w'', -, hne⟩ := hbad.of_runs hr
  exact hne heq

end Chimaera.Fat32
