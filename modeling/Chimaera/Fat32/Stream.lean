/-
Files as byte streams: what `fat32_write`, `fat32_read` and `fat32_seek` do to
the bytes of a chain and to a descriptor.
-/
import Chimaera.Fat32.Resolve

namespace Chimaera.Fat32

open Prog

section Arith

variable {c p n : Nat}

theorem div_pred_of_mod (h : p % c ≠ 0) : (p - 1) / c = p / c := by
  have hdm := Nat.div_add_mod p c
  rcases Nat.eq_zero_or_pos c with rfl | hc
  · simp
  · have hlt := Nat.mod_lt p hc
    have heq : p - 1 = c * (p / c) + (p % c - 1) := by omega
    have hz : (p % c - 1) / c = 0 := Nat.div_eq_of_lt (by omega)
    rw [heq, Nat.mul_add_div hc, hz, Nat.add_zero]

theorem div_pred_of_dvd (hc : 0 < c) (h : p % c = 0) (hp : 0 < p) :
    (p - 1) / c + 1 = p / c := by
  have hdm := Nat.div_add_mod p c
  obtain ⟨q, hq⟩ : ∃ q, p / c = q + 1 := by
    refine Nat.exists_eq_succ_of_ne_zero fun h0 => ?_
    rw [h0] at hdm
    omega
  have heq : p - 1 = c * q + (c - 1) := by
    rw [hq, Nat.mul_succ] at hdm
    omega
  have hz : (c - 1) / c = 0 := Nat.div_eq_of_lt (by omega)
  rw [heq, Nat.mul_add_div hc, hz, hq, Nat.add_zero]

/-- A byte is told by its sector and its place in the sector. -/
theorem div_mul_512 (s p : Nat) : p / (s * 512) = p / 512 / s := by
  rw [Nat.mul_comm, Nat.div_div_eq_div_mul]

theorem mod_mul_512 (s p : Nat) : p % (s * 512) / 512 = p / 512 % s := by
  rw [Nat.mul_comm]
  exact Nat.mod_mul_right_div_self p 512 s

theorem mod_mod_512 (s p : Nat) : p % (s * 512) % 512 = p % 512 := Nat.mod_mul_left_mod p s 512

end Arith

namespace View

/-- Byte `p` of the chain `xs`. -/
def fileByte (w : View) (xs : List Nat) (p : Nat) : UInt8 :=
  (w.sec (xs.getD (p / 512 / w.vol.secPerClus) 0) (p / 512 % w.vol.secPerClus)).byte (p % 512)

variable {w w' : View} {xs ys : List Nat} {p q k : Nat}

theorem fileByte_congr (hv : w'.vol = w.vol)
    (hsec : w'.sec (xs.getD (p / 512 / w.vol.secPerClus) 0) =
      w.sec (xs.getD (p / 512 / w.vol.secPerClus) 0)) :
    w'.fileByte xs p = w.fileByte xs p := by
  unfold fileByte
  rw [hv, hsec]

theorem sector_lt (hp : p < xs.length * (w.vol.secPerClus * 512)) :
    p / 512 / w.vol.secPerClus < xs.length := by
  rw [← div_mul_512]
  exact Nat.div_lt_of_lt_mul (by rw [Nat.mul_comm]; exact hp)

theorem sector_mem (hp : p < xs.length * (w.vol.secPerClus * 512)) :
    xs.getD (p / 512 / w.vol.secPerClus) 0 ∈ xs := by
  rw [List.getD_eq_getElem _ _ (sector_lt hp)]
  exact List.getElem_mem _

/-- The bytes of a chain depend on its clusters only. -/
theorem fileByte_congr_of_sec (hv : w'.vol = w.vol) (hsec : ∀ x ∈ xs, w'.sec x = w.sec x)
    (hp : p < xs.length * (w.vol.secPerClus * 512)) : w'.fileByte xs p = w.fileByte xs p :=
  fileByte_congr hv (hsec _ (sector_mem hp))

theorem fileByte_append (hp : p < xs.length * (w.vol.secPerClus * 512)) :
    w.fileByte (xs ++ ys) p = w.fileByte xs p := by
  unfold fileByte
  rw [List.getD_append _ _ _ _ (sector_lt hp)]

/-- The bytes of a zeroed cluster at the end of a chain. -/
theorem fileByte_zero (h : ∀ j, w.sec k j = Block.zero 512)
    (hp : xs.length * (w.vol.secPerClus * 512) ≤ p)
    (hp' : p < (xs ++ [k]).length * (w.vol.secPerClus * 512)) :
    w.fileByte (xs ++ [k]) p = 0 := by
  rw [List.length_append, List.length_singleton, Nat.succ_mul] at hp'
  have hidx : p / 512 / w.vol.secPerClus = xs.length := by
    rw [← div_mul_512]
    exact Nat.div_eq_of_lt_le hp (by rw [Nat.succ_mul]; exact hp')
  unfold fileByte
  rw [hidx, List.getD_append_right _ _ _ _ (Nat.le_refl _), Nat.sub_self]
  simp [h]

/-- Overwrite `bs` at byte `p`, within one sector. -/
def patchByte (w : View) (xs : List Nat) (p : Nat) (bs : List UInt8) : View :=
  w.setSec (xs.getD (p / 512 / w.vol.secPerClus) 0) (p / 512 % w.vol.secPerClus)
    ((w.sec (xs.getD (p / 512 / w.vol.secPerClus) 0) (p / 512 % w.vol.secPerClus)).patch
      (p % 512) bs)

theorem fileByte_patchByte {n : Nat} (hs : w.vol.Sound n) (hnd : xs.Nodup) {bs : List UInt8}
    (hlen : bs.length ≤ 512 - p % 512)
    (hp : p < xs.length * (w.vol.secPerClus * 512))
    (hq : q < xs.length * (w.vol.secPerClus * 512)) :
    (w.patchByte xs p bs).fileByte xs q =
      if p ≤ q ∧ q < p + bs.length then bs.getD (q - p) 0 else w.fileByte xs q := by
  have hspc := hs.spc_pos
  unfold fileByte patchByte
  simp only [vol_setSec, sec_setSec, Function.update_apply]
  by_cases hsec : q / 512 = p / 512
  · rw [hsec, if_pos rfl, Function.update_self, Block.byte_patch _ _ _ (by omega)]
    by_cases hin : p ≤ q ∧ q < p + bs.length
    · rw [if_pos (by omega), if_pos hin]
      congr 1
      omega
    · rw [if_neg (by omega), if_neg hin]
  · rw [if_neg (c := p ≤ q ∧ q < p + bs.length) (by omega)]
    split
    · next hk =>
        rw [Function.update_of_ne, hk]
        intro hj
        rw [List.getD_eq_getElem _ _ (sector_lt hq),
          List.getD_eq_getElem _ _ (sector_lt hp)] at hk
        have hdiv := (hnd.getElem_inj_iff).mp hk
        have h₁ := Nat.div_add_mod (q / 512) w.vol.secPerClus
        have h₂ := Nat.div_add_mod (p / 512) w.vol.secPerClus
        rw [hdiv, hj] at h₁
        exact hsec (h₁.symm.trans h₂)
    · rfl

end View

/-- A descriptor after `m` more bytes were written through it. -/
def Fd.wrote (f : Fd) (m cur : Nat) : Fd :=
  { f with pos := f.pos + m, size := max f.size (f.pos + m), curCluster := cur }

/-- The descriptor's cluster is the one of the byte before the cursor, as
`fat32_write` expects it. -/
def Fd.Lazy (f : Fd) (v : Vol) (xs : List Nat) : Prop :=
  f.curCluster = xs.getD ((f.pos - 1) / (v.secPerClus * 512)) 0

/-- The descriptor's cluster is the one of the byte at the cursor, as
`fat32_read` expects it. -/
def Fd.Eager (f : Fd) (v : Vol) (xs : List Nat) : Prop :=
  f.pos < xs.length * (v.secPerClus * 512) →
    f.curCluster = xs.getD (f.pos / (v.secPerClus * 512)) 0

/-- The cursor is within the file, and the file within its chain. -/
structure Fd.Within (f : Fd) (v : Vol) (xs : List Nat) : Prop where
  pos_le : f.pos ≤ f.size
  size_le : f.size ≤ xs.length * (v.secPerClus * 512)

/-- The cursor is in a cluster of the chain or right behind it, and the file is
within the chain. -/
structure Fd.Inside (f : Fd) (v : Vol) (xs : List Nat) : Prop where
  cursor : ∃ q, q < xs.length ∧ f.curCluster = xs.getD q 0 ∧
    f.pos ≤ (q + 1) * (v.secPerClus * 512)
  size_le : f.size ≤ xs.length * (v.secPerClus * 512)
  size_lt : f.size < 4294967296

/-- A change within the chain of `a`, which may have become longer. -/
structure Touched (w : View) (ch : Nat → List Nat) (a : Nat) (S : List Nat) (w' : View)
    (ch' : Nat → List Nat) : Prop where
  chains : w'.Chains ch' (a :: S)
  other : ∀ b, b ≠ a → ch' b = ch b
  ext : ∃ ys, ch' a = ch a ++ ys
  vars : w.Evolves w'
  sec : ∀ k, k ∉ ch' a → w'.sec k = w.sec k
  fat : ∀ k, k ∉ ch' a → w'.fat k = w.fat k
  free : (ch' a).length + w'.freeCount = (ch a).length + w.freeCount

namespace Touched

variable {w w' : View} {ch ch' : Nat → List Nat} {a fd n k j : Nat} {S : List Nat}

theorem refl (h : w.Chains ch (a :: S)) : Touched w ch a S w ch :=
  ⟨h, fun _ _ => rfl, ⟨[], by simp⟩, View.Evolves.refl, fun _ _ => rfl, fun _ _ => rfl,
    rfl⟩

theorem vol (h : Touched w ch a S w' ch') : w'.vol = w.vol := h.vars.vol

theorem inRange (h : Touched w ch a S w' ch') {x : Nat} (hx : x ∈ ch' a) : w.vol.InRange x :=
  h.vol ▸ h.chains.inRange List.mem_cons_self hx

theorem length_le (h : Touched w ch a S w' ch') : (ch a).length ≤ (ch' a).length := by
  obtain ⟨ys, hys⟩ := h.ext
  rw [hys, List.length_append]
  omega

theorem setFd (h : Touched w ch a S w' ch') (f : Fd) : Touched w ch a S (w'.setFd fd f) ch' :=
  ⟨h.chains.of_fat rfl rfl, h.other, h.ext, h.vars.trans View.Evolves.setFd,
    h.sec, h.fat, h.free⟩

theorem setSec (h : Touched w ch a S w' ch') (hk : k ∈ ch' a) (b : Sector) :
    Touched w ch a S (w'.setSec k j b) ch' := by
  refine ⟨h.chains.of_fat rfl rfl, h.other, h.ext,
    h.vars.trans View.Evolves.setSec, fun x hx => ?_, h.fat, h.free⟩
  rw [View.sec_setSec, Function.update_of_ne, h.sec x hx]
  rintro rfl
  exact hx hk

theorem not_mem (h : Touched w ch a S w' ch') (hs : w.vol.Sound n) (h0 : w'.fat k = 0) :
    k ∉ ch' a := by
  have := h.chains.not_mem_of_free (h.vol ▸ hs) h0
  rw [List.flatMap_cons, List.mem_append, not_or] at this
  exact this.1

theorem last_mem (h : Touched w ch a S w' ch') : (ch' a).getLastD 0 ∈ ch' a := by
  rw [eq_append_getLastD (h.chains.chain a List.mem_cons_self).2 0]
  simp

/-- A free cluster is hung behind the chain. -/
theorem extend (h : Touched w ch a S w' ch') (hs : w.vol.Sound n) (hk : w.vol.InRange k)
    (h0 : w'.fat k = 0) : Touched w ch a S (w'.alloc ((ch' a).getLastD 0) k)
      (Function.update ch' a (ch' a ++ [k])) := by
  have hv := h.vol
  have hs' : w'.vol.Sound n := hv ▸ hs
  have hch := h.chains.extend hs' (hv ▸ hk) h0
  obtain ⟨ys, hys⟩ := h.ext
  have hk' := h.not_mem hs h0
  have hne : (ch' a).getLastD 0 ≠ k := fun heq => hk' (heq ▸ h.last_mem)
  refine ⟨hch, ?_, ?_, ?_, ?_, ?_, ?_⟩
  · intro b hb
    rw [Function.update_of_ne hb]
    exact h.other b hb
  · exact ⟨ys ++ [k], by rw [Function.update_self, hys, List.append_assoc]⟩
  · exact h.vars.trans (View.Evolves.alloc hs' (hv ▸ hk) hne)
  · intro x hx
    rw [Function.update_self, List.mem_append, not_or, List.mem_singleton] at hx
    rw [View.sec_alloc, Function.update_of_ne hx.2]
    exact h.sec x hx.1
  · intro x hx
    rw [Function.update_self, List.mem_append, not_or, List.mem_singleton] at hx
    rw [View.fat_alloc hne, if_neg hx.2, if_neg]
    · exact h.fat x hx.1
    · rintro ⟨-, rfl⟩
      exact hx.1 h.last_mem
  · rw [Function.update_self, List.length_append, List.length_singleton]
    have := h.free
    have := View.freeCount_alloc hne (hv ▸ hk) h0 fun _ =>
      (h.chains.fat_ne hs' List.mem_cons_self h.last_mem).1
    omega

end Touched

/-- The volume after the first `m` bytes of `buf` were written through the
descriptor `fd`, which was `f` and is open on the chain of `a`. -/
structure Written (w : View) (ch : Nat → List Nat) (a : Nat) (S : List Nat) (fd : Nat)
    (f : Fd) (buf : List UInt8) (m : Nat) (w' : View) (ch' : Nat → List Nat) : Prop extends
    Touched w ch a S w' ch' where
  fds : w'.fds = Function.update w.fds fd
    (f.wrote m ((ch' a).getD ((f.pos + m - 1) / (w.vol.secPerClus * 512)) 0))
  size_le : max f.size (f.pos + m) ≤ (ch' a).length * (w.vol.secPerClus * 512)
  bytes : ∀ q, q < (ch' a).length * (w.vol.secPerClus * 512) → w'.fileByte (ch' a) q =
    if f.pos ≤ q ∧ q < f.pos + m then buf.getD (q - f.pos) 0
    else if q < (ch a).length * (w.vol.secPerClus * 512) then w.fileByte (ch a) q else 0

namespace Written

variable {w w' : View} {ch ch' : Nat → List Nat} {a fd m n k : Nat} {S : List Nat} {f : Fd}
  {buf : List UInt8}

theorem refl (h : w.Chains ch (a :: S)) (hf : w.fds fd = f) (hw : f.Within w.vol (ch a))
    (hl : f.Lazy w.vol (ch a)) : Written w ch a S fd f buf 0 w ch := by
  refine ⟨Touched.refl h, ?_, ?_, ?_⟩
  · have hsame : f.wrote 0 ((ch a).getD ((f.pos + 0 - 1) / (w.vol.secPerClus * 512)) 0) = f := by
      unfold Fd.Lazy at hl
      have hmax := Nat.max_eq_left hw.pos_le
      rw [Fd.wrote, Nat.add_zero, hmax, ← hl]
    rw [hsame, ← hf, Function.update_eq_self]
  · have := hw.pos_le
    have := hw.size_le
    omega
  · intro q hq
    rw [if_neg (by omega), if_pos hq]

/-- A free cluster is hung behind the chain when the cursor reached its end. -/
theorem extend (h : Written w ch a S fd f buf m w' ch') (hs : w.vol.Sound n)
    (hk : w.vol.InRange k) (h0 : w'.fat k = 0) (hpos : 0 < f.pos + m) :
    Written w ch a S fd f buf m (w'.alloc ((ch' a).getLastD 0) k)
      (Function.update ch' a (ch' a ++ [k])) := by
  have hv := h.vol
  have hk' := h.not_mem hs h0
  have hc : 0 < w.vol.secPerClus * 512 := by
    have := hs.spc_pos
    omega
  have hsize := h.size_le
  have hidx : (f.pos + m - 1) / (w.vol.secPerClus * 512) < (ch' a).length := by
    refine Nat.div_lt_of_lt_mul ?_
    rw [Nat.mul_comm]
    omega
  have hmul := Nat.mul_le_mul_right (w.vol.secPerClus * 512) h.length_le
  refine ⟨h.toTouched.extend hs hk h0, ?_, ?_, ?_⟩
  · rw [View.fds_alloc, Function.update_self, List.getD_append _ _ _ _ hidx]
    exact h.fds
  · rw [Function.update_self, List.length_append, List.length_singleton, Nat.succ_mul]
    omega
  · intro q hq
    rw [Function.update_self] at hq ⊢
    have hvol : (w'.alloc ((ch' a).getLastD 0) k).vol = w'.vol := View.vol_alloc
    by_cases hlt : q < (ch' a).length * (w.vol.secPerClus * 512)
    · rw [View.fileByte_append (by rw [hvol, hv]; exact hlt),
        View.fileByte_congr_of_sec hvol _ (by rw [hv]; exact hlt)]
      · exact h.bytes q hlt
      · intro x hx
        rw [View.sec_alloc, Function.update_of_ne]
        rintro rfl
        exact hk' hx
    · rw [View.fileByte_zero, if_neg (by omega), if_neg (by omega)]
      · intro j
        rw [View.sec_alloc, Function.update_self]
      · rw [hvol, hv]
        omega
      · rw [hvol, hv]
        exact hq

/-- A chunk of the buffer is written at the cursor. -/
theorem chunk {b : Nat} (h : Written w ch a S fd f buf m w' ch') (hs : w.vol.Sound n)
    (hpos : f.pos + m < (ch' a).length * (w.vol.secPerClus * 512)) (hb : 1 ≤ b)
    (hle : b ≤ 512 - (f.pos + m) % 512) (hbuf : m + b ≤ buf.length) :
    Written w ch a S fd f buf (m + b)
      ((w'.patchByte (ch' a) (f.pos + m) ((buf.drop m).take b)).setFd fd
        (f.wrote (m + b) ((ch' a).getD ((f.pos + m) / (w.vol.secPerClus * 512)) 0))) ch' := by
  have hv := h.vol
  have hs' : w'.vol.Sound n := hv ▸ hs
  have hspc := hs.spc_pos
  have hlen : ((buf.drop m).take b).length = b := by
    rw [List.length_take, List.length_drop]
    omega
  have hnd : (ch' a).Nodup := (h.chains.chain a List.mem_cons_self).1.nodup hs'
  have hidx : (f.pos + (m + b) - 1) / (w.vol.secPerClus * 512) =
      (f.pos + m) / (w.vol.secPerClus * 512) := by
    rw [div_mul_512, div_mul_512]
    congr 1
    omega
  have hpos' : f.pos + m < (ch' a).length * (w'.vol.secPerClus * 512) := by
    rw [hv]
    exact hpos
  refine ⟨(h.toTouched.setSec (View.sector_mem hpos') _).setFd _, ?_, ?_, ?_⟩
  · rw [hidx, View.fds_setFd]
    change Function.update w'.fds fd _ = _
    rw [h.fds, Function.update_idem]
  · have hsize := h.size_le
    have hsec : (f.pos + (m + b) - 1) / (w.vol.secPerClus * 512) < (ch' a).length := by
      rw [hidx]
      exact Nat.div_lt_of_lt_mul (by rw [Nat.mul_comm]; exact hpos)
    have hlt := Nat.lt_mul_of_div_lt hsec (by omega)
    omega
  · intro q hq
    change (w'.patchByte (ch' a) (f.pos + m) ((buf.drop m).take b)).fileByte (ch' a) q = _
    rw [View.fileByte_patchByte hs' hnd (by omega) hpos' (by rw [hv]; exact hq), hlen,
      h.bytes q hq]
    by_cases hin : f.pos + m ≤ q ∧ q < f.pos + m + b
    · rw [if_pos hin, if_pos (by omega), List.getD_eq_getElem?_getD, List.getD_eq_getElem?_getD,
        List.getElem?_take_of_lt (by omega), List.getElem?_drop]
      congr 2
      omega
    · rw [if_neg hin]
      by_cases hold : f.pos ≤ q ∧ q < f.pos + m
      · rw [if_pos hold, if_pos (by omega)]
      · rw [if_neg hold, if_neg (c := f.pos ≤ q ∧ q < f.pos + (m + b)) (by omega)]

end Written

section Write

variable {β : Type} {R : β → View → Prop} {w w' : View} {ch ch' : Nat → List Nat}
  {a fd m n : Nat} {S : List Nat} {f : Fd} {buf : List UInt8}

theorem Store.fdOpen_natCast (c : Store) (h : fd < 16) : c.fdOpen fd = (c.fds fd).isOpen := by
  have h0 : (0 : Int) ≤ fd := by omega
  have h16 : (fd : Int) < 16 := by omega
  simp [Store.fdOpen, h0, h16]

/-- The position of a byte of a chain: its cluster, and its place there. -/
theorem Vol.Sound.byteAt_eq {v : Vol} (hs : v.Sound n) {xs : List Nat}
    (hr : ∀ x ∈ xs, v.InRange x) {p : Nat} (hp : p < xs.length * (v.secPerClus * 512)) :
    u32 (v.clusterToLba (xs.getD (p / (v.secPerClus * 512)) 0) +
      p % (v.secPerClus * 512) / 512) =
      v.secLba (xs.getD (p / 512 / v.secPerClus) 0) (p / 512 % v.secPerClus) := by
  have hlt : p / 512 / v.secPerClus < xs.length := by
    rw [← div_mul_512]
    exact Nat.div_lt_of_lt_mul (by rw [Nat.mul_comm]; exact hp)
  have hk : v.InRange (xs.getD (p / 512 / v.secPerClus) 0) := by
    rw [List.getD_eq_getElem _ _ hlt]
    exact hr _ (List.getElem_mem hlt)
  have hj : p / 512 % v.secPerClus < v.secPerClus := Nat.mod_lt _ hs.spc_pos
  have hsum : v.secLba (xs.getD (p / 512 / v.secPerClus) 0) 0 + p / 512 % v.secPerClus =
      v.secLba (xs.getD (p / 512 / v.secPerClus) 0) (p / 512 % v.secPerClus) := by
    unfold Vol.secLba
    omega
  rw [div_mul_512, mod_mul_512, hs.clusterToLba_eq hk, hsum, hs.u32_secLba hk hj]

/-- One chunk of `fat32_write`, with the cursor within the chain. -/
theorem Holds.writeChunk (h : Written w ch a S fd f buf m w' ch') (hs : w.vol.Sound n)
    (hpos : f.pos + m < (ch' a).length * (w.vol.secPerClus * 512)) (hm : m < buf.length)
    (h32 : f.pos + buf.length < 4294967296) :
    Holds (writeChunk fd buf m w.vol
        (f.wrote m ((ch' a).getD ((f.pos + m) / (w.vol.secPerClus * 512)) 0)))
      (fun d w'' => ∃ b, d = .inl b ∧ m < b ∧ b ≤ buf.length ∧
        Written w ch a S fd f buf b w'' ch') w' := by
  have hv := h.vol
  have hr : ∀ x ∈ ch' a, w.vol.InRange x := fun x hx =>
    hv ▸ h.chains.inRange List.mem_cons_self hx
  have hk := hr _ (View.sector_mem hpos)
  have hj : (f.pos + m) / 512 % w.vol.secPerClus < w.vol.secPerClus := Nat.mod_lt _ hs.spc_pos
  rw [Fat32.writeChunk]
  apply Holds.putFd
  rw [Fd.wrote, hs.clusterSize_eq, hs.byteAt_eq hr hpos]
  refine Holds.secRead (w := w'.setFd fd _) (by rw [View.vol_setFd, hv])
    (by rw [View.vol_setFd, hv]; exact hk) (by rw [View.vol_setFd, hv]; exact hj) ?_
  rw [if_pos rfl]
  refine HoldsAt.update_flush (by rw [View.vol_setFd, hv]; exact hk)
    (by rw [View.vol_setFd, hv]; exact hj) ?_
  simp only [if_true, mod_mod_512]
  apply Holds.putFd
  apply Holds.pure
  have hb : min (512 - (f.pos + m) % 512) (buf.length - m) ≤ 512 - (f.pos + m) % 512 :=
    Nat.min_le_left _ _
  have hb' : min (512 - (f.pos + m) % 512) (buf.length - m) ≤ buf.length - m :=
    Nat.min_le_right _ _
  have hb1 : 1 ≤ min (512 - (f.pos + m) % 512) (buf.length - m) := by omega
  generalize min (512 - (f.pos + m) % 512) (buf.length - m) = b at hb hb' hb1
  have hdone := h.chunk hs hpos hb1 hb (by omega)
  refine ⟨m + b, rfl, by omega, by omega, ?_⟩
  convert hdone using 1
  have hmax : max (max f.size (f.pos + m)) (f.pos + (m + b)) = max f.size (f.pos + (m + b)) := by
    omega
  have hpos' : u32 (f.pos + m + b) = f.pos + (m + b) := by
    rw [u32_of_lt (by omega), Nat.add_assoc]
  rw [hpos', hmax]
  unfold View.patchByte View.setFd View.setSec Fd.wrote
  simp only [hv, Function.update_idem]

theorem Holds.writeNext {xs : List Nat} {q : Nat} (hch : w.Chain a xs) (hq : q < xs.length)
    {g : Nat → Prog Drv β} (hnext : q + 1 < xs.length → Holds (g (xs.getD (q + 1) 0)) R w)
    (hfull : xs.length = q + 1 → w.freeCount = 0 → Holds (g 0) R w)
    (hfree : xs.length = q + 1 → ∀ k, w.vol.InRange k → w.fat k = 0 →
      Holds (g k) R (w.alloc (xs.getLastD 0) k)) :
    Holds (writeNext (xs.getD q 0) >>= g) R w := by
  refine Holds.of_sound fun n hs => ?_
  have hk : w.vol.InRange (xs.getD q 0) := by
    rw [List.getD_eq_getElem _ _ hq]
    exact hch.inRange (List.getElem_mem hq)
  rw [Fat32.writeNext, bind_assoc]
  apply Holds.fatGet hk
  by_cases hlast : q + 1 < xs.length
  · have hin : w.vol.InRange (xs.getD (q + 1) 0) := by
      rw [List.getD_eq_getElem _ _ hlast]
      exact hch.inRange (List.getElem_mem hlast)
    have hlt := hs.not_eoc hin
    have hge := hin.1
    rw [hch.fat_getD hlast, if_neg (by omega), pure_bind]
    exact hnext hlast
  · have hlen : xs.length = q + 1 := by omega
    have hfin := hch.fat_last (List.ne_nil_of_length_pos (by omega))
    rw [getD_eq_getLastD hlen] at hk ⊢
    rw [if_pos (Or.inl hfin)]
    apply Holds.fatAlloc (Or.inr hk)
    · exact fun hall => hfull hlen (View.freeCount_eq_zero.mpr hall)
    · exact fun k hkr h0 _ => hfree hlen k hkr h0

/-- One round of `fat32_write`. -/
theorem Holds.writeStep (h : Written w ch a S fd f buf m w' ch') (hs : w.vol.Sound n)
    (h32 : f.pos + buf.length < 4294967296) :
    Holds (writeStep fd buf m) (fun d w'' => match d with
      | .inl b => m < b ∧ b ≤ buf.length ∧ ∃ ch'', Written w ch a S fd f buf b w'' ch''
      | .inr b => b = m ∧ w'' = w' ∧ (m < buf.length → w'.freeCount = 0 ∧
          f.pos + m = (ch' a).length * (w.vol.secPerClus * 512))) w' := by
  have hv := h.vol
  obtain ⟨hch, hne⟩ := h.chains.chain a List.mem_cons_self
  have hlen := List.length_pos_iff.mpr hne
  have hc : 0 < w.vol.secPerClus * 512 := by
    have := hs.spc_pos
    omega
  have hsize := h.size_le
  rw [Fat32.writeStep]
  apply Holds.getStore
  intro c hcw
  have hf : c.fds fd = f.wrote m
      ((ch' a).getD ((f.pos + m - 1) / (w.vol.secPerClus * 512)) 0) := by
    rw [hcw.fds, h.fds, Function.update_self]
  rw [hf, hcw.vol, hv, hs.clusterSize_eq]
  by_cases hm : buf.length ≤ m
  · rw [if_pos hm]
    exact Holds.pure ⟨rfl, rfl, fun hlt => by omega⟩
  rw [if_neg hm]
  have hchunk : ∀ w₁ ch₁, Written w ch a S fd f buf m w₁ ch₁ →
      f.pos + m < (ch₁ a).length * (w.vol.secPerClus * 512) →
      Holds (Fat32.writeChunk fd buf m w.vol
        (f.wrote m ((ch₁ a).getD ((f.pos + m) / (w.vol.secPerClus * 512)) 0))) (fun d w'' =>
        match d with
        | .inl b => m < b ∧ b ≤ buf.length ∧ ∃ ch'', Written w ch a S fd f buf b w'' ch''
        | .inr b => b = m ∧ w'' = w' ∧ (m < buf.length → w'.freeCount = 0 ∧
            f.pos + m = (ch' a).length * (w.vol.secPerClus * 512))) w₁ := by
    intro w₁ ch₁ h₁ hpos
    refine (Holds.writeChunk h₁ hs hpos (by omega) h32).mono ?_
    rintro d w'' ⟨b, rfl, hlt, hle, hw⟩
    exact ⟨hlt, hle, ch₁, hw⟩
  by_cases hbound : (f.pos + m) % (w.vol.secPerClus * 512) = 0 ∧ 0 < f.pos + m
  · rw [if_pos (by exact hbound)]
    have hidx := div_pred_of_dvd hc hbound.1 hbound.2
    have hmul := Nat.div_mul_cancel (Nat.dvd_of_mod_eq_zero hbound.1)
    have hq : (f.pos + m - 1) / (w.vol.secPerClus * 512) < (ch' a).length :=
      Nat.div_lt_of_lt_mul (by rw [Nat.mul_comm]; omega)
    apply Holds.writeNext hch hq
    · intro hlt
      rw [hidx] at hlt ⊢
      have hin : w'.vol.InRange ((ch' a).getD ((f.pos + m) / (w.vol.secPerClus * 512)) 0) := by
        rw [List.getD_eq_getElem _ _ hlt]
        exact hch.inRange (List.getElem_mem hlt)
      rw [if_neg (by have := hin.1; omega)]
      exact hchunk w' ch' h (by rw [← hmul]; exact Nat.mul_lt_mul_of_pos_right hlt hc)
    · intro hl hfull
      rw [if_pos rfl]
      exact Holds.pure ⟨rfl, rfl, fun _ => ⟨hfull, by rw [hl, hidx, hmul]⟩⟩
    · intro hl k hk h0
      rw [if_neg (by have := hk.1; omega)]
      have hext := h.extend hs (hv ▸ hk) h0 hbound.2
      have hgrown := hchunk _ _ hext
      have hcur : (Function.update ch' a (ch' a ++ [k]) a).getD
          ((f.pos + m) / (w.vol.secPerClus * 512)) 0 = k := by
        rw [Function.update_self, List.getD_append_right _ _ _ _ (by omega), hl, hidx,
          Nat.sub_self]
        rfl
      rw [hcur] at hgrown
      refine hgrown ?_
      rw [Function.update_self, List.length_append, List.length_singleton, hl, hidx, Nat.succ_mul,
        hmul]
      omega
  · rw [if_neg (by exact hbound)]
    have hidx : (f.pos + m - 1) / (w.vol.secPerClus * 512) =
        (f.pos + m) / (w.vol.secPerClus * 512) := by
      by_cases h0 : f.pos + m = 0
      · rw [h0]
      · exact div_pred_of_mod fun hmod => hbound ⟨hmod, by omega⟩
    rw [hidx]
    refine hchunk w' ch' h ?_
    refine Nat.lt_of_le_of_ne (by omega) fun heq => hbound ⟨?_, ?_⟩
    · rw [heq]
      exact Nat.mul_mod_left _ _
    · rw [heq]
      exact Nat.mul_pos hlen hc

/-- `fat32_write` at the cursor of a descriptor that is open for writing: it
stops early only when the disk is full. -/
theorem Holds.fat32Write (h : w.Chains ch (a :: S)) (hlt : fd < 16) (hf : w.fds fd = f)
    (hopen : f.isOpen = true) (hwr : f.write = true) (hin : f.Within w.vol (ch a))
    (hl : f.Lazy w.vol (ch a)) (h32 : f.pos + buf.length < 4294967296)
    {g : Int → Prog Drv β} (hg : ∀ m w' ch', m ≤ buf.length →
      (m < buf.length → w'.freeCount = 0 ∧
        f.pos + m = (ch' a).length * (w.vol.secPerClus * 512)) →
      Written w ch a S fd f buf m w' ch' → Holds (g (i32 m)) R w') :
    Holds (fat32Write fd buf >>= g) R w := by
  refine Holds.of_sound fun n hs => ?_
  rw [Fat32.fat32Write, bind_assoc]
  apply Holds.getStore
  intro c hc
  rw [c.fdOpen_natCast hlt, Int.toNat_natCast, hc.fds, hf, hopen, hwr]
  simp only [Bool.not_true, Bool.or_self, Bool.false_eq_true, if_false, bind_assoc, pure_bind]
  apply Holds.bind
  refine Holds.loop_of_measure (fun m w' => m ≤ buf.length ∧
    ∃ ch', Written w ch a S fd f buf m w' ch') (fun m _ => buf.length - m) ?_
    ⟨Nat.zero_le _, ch, Written.refl h hf hin hl⟩
  rintro m w' ⟨hm, ch', hw⟩
  refine (Holds.writeStep hw hs h32).mono ?_
  rintro (b | b) w'' hd
  · exact ⟨⟨hd.2.1, hd.2.2⟩, by omega⟩
  · obtain ⟨rfl, rfl, hfull⟩ := hd
    exact hg b w'' ch' hm hfull hw

/-- The descriptor after a write that is not followed byte by byte. -/
structure Fd.Moved (f f' : Fd) (v : Vol) (xs : List Nat) : Prop where
  inside : f'.Inside v xs
  same : { f' with size := f.size, pos := f.pos, curCluster := f.curCluster } = f

/-- A chunk goes into cluster `q` of the chain. -/
theorem Holds.writeChunk_inside {g : Fd} {q : Nat} (ht : Touched w ch a S w' ch')
    (hfds : ∃ f₁, w'.fds = Function.update w.fds fd f₁) (hs : w.vol.Sound n)
    (hm : m < buf.length) (hq : q < (ch' a).length) (hcur : g.curCluster = (ch' a).getD q 0)
    (hpos : g.pos < (q + 1) * (w.vol.secPerClus * 512))
    (hsize : g.size ≤ (ch' a).length * (w.vol.secPerClus * 512)) (hlt : g.size < 4294967296)
    (hsame : { g with size := f.size, pos := f.pos, curCluster := f.curCluster } = f) :
    Holds (Fat32.writeChunk fd buf m w.vol g) (fun d w'' => ∃ b f', d = .inl b ∧ m < b ∧
      b ≤ buf.length ∧ Touched w ch a S w'' ch' ∧ w''.fds = Function.update w.fds fd f' ∧
      f.Moved f' w.vol (ch' a)) w' := by
  have hv := ht.vol
  have hkm : (ch' a).getD q 0 ∈ ch' a := by
    rw [List.getD_eq_getElem _ _ hq]
    exact List.getElem_mem hq
  have hk := ht.inRange hkm
  have hj : g.pos / 512 % w.vol.secPerClus < w.vol.secPerClus := Nat.mod_lt _ hs.spc_pos
  have hlba : u32 (w.vol.clusterToLba ((ch' a).getD q 0) +
      g.pos % (w.vol.secPerClus * 512) / 512) =
      w.vol.secLba ((ch' a).getD q 0) (g.pos / 512 % w.vol.secPerClus) := by
    have hsum : w.vol.secLba ((ch' a).getD q 0) 0 + g.pos / 512 % w.vol.secPerClus =
        w.vol.secLba ((ch' a).getD q 0) (g.pos / 512 % w.vol.secPerClus) := by
      unfold Vol.secLba
      omega
    rw [mod_mul_512, hs.clusterToLba_eq hk, hsum, hs.u32_secLba hk hj]
  rw [Fat32.writeChunk]
  apply Holds.putFd
  rw [hcur, hs.clusterSize_eq, hlba]
  refine Holds.secRead (w := w'.setFd fd _) (by rw [View.vol_setFd, hv])
    (by rw [View.vol_setFd, hv]; exact hk) (by rw [View.vol_setFd, hv]; exact hj) ?_
  rw [if_pos rfl]
  refine HoldsAt.update_flush (by rw [View.vol_setFd, hv]; exact hk)
    (by rw [View.vol_setFd, hv]; exact hj) ?_
  simp only [if_true, mod_mod_512]
  apply Holds.putFd
  apply Holds.pure
  have hb : min (512 - g.pos % 512) (buf.length - m) ≤ 512 - g.pos % 512 := Nat.min_le_left _ _
  have hb' : min (512 - g.pos % 512) (buf.length - m) ≤ buf.length - m := Nat.min_le_right _ _
  have hb1 : 1 ≤ min (512 - g.pos % 512) (buf.length - m) := by omega
  generalize min (512 - g.pos % 512) (buf.length - m) = b at hb hb' hb1
  have hend : u32 (g.pos + b) ≤ (q + 1) * (w.vol.secPerClus * 512) := by
    rw [← Nat.mul_assoc] at hpos ⊢
    unfold u32
    omega
  have hroom : (q + 1) * (w.vol.secPerClus * 512) ≤
      (ch' a).length * (w.vol.secPerClus * 512) := Nat.mul_le_mul_right _ hq
  have hu : u32 (g.pos + b) < 4294967296 := Nat.mod_lt _ (by omega)
  obtain ⟨f₁, hf₁⟩ := hfds
  refine ⟨m + b, { g with pos := u32 (g.pos + b), size := max g.size (u32 (g.pos + b)) }, rfl,
    by omega, by omega, ((ht.setFd _).setSec hkm _).setFd _, ?_, ⟨⟨q, hq, hcur, hend⟩, ?_, ?_⟩,
    hsame⟩
  · rw [View.fds_setFd, View.fds_setSec, View.fds_setFd, hf₁, Function.update_idem,
      Function.update_idem, hcur]
  · exact Nat.max_le.mpr ⟨hsize, hend.trans hroom⟩
  · exact Nat.max_lt.mpr ⟨hlt, hu⟩

/-- `fat32_write` on a descriptor that is somewhere in its chain: the chain may
grow, and nothing else changes. -/
theorem Holds.fat32Write_inside (h : w.Chains ch (a :: S)) (hlt : fd < 16) (hf : w.fds fd = f)
    (hopen : f.isOpen = true) (hwr : f.write = true) (hin : f.Inside w.vol (ch a))
    {g : Int → Prog Drv β} (hg : ∀ m w' ch' f', m ≤ buf.length → Touched w ch a S w' ch' →
      w'.fds = Function.update w.fds fd f' → f.Moved f' w.vol (ch' a) → Holds (g (i32 m)) R w') :
    Holds (Fat32.fat32Write fd buf >>= g) R w := by
  refine Holds.of_sound fun n hs => ?_
  have hc : 0 < w.vol.secPerClus * 512 := by
    have := hs.spc_pos
    omega
  rw [Fat32.fat32Write, bind_assoc]
  apply Holds.getStore
  intro c hc'
  rw [c.fdOpen_natCast hlt, Int.toNat_natCast, hc'.fds, hf, hopen, hwr]
  simp only [Bool.not_true, Bool.or_self, Bool.false_eq_true, if_false, bind_assoc, pure_bind]
  apply Holds.bind
  refine Holds.loop_of_measure (fun m w' => m ≤ buf.length ∧ ∃ ch' f', Touched w ch a S w' ch' ∧
    w'.fds = Function.update w.fds fd f' ∧ f.Moved f' w.vol (ch' a))
    (fun m _ => buf.length - m) ?_ ⟨Nat.zero_le _, ch, f, Touched.refl h, by
      rw [← hf, Function.update_eq_self], hin, rfl⟩
  rintro m w' ⟨hm, ch', f', ht, hfds, hmv⟩
  have hv := ht.vol
  obtain ⟨⟨q, hq, hcur, hpos⟩, hsize, hsz⟩ := hmv.inside
  rw [Fat32.writeStep]
  apply Holds.getStore
  intro c hcw
  rw [hcw.fds, hfds, Function.update_self, hcw.vol, hv, hs.clusterSize_eq]
  by_cases hdone : buf.length ≤ m
  · rw [if_pos hdone]
    exact Holds.pure (hg m w' ch' f' hm ht hfds hmv)
  rw [if_neg hdone]
  by_cases hbound : f'.pos % (w.vol.secPerClus * 512) = 0 ∧ 0 < f'.pos
  · rw [if_pos hbound, hcur]
    have hnext : f'.pos < (q + 1 + 1) * (w.vol.secPerClus * 512) := by
      rw [Nat.succ_mul]
      omega
    apply Holds.writeNext (ht.chains.chain a List.mem_cons_self).1 hq
    · intro hlast
      have hin' : w.vol.InRange ((ch' a).getD (q + 1) 0) := by
        rw [List.getD_eq_getElem _ _ hlast]
        exact ht.inRange (List.getElem_mem hlast)
      rw [if_neg (by have := hin'.1; omega)]
      refine (Holds.writeChunk_inside (g := { f' with curCluster := (ch' a).getD (q + 1) 0 }) ht
        ⟨f', hfds⟩ hs (by omega) hlast rfl hnext hsize hsz hmv.same).mono ?_
      rintro d w'' ⟨b, f'', rfl, hmb, hb, ht', hfds', hmv'⟩
      exact ⟨⟨hb, ch', f'', ht', hfds', hmv'⟩, by omega⟩
    · intro _ _
      rw [if_pos rfl]
      exact Holds.pure (hg m w' ch' f' hm ht hfds hmv)
    · intro hl k hk h0
      rw [if_neg (by have := hk.1; omega)]
      have hext := ht.extend hs (hv ▸ hk) h0
      have hgetD : (Function.update ch' a (ch' a ++ [k]) a).getD (q + 1) 0 = k := by
        rw [Function.update_self, List.getD_append_right _ _ _ _ (by omega), hl, Nat.sub_self]
        rfl
      have hlen : (Function.update ch' a (ch' a ++ [k]) a).length = (ch' a).length + 1 := by
        rw [Function.update_self, List.length_append, List.length_singleton]
      refine (Holds.writeChunk_inside (g := { f' with curCluster := k }) hext
        ⟨f', by rw [View.fds_alloc, hfds]⟩ hs (by omega) (by rw [hlen]; omega) hgetD.symm hnext ?_
        hsz hmv.same).mono ?_
      · rw [hlen, Nat.succ_mul]
        exact hsize.trans (Nat.le_add_right _ _)
      · rintro d w'' ⟨b, f'', rfl, hmb, hb, ht', hfds', hmv'⟩
        exact ⟨⟨hb, _, f'', ht', hfds', hmv'⟩, by omega⟩
  · rw [if_neg hbound]
    have hpos' : f'.pos < (q + 1) * (w.vol.secPerClus * 512) := by
      refine Nat.lt_of_le_of_ne hpos fun heq => hbound ⟨?_, ?_⟩
      · rw [heq]
        exact Nat.mul_mod_left _ _
      · rw [heq]
        exact Nat.mul_pos (Nat.succ_pos q) hc
    refine (Holds.writeChunk_inside ht ⟨f', hfds⟩ hs (by omega) hq hcur hpos' hsize hsz
      hmv.same).mono ?_
    rintro d w'' ⟨b, f'', rfl, hmb, hb, ht', hfds', hmv'⟩
    exact ⟨⟨hb, ch', f'', ht', hfds', hmv'⟩, by omega⟩

end Write

/-- A number that `fat32_read` can follow: no cluster, or one whose link is not
`FAT32_BAD`. -/
def View.Tame (w : View) (k : Nat) : Prop :=
  k < 2 ∨ 0x0FFFFFF8 ≤ k ∨ (w.vol.InRange k ∧ w.fat k ≠ 0x0FFFFFF7)

theorem View.Chains.tame_fat {w : View} {ch : Nat → List Nat} {S : List Nat} {k n : Nat}
    (h : w.Chains ch S) (hs : w.vol.Sound n) (hk : w.vol.InRange k) (h7 : w.fat k ≠ 0x0FFFFFF7) :
    w.Tame (w.fat k) := by
  by_cases h0 : w.fat k = 0
  · exact Or.inl (by omega)
  · obtain ⟨a, ha, hka⟩ := List.mem_flatMap.mp (h.covered k hk h0 h7)
    rcases Links.Chain.next_mem_or_fin (h.chain a ha).1 hka with hm | hfin
    · exact Or.inr (Or.inr ⟨h.inRange ha hm, (h.fat_ne hs ha hm).2⟩)
    · exact Or.inr (Or.inl hfin)

/-- A descriptor after `m` more bytes were read through it. -/
def Fd.reads (f : Fd) (m cur : Nat) : Fd := { f with pos := f.pos + m, curCluster := cur }

theorem Fd.reads_reads (f : Fd) (m b cur cur' : Nat) :
    (f.reads m cur).reads b cur' = f.reads (m + b) cur' := by
  unfold Fd.reads
  rw [Nat.add_assoc]

theorem View.setFd_setFd (w : View) (fd : Nat) (f f' : Fd) :
    (w.setFd fd f).setFd fd f' = w.setFd fd f' := by
  unfold View.setFd
  rw [Function.update_idem]

section Read

variable {β : Type} {R : β → View → Prop} {w : View} {ch : Nat → List Nat}
  {a fd len n : Nat} {S xs : List Nat} {f : Fd} {out : List UInt8}

theorem take_drop_toList {b : Sector} {o k : Nat} (h : o + k ≤ 512) :
    (b.toList.drop o).take k = (List.range k).map fun i => b.byte (o + i) := by
  apply List.ext_getElem
  · rw [List.length_take, List.length_drop, Block.length_toList, List.length_map,
      List.length_range]
    omega
  · intro i h₁ h₂
    rw [List.length_map, List.length_range] at h₂
    rw [List.getElem_take, List.getElem_drop, List.getElem_map, List.getElem_range,
      ← Block.getD_toList, List.getD_eq_getElem]

/-- One round of `fat32_read` on a cluster. -/
theorem Holds.readStep (hs : w.vol.Sound n) (hf : w.fds fd = f) (hlt : out.length < len)
    (hk : w.vol.InRange f.curCluster) (h32 : f.pos + (len - out.length) < 4294967296) :
    Holds (readStep fd len out) (fun d w' => ∃ b, 1 ≤ b ∧ b ≤ len - out.length ∧
      b ≤ 512 - f.pos % 512 ∧
      d = .inl (out ++ (List.range b).map fun i =>
        (w.sec f.curCluster (f.pos / 512 % w.vol.secPerClus)).byte (f.pos % 512 + i)) ∧
      w' = w.setFd fd (f.reads b (if (f.pos + b) % (w.vol.secPerClus * 512) = 0
        then w.fat f.curCluster else f.curCluster))) w := by
  have hj : f.pos / 512 % w.vol.secPerClus < w.vol.secPerClus := Nat.mod_lt _ hs.spc_pos
  have hfin := hs.not_eoc hk
  have hge := hk.1
  rw [Fat32.readStep]
  apply Holds.getStore
  intro c hc
  rw [hc.fds, hf, hc.vol]
  simp only [hs.clusterSize_eq]
  rw [if_neg (by omega), if_neg (by omega)]
  have hlba : u32 (w.vol.clusterToLba f.curCluster + f.pos % (w.vol.secPerClus * 512) / 512) =
      w.vol.secLba f.curCluster (f.pos / 512 % w.vol.secPerClus) := by
    have hsum : w.vol.secLba f.curCluster 0 + f.pos / 512 % w.vol.secPerClus =
        w.vol.secLba f.curCluster (f.pos / 512 % w.vol.secPerClus) := by
      unfold Vol.secLba
      omega
    rw [mod_mul_512, hs.clusterToLba_eq hk, hsum, hs.u32_secLba hk hj]
  apply Holds.secRead hlba hk hj
  rw [if_pos rfl]
  apply HoldsAt.cached hk hj
  apply HoldsAt.of_holds
  rw [mod_mod_512]
  have hb : min (512 - f.pos % 512) (len - out.length) ≤ 512 - f.pos % 512 := Nat.min_le_left _ _
  have hb' : min (512 - f.pos % 512) (len - out.length) ≤ len - out.length :=
    Nat.min_le_right _ _
  have hb1 : 1 ≤ min (512 - f.pos % 512) (len - out.length) := by omega
  generalize min (512 - f.pos % 512) (len - out.length) = b at hb hb' hb1
  rw [u32_of_lt (show f.pos + b < 4294967296 by omega), take_drop_toList (by omega)]
  apply Holds.putFd
  by_cases hmod : (f.pos + b) % (w.vol.secPerClus * 512) = 0
  · simp only [hmod, if_true]
    refine Holds.fatGet (w := w.setFd fd _) hk ?_
    apply Holds.putFd
    apply Holds.pure
    refine ⟨b, hb1, hb', hb, rfl, ?_⟩
    rw [if_pos hmod]
    unfold View.setFd
    simp only [Function.update_idem]
    rfl
  · simp only [hmod, if_false]
    apply Holds.pure
    refine ⟨b, hb1, hb', hb, rfl, ?_⟩
    rw [if_neg hmod]
    rfl

/-- `fat32_read` at the cursor of a descriptor. -/
theorem Holds.fat32Read (hch : w.Chain a xs) (hlt : fd < 16) (hf : w.fds fd = f)
    (hopen : f.isOpen = true) (hin : f.Within w.vol xs) (he : f.Eager w.vol xs)
    (h32 : f.size < 4294967296) {g : Int × List UInt8 → Prog Drv β}
    (hg : ∀ cur, (f.reads (min len (f.size - f.pos)) cur).Eager w.vol xs →
      Holds (g (i32 (min len (f.size - f.pos)),
        (List.range (min len (f.size - f.pos))).map fun i => w.fileByte xs (f.pos + i))) R
        (w.setFd fd (f.reads (min len (f.size - f.pos)) cur))) :
    Holds (fat32Read fd len >>= g) R w := by
  refine Holds.of_sound fun n hs => ?_
  rw [Fat32.fat32Read, bind_assoc]
  apply Holds.getStore
  intro c hc
  rw [c.fdOpen_natCast hlt, Int.toNat_natCast, hc.fds, hf, hopen]
  simp only [Bool.not_true, Bool.false_eq_true, if_false]
  have hself : w.setFd fd (f.reads 0 f.curCluster) = w := by
    have : f.reads 0 f.curCluster = f := rfl
    rw [this, View.setFd, ← hf, Function.update_eq_self]
  by_cases hend : f.size ≤ f.pos
  · rw [if_pos hend, pure_bind]
    have h0 : min len (f.size - f.pos) = 0 := by omega
    have := hg f.curCluster
    rw [h0, hself] at this
    exact this he
  rw [if_neg hend, bind_assoc]
  generalize hN : min len (f.size - f.pos) = N at hg ⊢
  have hNle : f.pos + N ≤ f.size := by omega
  have hsz := hin.size_le
  have hc0 : 0 < w.vol.secPerClus * 512 := by
    have := hs.spc_pos
    omega
  apply Holds.bind
  refine Holds.loop_of_measure (fun out w' => out.length ≤ N ∧
    out = (List.range out.length).map (fun i => w.fileByte xs (f.pos + i)) ∧
    ∃ cur, (f.reads out.length cur).Eager w.vol xs ∧
      w' = w.setFd fd (f.reads out.length cur)) (fun out _ => N - out.length) ?_
    ⟨Nat.zero_le _, rfl, f.curCluster, he, hself.symm⟩
  rintro out w' ⟨hle, hout, cur, heag, rfl⟩
  rcases Nat.eq_or_lt_of_le hle with hdone | hlt'
  · rw [Fat32.readStep]
    apply Holds.getStore
    intro c' hc'
    rw [if_pos (by omega)]
    apply Holds.pure
    simp only [pure_bind, hdone]
    rw [hdone] at heag hout
    rw [hout]
    exact hg cur heag
  · have hpos : f.pos + out.length < xs.length * (w.vol.secPerClus * 512) := by omega
    have hq : (f.pos + out.length) / (w.vol.secPerClus * 512) < xs.length :=
      Nat.div_lt_of_lt_mul (by rw [Nat.mul_comm]; exact hpos)
    have hcur : cur = xs.getD ((f.pos + out.length) / (w.vol.secPerClus * 512)) 0 := heag hpos
    have hk : w.vol.InRange cur := by
      rw [hcur, List.getD_eq_getElem _ _ hq]
      exact hch.inRange (List.getElem_mem hq)
    refine (Holds.readStep (w := w.setFd fd (f.reads out.length cur)) (f := f.reads out.length cur)
      hs (by rw [View.fds_setFd, Function.update_self]) hlt' hk ?_).mono ?_
    · change f.pos + out.length + (N - out.length) < 4294967296
      omega
    · rintro d w'' ⟨b, hb1, hb, hb', rfl, rfl⟩
      change b ≤ 512 - (f.pos + out.length) % 512 at hb'
      have hlen : (out ++ (List.range b).map fun i =>
          ((w.setFd fd (f.reads out.length cur)).sec (f.reads out.length cur).curCluster
            ((f.reads out.length cur).pos / 512 % w.vol.secPerClus)).byte
              ((f.reads out.length cur).pos % 512 + i)).length = out.length + b := by
        rw [List.length_append, List.length_map, List.length_range]
      refine ⟨⟨by rw [View.vol_setFd, hlen]; omega, ?_, if (f.pos + (out.length + b)) %
        (w.vol.secPerClus * 512) = 0 then w.fat cur else cur, ?_, ?_⟩, ?_⟩
      · rw [View.vol_setFd, hlen, List.range_add, List.map_append, ← hout, List.map_map]
        congr 1
        apply List.map_congr_left
        intro i hi
        rw [List.mem_range] at hi
        change (w.sec cur ((f.pos + out.length) / 512 % w.vol.secPerClus)).byte
          ((f.pos + out.length) % 512 + i) = w.fileByte xs (f.pos + (out.length + i))
        have hdiv : (f.pos + (out.length + i)) / 512 = (f.pos + out.length) / 512 := by omega
        have hmod : (f.pos + (out.length + i)) % 512 = (f.pos + out.length) % 512 + i := by omega
        rw [View.fileByte, hdiv, hmod, hcur, div_mul_512]
      · rw [View.vol_setFd, hlen]
        intro hpos'
        change f.pos + (out.length + b) < _ at hpos'
        change ite _ _ _ = xs.getD ((f.pos + (out.length + b)) / (w.vol.secPerClus * 512)) 0
        have hsec : (f.pos + (out.length + b) - 1) / (w.vol.secPerClus * 512) =
            (f.pos + out.length) / (w.vol.secPerClus * 512) := by
          rw [div_mul_512, div_mul_512]
          congr 1
          omega
        by_cases hmod : (f.pos + (out.length + b)) % (w.vol.secPerClus * 512) = 0
        · have hnext := div_pred_of_dvd hc0 hmod (by omega)
          rw [hsec] at hnext
          have hq' : (f.pos + (out.length + b)) / (w.vol.secPerClus * 512) < xs.length :=
            Nat.div_lt_of_lt_mul (by rw [Nat.mul_comm]; exact hpos')
          rw [if_pos hmod, hcur, hch.fat_getD (by omega), hnext]
        · rw [if_neg hmod, hcur, ← div_pred_of_mod hmod, hsec]
      · rw [View.vol_setFd, hlen, View.setFd_setFd, Fd.reads_reads, ← Nat.add_assoc]
        rfl
      · rw [View.vol_setFd, hlen]
        omega

/-- `fat32_read` on a descriptor whose file may be gone: whatever it answers,
only the descriptor moves. -/
theorem Holds.fat32Read_tame (h : w.Chains ch S) (hlt : fd < 16) (hf : w.fds fd = f)
    (hopen : f.isOpen = true) (ht : w.Tame f.curCluster) (h32 : f.size < 4294967296)
    {g : Int × List UInt8 → Prog Drv β}
    (hg : ∀ bytes cur, f.pos + bytes.length ≤ max f.pos f.size → bytes.length ≤ len →
      w.Tame cur → Holds (g (i32 bytes.length, bytes)) R
        (w.setFd fd (f.reads bytes.length cur))) :
    Holds (Fat32.fat32Read fd len >>= g) R w := by
  refine Holds.of_sound fun n hs => ?_
  rw [Fat32.fat32Read, bind_assoc]
  apply Holds.getStore
  intro c hc
  rw [c.fdOpen_natCast hlt, Int.toNat_natCast, hc.fds, hf, hopen]
  simp only [Bool.not_true, Bool.false_eq_true, if_false]
  have hself : w.setFd fd (f.reads 0 f.curCluster) = w := by
    have : f.reads 0 f.curCluster = f := rfl
    rw [this, View.setFd, ← hf, Function.update_eq_self]
  by_cases hend : f.size ≤ f.pos
  · rw [if_pos hend, pure_bind]
    have := hg [] f.curCluster (by simp) (by simp) ht
    rw [List.length_nil, hself] at this
    exact this
  rw [if_neg hend, bind_assoc]
  generalize hN : min len (f.size - f.pos) = N
  apply Holds.bind
  refine Holds.loop_of_measure (fun out w' => out.length ≤ N ∧ ∃ cur, w.Tame cur ∧
      w' = w.setFd fd (f.reads out.length cur)) (fun out _ => N - out.length) ?_
    ⟨Nat.zero_le _, f.curCluster, ht, hself.symm⟩
  rintro out w' ⟨hle, cur, htame, rfl⟩
  have hleave : Holds (Pure.pure (i32 out.length, out) >>= g) R
      (w.setFd fd (f.reads out.length cur)) := by
    rw [pure_bind]
    exact hg out cur (by omega) (by omega) htame
  by_cases hgo : out.length < N ∧ 2 ≤ cur ∧ cur < 0x0FFFFFF8
  · obtain ⟨hlt', h2, h8⟩ := hgo
    obtain ⟨hk, h7⟩ : w.vol.InRange cur ∧ w.fat cur ≠ 0x0FFFFFF7 := by
      rcases htame with h | h | h
      · omega
      · omega
      · exact h
    refine (Holds.readStep (w := w.setFd fd (f.reads out.length cur)) (f := f.reads out.length cur)
      hs (by rw [View.fds_setFd, Function.update_self]) hlt' hk ?_).mono ?_
    · change f.pos + out.length + (N - out.length) < 4294967296
      omega
    · rintro d w'' ⟨b, hb1, hb, -, rfl, rfl⟩
      have hlen : ∀ y : Nat → UInt8, (out ++ (List.range b).map y).length = out.length + b := by
        intro y
        rw [List.length_append, List.length_map, List.length_range]
      simp only [hlen]
      refine ⟨⟨by omega, if (f.pos + (out.length + b)) % (w.vol.secPerClus * 512) = 0
        then w.fat cur else cur, ?_, ?_⟩, by omega⟩
      · split
        · exact h.tame_fat hs hk h7
        · exact htame
      · rw [View.setFd_setFd, Fd.reads_reads, ← Nat.add_assoc]
        rfl
  · rw [Fat32.readStep]
    apply Holds.getStore
    intro c' hc'
    rw [hc'.fds, View.fds_setFd, Function.update_self]
    by_cases hdone : N ≤ out.length
    · rw [if_pos hdone]
      exact Holds.pure hleave
    · rw [if_neg hdone, if_pos (by change cur < 2 ∨ _ ≤ cur; omega)]
      exact Holds.pure hleave

end Read

section Close

variable {β : Type} {R : β → View → Prop} {w : View} {a fd i e : Nat} {xs : List Nat} {f : Fd}
  {g : Unit → Prog Drv β}

theorem Holds.fat32Close_read (hlt : fd < 16) (hf : w.fds fd = f) (hopen : f.isOpen = true)
    (hwr : f.write = false) (hg : Holds (g ()) R (w.setFd fd Fd.closed)) :
    Holds (fat32Close fd >>= g) R w := by
  rw [fat32Close, bind_assoc]
  apply Holds.getStore
  intro c hc
  rw [c.fdOpen_natCast hlt, Int.toNat_natCast, hc.fds, hf, hopen]
  simp only [Bool.not_true, hwr, Bool.false_eq_true, if_false]
  exact Holds.putFd hg

/-- A descriptor that is open for writing stores its size and its cluster into
the short entry it was opened on. -/
theorem Holds.fat32Close (hch : w.Chain a xs) (hi : i < xs.length * w.vol.perCluster)
    (hlt : fd < 16) (hf : w.fds fd = f) (hopen : f.isOpen = true) (hwr : f.write = true)
    (hlba : f.dirLba = (posAt w.vol e xs i).lba) (hoff : f.dirOffset = (posAt w.vol e xs i).off)
    (hg : Holds (g ()) R ((w.setSlot xs i
      (((w.slot xs i).setSize f.size).setCluster f.cluster)).setFd fd Fd.closed)) :
    Holds (fat32Close fd >>= g) R w := by
  refine Holds.of_sound fun n hn => ?_
  have hk := hch.inRange (getD_mem hi)
  have hj : i % w.vol.perCluster / 16 < w.vol.secPerClus := index_lt hn.spc_pos
  rw [Fat32.fat32Close, bind_assoc]
  apply Holds.getStore
  intro c hc
  rw [c.fdOpen_natCast hlt, Int.toNat_natCast, hc.fds, hf, hopen]
  simp only [Bool.not_true, hwr, Bool.false_eq_true, if_false, if_true, bind_assoc]
  apply Holds.secRead hlba hk hj
  simp only [if_true, bind_assoc]
  apply HoldsAt.update_flush hk hj
  have hsec : ∀ b : Sector, (((b.patch (f.dirOffset + 28) (leBytes 4 f.size)).patch
      (f.dirOffset + 20) (leBytes 2 (f.cluster / 65536))).patch (f.dirOffset + 26)
        (leBytes 2 f.cluster)) = b.patch (i % 16 * 32)
          ((DirEntry.setSize (b.slice (i % 16 * 32) 32) f.size).setCluster f.cluster).toList := by
    intro b
    have ho : i % 16 * 32 + 32 ≤ 512 := by omega
    change f.dirOffset = i % 16 * 32 at hoff
    rw [hoff, ← Block.patch_slice (m := 32) b (k := 28) (by simp),
      Block.patch_patch_inner _ _ (by simp) ho, Block.patch_patch_inner _ _ (by simp) ho]
    rfl
  rw [hsec]
  exact Holds.putFd hg

end Close

end Chimaera.Fat32
