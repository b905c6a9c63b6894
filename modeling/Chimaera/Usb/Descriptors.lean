/-
The loop over the descriptors of a configuration, with the bytes that it reads and the
descriptors that it visits.
-/
import Chimaera.Links
import Chimaera.Reads
import Chimaera.Usb.Enumerate

namespace Chimaera.Usb

open Reading

variable {buf : ℕ → UInt8} {total p len : ℕ} {type : UInt8} {dev : UsbDevice}

/-- The interface descriptor at `p`; its class is printed in any case. -/
def readInterface (p len : ℕ) (type : UInt8) (dev : UsbDevice) : Reading ℕ UInt8 UsbDevice :=
  if type = usbDescInterface ∧ 9 ≤ len then do
    let classCode ← read (p + 5)
    let subclass ← read (p + 6)
    let protocol ← read (p + 7)
    if dev.classCode = 0 then pure { dev with classCode, subclass, protocol } else pure dev
  else pure dev

/-- The endpoint descriptor at `p`. -/
def readEndpoint (p len : ℕ) (type : UInt8) (dev : UsbDevice) : Reading ℕ UInt8 UsbDevice :=
  if type = usbDescEndpoint ∧ 7 ≤ len then do
    let attributes ← read (p + 3)
    if attributes &&& 0x03 = epTypeInt then do
      let address ← read (p + 2)
      if epAddrIn address then do
        let interval ← read (p + 6)
        let lo ← read (p + 4)
        let hi ← read (p + 5)
        pure { dev with
          intEpAddr := epAddrNum address
          intEpInterval := interval
          intEpMaxpkt := le16 lo hi
          intEpValid := true }
      else pure dev
    else pure dev
  else pure dev

/-- The loop from position `p` on: the device, and the positions that it visits. -/
def visitDescriptors (descEnd p : ℕ) (dev : UsbDevice) :
    Reading ℕ UInt8 (UsbDevice × List ℕ) :=
  if p < descEnd ∧ p + 2 ≤ descEnd then do
    let len ← read p
    let type ← read (p + 1)
    if len.toNat < 2 ∨ descEnd < p + len.toNat then pure (dev, [])
    else do
      let dev ← readInterface p len.toNat type dev
      let dev ← readEndpoint p len.toNat type dev
      let rest ← visitDescriptors descEnd (p + len.toNat) dev
      pure (rest.1, p :: rest.2)
  else pure (dev, [])
termination_by descEnd - p

/-- There is a descriptor at `p`: its length is at least 2 and ends within the total. -/
def Fits (buf : ℕ → UInt8) (total p : ℕ) : Prop :=
  2 ≤ (buf p).toNat ∧ p + (buf p).toNat ≤ total

instance : Decidable (Fits buf total p) := inferInstanceAs (Decidable (_ ∧ _))

/-- Where the length byte at `p` leads to. -/
def follow (buf : ℕ → UInt8) (p : ℕ) : ℕ := p + (buf p).toNat

/-- The descriptors from `p` on, one length byte after the other, as far as they go. -/
def Follows (buf : ℕ → UInt8) (total p : ℕ) (ps : List ℕ) : Prop :=
  ∃ e, ¬ Fits buf total e ∧ Links.Path (follow buf) (Fits buf total) p ps e

theorem follows_nil_iff : Follows buf total p [] ↔ ¬ Fits buf total p := by
  constructor
  · rintro ⟨e, he, rfl⟩
    exact he
  · exact fun h => ⟨p, h, rfl⟩

theorem follows_cons_iff {q : ℕ} {ps : List ℕ} : Follows buf total p (q :: ps) ↔
    p = q ∧ Fits buf total q ∧ Follows buf total (follow buf q) ps := by
  constructor
  · rintro ⟨e, he, hpq, hq, hrest⟩
    exact ⟨hpq, hq, e, he, hrest⟩
  · rintro ⟨hpq, hq, e, he, hrest⟩
    exact ⟨e, he, hpq, hq, hrest⟩

/-- How far the descriptors go is determined. -/
theorem Follows.unique {ps qs : List ℕ} (h : Follows buf total p ps)
    (h' : Follows buf total p qs) : ps = qs := by
  induction ps generalizing p qs with
  | nil =>
      cases qs with
      | nil => rfl
      | cons q qs =>
          obtain ⟨rfl, hq, -⟩ := follows_cons_iff.mp h'
          exact absurd hq (follows_nil_iff.mp h)
  | cons q ps ih =>
      obtain ⟨rfl, hp, hrest⟩ := follows_cons_iff.mp h
      cases qs with
      | nil => exact absurd hp (follows_nil_iff.mp h')
      | cons q qs =>
          obtain ⟨rfl, -, hrest'⟩ := follows_cons_iff.mp h'
          rw [ih hrest hrest']

theorem value_readInterface : (readInterface p len (buf (p + 1)) dev).value buf =
    parseInterface (fun i => buf (p + i)) len dev := by
  rw [readInterface, parseInterface, value_ite]
  split
  · rw [value_bind, value_bind, value_bind, value_ite]
    rfl
  · rfl

theorem value_readEndpoint : (readEndpoint p len (buf (p + 1)) dev).value buf =
    parseEndpoint (fun i => buf (p + i)) len dev := by
  rw [readEndpoint, parseEndpoint, value_ite]
  split
  · rw [value_bind, value_ite]
    by_cases htype : buf (p + 3) &&& 0x03 = epTypeInt
    · rw [value_read, if_pos htype, value_bind, value_ite]
      by_cases hin : epAddrIn (buf (p + 2)) = true
      · rw [value_read, if_pos hin, if_pos ⟨htype, hin⟩]
        rfl
      · rw [value_read, if_neg hin, if_neg fun h => hin h.2]
        rfl
    · rw [value_read, if_neg htype, if_neg fun h => htype h.1]
      rfl
  · rfl

theorem within_readInterface (hend : p + len ≤ total) :
    Within (· < total) (readInterface p len type dev) buf := by
  refine Within.ite (fun h => ?_) fun _ => within_pure
  have h9 := h.2
  refine (within_read (by omega)).bind ((within_read (by omega)).bind
    ((within_read (by omega)).bind ?_))
  exact Within.ite (fun _ => within_pure) fun _ => within_pure

theorem within_readEndpoint (hend : p + len ≤ total) :
    Within (· < total) (readEndpoint p len type dev) buf := by
  refine Within.ite (fun h => ?_) fun _ => within_pure
  have h7 := h.2
  refine (within_read (by omega)).bind (Within.ite (fun _ => ?_) fun _ => within_pure)
  refine (within_read (by omega)).bind (Within.ite (fun _ => ?_) fun _ => within_pure)
  exact (within_read (by omega)).bind ((within_read (by omega)).bind
    ((within_read (by omega)).bind within_pure))

/-- Without a descriptor at `p` the loop ends there. -/
theorem visit_stop (dev : UsbDevice) (h : ¬ Fits buf total p) :
    (visitDescriptors total p dev).value buf = (dev, []) ∧
      Within (· < total) (visitDescriptors total p dev) buf := by
  rw [visitDescriptors]
  by_cases hp : p < total ∧ p + 2 ≤ total
  · have hstop : (buf p).toNat < 2 ∨ total < p + (buf p).toNat := by
      rw [Fits] at h
      omega
    rw [if_pos hp, value_bind, value_bind, value_read, if_pos hstop]
    refine ⟨rfl, (within_read (by omega)).bind ((within_read (by omega)).bind ?_)⟩
    rw [value_read, if_pos hstop]
    exact within_pure
  · rw [if_neg hp]
    exact ⟨rfl, within_pure⟩

/-- What the descriptor at `p` makes of the device. -/
def parseAt (buf : ℕ → UInt8) (p : ℕ) (dev : UsbDevice) : UsbDevice :=
  parseEndpoint (fun i => buf (p + i)) (buf p).toNat
    (parseInterface (fun i => buf (p + i)) (buf p).toNat dev)

theorem Fits.add_two_le (h : Fits buf total p) : p + 2 ≤ total := by
  have := h.1
  have := h.2
  omega

theorem Fits.not_stop (h : Fits buf total p) :
    ¬ ((buf p).toNat < 2 ∨ total < p + (buf p).toNat) := by
  have := h.1
  have := h.2
  omega

/-- The descriptor at `p` is visited, then those that follow it. -/
theorem value_visit_next (h : Fits buf total p) :
    (visitDescriptors total p dev).value buf =
      (((visitDescriptors total (follow buf p) (parseAt buf p dev)).value buf).1,
        p :: ((visitDescriptors total (follow buf p) (parseAt buf p dev)).value buf).2) := by
  have htwo := h.add_two_le
  rw [visitDescriptors, if_pos ⟨by omega, htwo⟩, value_bind, value_bind, value_read,
    if_neg h.not_stop, value_bind, value_bind, value_bind, value_read, value_readInterface,
    value_readEndpoint]
  rfl

theorem within_visit_next (h : Fits buf total p)
    (hrest : Within (· < total) (visitDescriptors total (follow buf p) (parseAt buf p dev)) buf) :
    Within (· < total) (visitDescriptors total p dev) buf := by
  have htwo := h.add_two_le
  rw [visitDescriptors, if_pos ⟨by omega, htwo⟩]
  refine (within_read (by omega)).bind ((within_read (by omega)).bind ?_)
  rw [value_read, value_read, if_neg h.not_stop]
  refine (within_readInterface h.2).bind ((within_readEndpoint h.2).bind ?_)
  rw [value_readInterface, value_readEndpoint]
  exact hrest.bind within_pure

theorem parseDescriptors_stop (h : ¬ Fits buf total p) :
    parseDescriptors buf total p dev = dev := by
  rw [parseDescriptors]
  by_cases hp : p < total ∧ p + 2 ≤ total
  · rw [if_pos hp]
    refine if_pos ?_
    rw [Fits] at h
    omega
  · rw [if_neg hp]

theorem parseDescriptors_next (h : Fits buf total p) : parseDescriptors buf total p dev =
    parseDescriptors buf total (follow buf p) (parseAt buf p dev) := by
  have htwo := h.add_two_le
  rw [parseDescriptors, if_pos ⟨by omega, htwo⟩]
  exact if_neg h.not_stop

/-- From any position on: the reads, the device and the descriptors. -/
theorem visitDescriptors_spec (buf : ℕ → UInt8) (total p : ℕ) (dev : UsbDevice) :
    Within (· < total) (visitDescriptors total p dev) buf ∧
    ((visitDescriptors total p dev).value buf).1 = parseDescriptors buf total p dev ∧
    Follows buf total p ((visitDescriptors total p dev).value buf).2 := by
  induction hm : total - p using Nat.strong_induction_on generalizing p dev with
  | h m ih =>
      by_cases h : Fits buf total p
      · have hlt : total - follow buf p < m := by
          have := h.1
          have := h.2
          rw [follow]
          omega
        obtain ⟨hin, hdev, hps⟩ := ih _ hlt (follow buf p) (parseAt buf p dev) rfl
        rw [value_visit_next h]
        exact ⟨within_visit_next h hin, hdev.trans (parseDescriptors_next h).symm,
          follows_cons_iff.mpr ⟨rfl, h, hps⟩⟩
      · obtain ⟨hval, hin⟩ := visit_stop dev h
        rw [hval]
        exact ⟨hin, (parseDescriptors_stop h).symm, follows_nil_iff.mpr h⟩

/-- The loop over the descriptors reads no byte past the total length, makes of the device
what `usb_enumerate_port` keeps, and visits the descriptors that the length bytes lead to from
the start of the buffer, up to the first that does not fit. -/
theorem visitDescriptors_bounded (buf : ℕ → UInt8) (total : ℕ) (dev : UsbDevice) :
    (∀ i ∈ (visitDescriptors total 0 dev).reads buf, i < total) ∧
    ((visitDescriptors total 0 dev).value buf).1 = parseDescriptors buf total 0 dev ∧
    ∀ ps, ((visitDescriptors total 0 dev).value buf).2 = ps ↔ Follows buf total 0 ps := by
  obtain ⟨hin, hdev, hps⟩ := visitDescriptors_spec buf total 0 dev
  exact ⟨hin, hdev, fun ps => ⟨fun h => h ▸ hps, hps.unique⟩⟩

/-- A first interface descriptor, then one that is too long. -/
example : (visitDescriptors 12 0 zeroDevice).value
    (fun i => [9, 4, 0, 0, 0, 3, 1, 1, 0, 4, 5, 0].getD i 0) =
      ({ zeroDevice with classCode := 3, subclass := 1, protocol := 1 }, [0]) := by
  rw [value_visit_next ⟨by decide, by decide⟩, (visit_stop _ (by decide)).1]
  rfl

end Chimaera.Usb
