/-
The driver over a working device.  `On x Q c` runs `x` from every driver state
whose cache is clean and whose variables are `c`: it answers, leaves the cache
clean, and the answer and the new variables satisfy `Q`.  The cache itself is
no longer visible at this level.
-/
import Chimaera.Fat32.Fsck

namespace Chimaera.Fat32

open Prog

variable {α β γ : Type}

/-- Transfers succeed, and the cache is clean and holds what the disk holds. -/
structure Drv.Ready (s : Drv) : Prop where
  present : s.present = true
  working : ∀ n, s.ataOk n = true
  clean : s.secCacheDirty = false
  coherent : s.secCacheLba = 0xFFFFFFFF ∨
    (s.secCacheLba < s.sectors ∧ s.secCache = s.disk s.secCacheLba)
  lba28 : s.sectors ≤ 268435456

/-- Run `x` over a working device and a clean cache. -/
def On (x : Prog Drv α) (Q : α → Store → Prop) (c : Store) : Prop :=
  ∀ s : Drv, s.Ready → s.toStore = c →
    x.wp (fun a s' => s'.Ready ∧ Q a s'.toStore) s

/-- As `On`, with sector `lba` in the cache. -/
def OnAt (lba : Nat) (x : Prog Drv α) (Q : α → Store → Prop) (c : Store) : Prop :=
  ∀ s : Drv, s.Ready → s.secCacheLba = lba → s.toStore = c →
    x.wp (fun a s' => s'.Ready ∧ Q a s'.toStore) s

section Rules

variable {Q : α → Store → Prop} {R : β → Store → Prop} {c : Store} {lba : Nat}

theorem On.pure {a : α} (h : Q a c) : On (pure a) Q c := by
  rintro s hs rfl
  exact wp_pure.mpr ⟨hs, h⟩

theorem On.bind {x : Prog Drv α} {f : α → Prog Drv β}
    (h : On x (fun a c' => On (f a) R c') c) : On (x >>= f) R c := by
  intro s hs hc
  rw [wp_bind]
  refine (h s hs hc).mono ?_
  rintro a s' ⟨hs', hf⟩
  exact hf s' hs' rfl

theorem On.mono {x : Prog Drv α} {Q' : α → Store → Prop} (h : On x Q c)
    (hq : ∀ a c', Q a c' → Q' a c') : On x Q' c := by
  intro s hs hc
  exact (h s hs hc).mono fun a s' ⟨hs', hr⟩ => ⟨hs', hq a _ hr⟩

theorem On.getStore {f : Store → Prog Drv β} (h : On (f c) R c) :
    On (getStore >>= f) R c := by
  rintro s hs rfl
  rw [Fat32.getStore, wp_bind, wp_asks]
  exact h s hs rfl

theorem On.modifyStore {g : Store → Store} (hd : (g c).disk = c.disk)
    (hn : (g c).sectors = c.sectors) {f : Unit → Prog Drv β} (h : On (f ()) R (g c)) :
    On (modifyStore g >>= f) R c := by
  rintro s hs rfl
  rw [Fat32.modifyStore, wp_bind, wp_modify]
  refine h _ ⟨hs.present, hs.working, hs.clean, ?_, ?_⟩ rfl
  · rcases hs.coherent with hno | ⟨hlt, heq⟩
    · exact Or.inl hno
    · refine Or.inr ⟨?_, ?_⟩
      · change s.secCacheLba < (g s.toStore).sectors
        rw [hn]
        exact hlt
      · change s.secCache = (g s.toStore).disk s.secCacheLba
        rw [hd]
        exact heq
  · change (g s.toStore).sectors ≤ _
    rw [hn]
    exact hs.lba28

theorem On.putFd {fd : Nat} {d : Fd} {f : Unit → Prog Drv β}
    (h : On (f ()) R (c.setFd fd d)) : On (putFd fd d >>= f) R c :=
  On.modifyStore rfl rfl h

/-- One round of a loop. -/
theorem On.loop {body : β → Prog Drv (β ⊕ α)} {b : β}
    (h : On (body b) (fun d c' => match d with
      | .inl b' => On (loop body b') Q c'
      | .inr a => Q a c') c) : On (loop body b) Q c := by
  intro s hs hc
  rw [wp_loop]
  refine (h s hs hc).mono ?_
  rintro (b' | a) s' ⟨hs', hq⟩
  · exact hq s' hs' rfl
  · exact ⟨hs', hq⟩

theorem On.loop_of_measure {body : β → Prog Drv (β ⊕ α)} (inv : β → Store → Prop)
    (measure : β → Store → Nat)
    (hstep : ∀ b c, inv b c → On (body b) (fun d c' => match d with
      | .inl b' => inv b' c' ∧ measure b' c' < measure b c
      | .inr a => Q a c') c)
    {b : β} (hinv : inv b c) : On (Prog.loop body b) Q c := by
  induction hm : measure b c using Nat.strong_induction_on generalizing b c with
  | h m ih =>
      apply On.loop
      refine (hstep b c hinv).mono ?_
      rintro (b' | a) c' hd
      · exact ih _ (hm ▸ hd.2) hd.1 rfl
      · exact hd

/-- A program with one outcome over every clean cache runs to it. -/
theorem On.runs {x : Prog Drv α} {a : α} {c' : Store} (h : On x (fun b d => b = a ∧ d = c') c)
    {s : Drv} (hs : s.Ready) (hc : s.toStore = c) :
    ∃ s', s'.Ready ∧ s'.toStore = c' ∧ x.Runs s a s' := by
  obtain ⟨b, s', hr, hs', rfl, rfl⟩ := h s hs hc
  exact ⟨s', hs', rfl, hr⟩

theorem OnAt.of_on {x : Prog Drv α} (h : On x Q c) : OnAt lba x Q c :=
  fun s hs _ hc => h s hs hc

end Rules

section SectorIO

variable {R : β → Store → Prop} {c : Store} {lba : Nat}

/-- A sector of the device can be brought into the cache. -/
theorem On.secRead (hlba : lba < c.sectors) {f : Bool → Prog Drv β}
    (h : OnAt lba (f true) R c) : On (secRead lba >>= f) R c := by
  rintro s hs rfl
  rw [Fat32.secRead, wp_bind, wp_bind, wp_asks]
  by_cases hhit : s.secCacheLba = lba
  · simp only [id_eq, hhit, if_true, wp_pure]
    exact h s hs hhit rfl
  · have hmod : lba % 268435456 = lba := Nat.mod_eq_of_lt (lt_of_lt_of_le hlba hs.lba28)
    simp only [id_eq, hhit, if_false, secFlush, ataRead, wp_bind, wp_asks, hs.clean,
      Bool.false_eq_true, wp_pure, if_true, hs.present, wp_modify, hs.working, hmod, hlba,
      decide_true, Bool.and_self]
    exact h _ ⟨rfl, hs.working, rfl, Or.inr ⟨hlba, rfl⟩, hs.lba28⟩ rfl rfl

/-- A sector past the end of the device cannot. -/
theorem On.secRead_fail (hlba : c.sectors ≤ lba % 268435456) (hno : lba ≠ 0xFFFFFFFF)
    {f : Bool → Prog Drv β} (h : On (f false) R c) : On (Fat32.secRead lba >>= f) R c := by
  rintro s hs rfl
  rw [Fat32.secRead, wp_bind, wp_bind, wp_asks]
  have hmiss : s.secCacheLba ≠ lba := by
    rintro rfl
    rcases hs.coherent with heq | ⟨hlt, -⟩
    · exact hno heq
    · have := Nat.mod_eq_of_lt (lt_of_lt_of_le hlt hs.lba28)
      omega
  have hfar : ¬ lba % 268435456 < s.sectors := Nat.not_lt.mpr hlba
  simp only [id_eq, hmiss, if_false, secFlush, ataRead, wp_bind, wp_asks, hs.clean,
    Bool.false_eq_true, wp_pure, if_true, hs.present, wp_modify, hfar, decide_false,
    Bool.and_false]
  exact h _ ⟨rfl, hs.working, rfl, hs.coherent, hs.lba28⟩ rfl

/-- Only 28 bits of an address count. -/
theorem secRead_wraps {s : Drv} (hs : s.Ready) (hlba : lba % 268435456 < s.sectors) :
    (Fat32.secRead lba).wp (fun ok _ => ok = true) s := by
  rw [Fat32.secRead, wp_bind, wp_asks]
  by_cases hhit : s.secCacheLba = lba
  · simp only [id_eq, hhit, if_true, wp_pure]
  · simp only [id_eq, hhit, if_false, secFlush, ataRead, wp_bind, wp_asks, hs.clean,
      Bool.false_eq_true, wp_pure, if_true, hs.present, wp_modify, hs.working, hlba,
      decide_true, Bool.and_self]

theorem OnAt.cached (hlba : lba < c.sectors) {f : Sector → Prog Drv β}
    (h : OnAt lba (f (c.disk lba)) R c) : OnAt lba (cached >>= f) R c := by
  rintro s hs rfl rfl
  rw [Fat32.cached, wp_bind, wp_asks]
  rcases hs.coherent with hno | ⟨-, heq⟩
  · have := hs.lba28
    omega
  · rw [heq]
    exact h s hs rfl rfl

/-- Patching the cached sector and flushing it writes it to the disk. -/
theorem OnAt.update_flush_at (hlba : lba < c.sectors) {g : Sector → Sector}
    {f : Bool → Prog Drv β} (h : OnAt lba (f true) R (c.put lba (g (c.disk lba)))) :
    OnAt lba (secUpdate g >>= fun _ => secFlush >>= f) R c := by
  rintro s hs rfl rfl
  have hmod : s.secCacheLba % 268435456 = s.secCacheLba :=
    Nat.mod_eq_of_lt (lt_of_lt_of_le hlba hs.lba28)
  have hcache : s.secCache = s.disk s.secCacheLba := by
    rcases hs.coherent with hno | ⟨-, heq⟩
    · have := hs.lba28
      omega
    · exact heq
  simp only [secUpdate, secFlush, ataWrite, modifyStore, wp_bind, wp_modify, wp_asks,
    id_eq, if_true, hs.present, hs.working, hmod, hlba, decide_true, Bool.and_self,
    wp_pure]
  refine h _ ⟨rfl, hs.working, rfl, Or.inr ⟨hlba, ?_⟩, hs.lba28⟩ rfl ?_
  · simp [Store.put]
  · simp [hcache]

theorem OnAt.update_flush (hlba : lba < c.sectors) {g : Sector → Sector}
    {f : Bool → Prog Drv β} (h : On (f true) R (c.put lba (g (c.disk lba)))) :
    OnAt lba (secUpdate g >>= fun _ => secFlush >>= f) R c :=
  OnAt.update_flush_at hlba (OnAt.of_on h)

/-- As `OnAt.update_flush`, for a flush that ends the program. -/
theorem OnAt.update_flush_last {Q : Bool → Store → Prop} (hlba : lba < c.sectors)
    {g : Sector → Sector} (h : Q true (c.put lba (g (c.disk lba)))) :
    OnAt lba (secUpdate g >>= fun _ => secFlush) Q c := by
  intro s hs hl hc
  have hw := OnAt.update_flush (g := g) (f := fun b => Pure.pure b) hlba (On.pure h) s hs hl hc
  simpa using hw

/-- A direct write, to a sector that is not the cached one. -/
theorem OnAt.ataWrite {lba' : Nat} (hlba : lba < c.sectors) (hne : lba ≠ lba') {b : Sector}
    {f : Bool → Prog Drv β} (h : OnAt lba' (f true) R (c.put lba b)) :
    OnAt lba' (ataWrite lba b >>= f) R c := by
  rintro s hs rfl rfl
  have hmod : lba % 268435456 = lba := Nat.mod_eq_of_lt (lt_of_lt_of_le hlba hs.lba28)
  simp only [Fat32.ataWrite, modifyStore, wp_bind, wp_asks, id_eq, if_true, hs.present,
    wp_modify, hs.working, hmod, hlba, decide_true, Bool.and_self, wp_pure]
  refine h _ ⟨rfl, hs.working, hs.clean, ?_, hs.lba28⟩ rfl rfl
  rcases hs.coherent with hno | ⟨hlt, heq⟩
  · exact Or.inl hno
  · refine Or.inr ⟨hlt, ?_⟩
    simp [Store.put, Function.update_of_ne (Ne.symm hne), heq]

theorem On.ataRead (hlba : lba < c.sectors) {f : Option Sector → Prog Drv β}
    (h : On (f (some (c.disk lba))) R c) : On (ataRead lba >>= f) R c := by
  rintro s hs rfl
  have hmod : lba % 268435456 = lba := Nat.mod_eq_of_lt (lt_of_lt_of_le hlba hs.lba28)
  simp only [Fat32.ataRead, wp_bind, wp_asks, id_eq, if_true, hs.present, wp_modify,
    hs.working, hmod, hlba, decide_true, Bool.and_self, wp_pure]
  exact h _ ⟨rfl, hs.working, hs.clean, hs.coherent, hs.lba28⟩ rfl

end SectorIO

end Chimaera.Fat32
