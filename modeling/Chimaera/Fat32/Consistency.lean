/-
The public calls keep a volume consistent, whatever they answer.
-/
import Chimaera.Fat32.Empty
import Chimaera.Fat32.Opening

namespace Chimaera.Fat32

open Prog

variable {α : Type} {w w' : View} {path src dst : CStr} {data : List UInt8}

/-- The volume is consistent, with the parameters `v`. -/
def Saved (v : Vol) : α → View → Prop := fun _ w => w.Consistent ∧ w.vol = v

theorem Saved.of_layout {ch : Nat → List Nat} {D : List Dir} {v : Vol} {a : α}
    (h : w.Layout ch D []) (hv : w.vol = v) : Saved v a w :=
  ⟨⟨ch, D, h⟩, hv⟩

theorem Holds.fat32WriteFile_saved (h : w.Consistent) (hspc : 2 ≤ w.vol.secPerClus)
    (hp : Printable path) : Holds (fat32WriteFile path data) (Saved w.vol) w := by
  obtain ⟨ch, D, hl⟩ := h
  rw [fat32WriteFile]
  apply Holds.fat32Open_write hl hspc hp
  · intro err w' ch' hl' _ hevo _
    rw [if_pos err.code_neg]
    exact Holds.pure (Saved.of_layout hl' hevo.vol)
  · intro fd f w' ch' D' s i run e hlt _ hl' _ hevo hfds ho _
    rw [if_neg (by omega)]
    apply Holds.fat32Write_layout hl' hlt (by rw [hfds, Function.update_self]) ho
    intro m w'' ch'' f' _ hl'' _ hevo' _ ho' hfds'
    apply Holds.fat32Close_layout hl'' hlt (by rw [hfds', Function.update_self]) ho'
    intro w₃ l l' _ _ hl₃ _ hevo₃ _ _ _
    exact Holds.pure (Saved.of_layout hl₃ ((hevo.trans hevo').trans hevo₃).vol)

theorem Holds.fat32Mkdir_saved (h : w.Consistent) (hspc : 2 ≤ w.vol.secPerClus)
    (hp : Printable path) : Holds (Fat32.fat32Mkdir path) (Saved w.vol) w := by
  obtain ⟨ch, D, hl⟩ := h
  rw [← bind_pure (Fat32.fat32Mkdir path)]
  apply Holds.fat32Mkdir hl hspc hp.ne_zero fun l _ => hp.resolveParent.pick83_ne _
  · intro err w' ch' hl' _ hevo _
    exact Holds.pure (Saved.of_layout hl' hevo.vol)
  · intro w' ch' D' hl' _ hevo _
    exact Holds.pure (Saved.of_layout hl' hevo.vol)

theorem Holds.fat32Unlink_saved (h : w.Consistent) :
    Holds (Fat32.fat32Unlink path) (Saved w.vol) w := by
  obtain ⟨ch, D, hl⟩ := h
  rw [← bind_pure (Fat32.fat32Unlink path)]
  apply Holds.fat32Unlink hl
  · exact fun err _ => Holds.pure (Saved.of_layout hl rfl)
  · intro s l l' j run e w' _ _ _ _ _ _ hl' _ hevo _
    exact Holds.pure (Saved.of_layout hl' hevo.vol)

/-- The copy loop started at `w₀`: the source can be read, whatever is in its clusters by now,
and the destination is open on the entry `e`. -/
structure Feeding (w₀ : View) (ch₀ : Nat → List Nat) (D₀ : List Dir) (sf df s i : Nat)
    (run : List DirEntry) (e : DirEntry) (D : List Dir) (T : List Nat) (w : View)
    (ch : Nat → List Nat) : Prop where
  layout : w.Layout ch D T
  read : ReadOn w (w.fds sf)
  openOn : OpenOn w ch D (w.fds df) s i run e
  kept : Kept (fun t k => t = s ∧ k = i) w₀ ch₀ D₀ w ch D
  evolves : w₀.Evolves w

theorem Feeding.step {w₀ : View} {ch₀ ch : Nat → List Nat} {D₀ D : List Dir} {sf df s i : Nat}
    {run : List DirEntry} {e : DirEntry} {T : List Nat}
    (h : Feeding w₀ ch₀ D₀ sf df s i run e D T w ch) (hsf : sf < 16) (hdf : df < 16)
    (hne : sf ≠ df) : Holds (copyStep sf df ()) (fun d w' => ∃ ch',
      Feeding w₀ ch₀ D₀ sf df s i run e D T w' ch' ∧ (d = .inl () →
        (w'.fds sf).size - (w'.fds sf).pos < (w.fds sf).size - (w.fds sf).pos)) w := by
  have hl := h.layout
  have ho := h.openOn
  rw [copyStep]
  apply Holds.fat32Read_tame hl.chains hsf rfl h.read.isOpen h.read.tame h.read.size_lt
  intro bytes cur hpos hlen ht
  obtain ⟨f, hf⟩ : ∃ f, f = (w.fds sf).reads bytes.length cur := ⟨_, rfl⟩
  rw [← hf]
  have hl' : (w.setFd sf f).Layout ch D T := hl.of_eq rfl rfl rfl
  have hread : ReadOn (w.setFd sf f) f :=
    View.Evolves.setFd.tame ht |> fun ht' => by
      subst hf
      exact ⟨h.read.isOpen, h.read.write, ht', h.read.size_lt⟩
  have hdf' : (w.setFd sf f).fds df = w.fds df := Function.update_of_ne (Ne.symm hne) _ _
  have hsf' : (w.setFd sf f).fds sf = f := Function.update_self _ _ _
  have ho' : OpenOn (w.setFd sf f) ch D (w.fds df) s i run e := ho.of_fds rfl
  simp only
  by_cases hn : 0 < bytes.length
  · rw [if_pos (by rw [i32_of_lt (by omega)]; omega)]
    apply Holds.fat32Write_layout hl' hdf hdf' ho'
    intro m w' ch' f' _ hl'' hkept hevo _ ho'' hfds
    have hsf'' : w'.fds sf = f := by
      rw [hfds, Function.update_of_ne hne, hsf']
    have hdf'' : w'.fds df = f' := by rw [hfds, Function.update_self]
    refine Holds.pure ⟨ch', ⟨hl'', ?_, ?_, h.kept.trans hkept.of_setFd,
      h.evolves.trans (View.Evolves.setFd.trans hevo)⟩,
      fun _ => ?_⟩
    · rw [hsf'']
      exact hread.evolves hevo
    · rw [hdf'']
      exact ho''
    · rw [hsf'', hf]
      change (w.fds sf).size - ((w.fds sf).pos + bytes.length) < _
      omega
  · have h0 : bytes.length = 0 := by omega
    rw [h0, if_neg (by decide)]
    refine Holds.pure ⟨ch, ⟨hl', ?_, ?_, h.kept.of_sec rfl,
      h.evolves.trans View.Evolves.setFd⟩, nofun⟩
    · rw [hsf']
      exact hread
    · rw [hdf']
      exact ho'

theorem Feeding.loop {w₀ : View} {ch₀ ch : Nat → List Nat} {D₀ D : List Dir} {sf df s i : Nat}
    {run : List DirEntry} {e : DirEntry} {T : List Nat}
    (h : Feeding w₀ ch₀ D₀ sf df s i run e D T w ch) (hsf : sf < 16) (hdf : df < 16)
    (hne : sf ≠ df) : Holds (Prog.loop (copyStep sf df) ()) (fun _ w' => ∃ ch',
      Feeding w₀ ch₀ D₀ sf df s i run e D T w' ch') w := by
  refine Holds.loop_of_measure (fun _ w => ∃ ch, Feeding w₀ ch₀ D₀ sf df s i run e D T w ch)
    (fun _ w => (w.fds sf).size - (w.fds sf).pos) ?_ ⟨ch, h⟩
  rintro ⟨⟩ w ⟨ch, hw⟩
  refine (hw.step hsf hdf hne).mono ?_
  rintro (⟨⟩ | ⟨⟩) w' ⟨ch', hw', hlt⟩
  · exact ⟨⟨ch', hw'⟩, hlt rfl⟩
  · exact ⟨ch', hw'⟩

/-- Whatever the loop copies: both closes behind it leave the destination with an entry of the
same name. -/
theorem Feeding.closes {R : Int → View → Prop} {w₀ : View} {ch₀ ch : Nat → List Nat}
    {D₀ D : List Dir} {sf df s i : Nat} {run : List DirEntry} {e : DirEntry} {T : List Nat}
    (h : Feeding w₀ ch₀ D₀ sf df s i run e D T w ch) (hsf : sf < 16) (hdf : df < 16)
    (hne : sf ≠ df)
    (hok : ∀ w' ch' l l' f, ⟨s, l⟩ ∈ D → l.Updated l' i run e (stored e f) →
      w'.Layout ch' (setListing D s l') T →
      Kept (fun t k => t = s ∧ k = i) w₀ ch₀ D₀ w' ch' (setListing D s l') →
      w₀.Evolves w' → R 0 w') :
    Holds (do
      Prog.loop (copyStep sf df) ()
      Fat32.fat32Close sf
      Fat32.fat32Close df
      Pure.pure 0) R w := by
  refine Holds.seq (h.loop hsf hdf hne) fun _ w₂ hw₂ => ?_
  obtain ⟨ch₂, hw₂⟩ := hw₂
  apply Holds.fat32Close_read hsf rfl hw₂.read.isOpen hw₂.read.write
  have hdf₂ : (w₂.setFd sf Fd.closed).fds df = w₂.fds df :=
    Function.update_of_ne (Ne.symm hne) _ _
  have hlay₂ : (w₂.setFd sf Fd.closed).Layout ch₂ D T := hw₂.layout.of_eq rfl rfl rfl
  apply Holds.fat32Close_layout hlay₂ hdf hdf₂ (hw₂.openOn.of_fds rfl)
  intro w₃ l l' hd hup hlay₃ hkept₃ hevo₃ _ _ _
  exact Holds.pure (hok w₃ ch₂ l l' _ hd hup hlay₃ (hw₂.kept.trans hkept₃.of_setFd)
    (hw₂.evolves.trans (View.Evolves.setFd.trans hevo₃)))

theorem Holds.fat32Copy_saved (h : w.Consistent) (hspc : 2 ≤ w.vol.secPerClus)
    (hp : Printable dst) : Holds (fat32Copy src dst) (Saved w.vol) w := by
  have hself : ∀ a : Int, Holds (Pure.pure a) (Saved w.vol) w := fun a => Holds.pure ⟨h, rfl⟩
  obtain ⟨ch, D, hl⟩ := h
  rw [fat32Copy]
  apply Holds.getStore
  intro c hc
  rw [hc.mounted]
  cases w.mounted with
  | false => exact hself _
  | true =>
      simp only [Bool.not_true, Bool.false_eq_true, if_false]
      apply Holds.fat32Open_read hl
      · intro err _
        rw [if_pos err.code_neg]
        exact hself _
      intro sf s i run e hsf hclosed hpath hfile hread
      rw [if_neg (by omega)]
      obtain ⟨w₁, hw₁⟩ : ∃ w₁, w₁ = w.setFd sf (openFd w.vol (ch s) false s i e) := ⟨_, rfl⟩
      rw [← hw₁]
      have hv₁ : w₁.vol = w.vol := by rw [hw₁, View.vol_setFd]
      have hl₁ : w₁.Layout ch D [] := by
        rw [hw₁]
        exact hl.of_eq rfl rfl rfl
      have hsf₁ : w₁.fds sf = openFd w.vol (ch s) false s i e := by
        rw [hw₁, View.fds_setFd, Function.update_self]
      have hread₁ : ReadOn w₁ (w₁.fds sf) := by
        rw [hsf₁, hw₁]
        exact hread.evolves View.Evolves.setFd
      apply Holds.fat32Open_write hl₁ (hv₁ ▸ hspc) hp
      · intro err w' ch' hl' _ hevo hkept
        rw [if_pos err.code_neg]
        have hsf' := hkept sf hread₁.isOpen
        apply Holds.fat32Close_read hsf hsf' hread₁.isOpen hread₁.write
        exact Holds.pure (Saved.of_layout (hl'.of_eq rfl rfl rfl) (hevo.vol.trans hv₁))
      · intro df f w' ch' D' s' i' run' e' hdf hclosed' hl' _ hevo hfds ho _
        rw [if_neg (by omega)]
        have hne : sf ≠ df := by
          rintro rfl
          rw [hread₁.isOpen] at hclosed'
          exact absurd hclosed' (by decide)
        have hfeed : Feeding w' ch' D' sf df s' i' run' e' D' [] w' ch' := by
          refine ⟨hl', ?_, ?_, Kept.refl, View.Evolves.refl⟩
          · rw [hfds, Function.update_of_ne hne]
            exact hread₁.evolves hevo
          · rw [hfds, Function.update_self]
            exact ho
        exact hfeed.closes hsf hdf hne fun w₃ ch₃ l l' f _ _ hl₃ _ hevo₃ =>
          Saved.of_layout hl₃ ((hevo₃.vol.trans hevo.vol).trans hv₁)

theorem Holds.fat32Rename_saved (h : w.Consistent) (hspc : 2 ≤ w.vol.secPerClus)
    (hp : Printable dst) : Holds (fat32Rename src dst) (Saved w.vol) w := by
  rw [fat32Rename]
  apply Holds.getStore
  intro c hc
  rw [hc.mounted]
  cases w.mounted with
  | false => exact Holds.pure ⟨h, rfl⟩
  | true =>
      simp only [Bool.not_true, Bool.false_eq_true, if_false]
      refine Holds.seq (Holds.fat32Copy_saved h hspc hp) fun err w' hw' => ?_
      by_cases he : err ≠ 0
      · rw [if_pos he]
        exact Holds.pure hw'
      · rw [if_neg he, ← hw'.2]
        exact Holds.fat32Unlink_saved hw'.1

theorem Holds.fat32Filesize {β : Type} {R : β → View → Prop} {ch : Nat → List Nat} {D : List Dir}
    {T : List Nat} {g : Int → Prog Drv β} (h : w.Layout ch D T)
    (hg : ∀ n, Holds (g n) R w) : Holds (Fat32.fat32Filesize path >>= g) R w := by
  rw [Fat32.fat32Filesize, bind_assoc]
  apply Holds.pathStat h
  cases statPath w.vol ch D path with
  | none =>
      simp only [pure_bind]
      exact hg _
  | some p =>
      simp only
      split <;> exact hg _

theorem Holds.fat32AppendFile_saved (h : w.Consistent) (hspc : 2 ≤ w.vol.secPerClus)
    (hp : Printable path) : Holds (fat32AppendFile path data) (Saved w.vol) w := by
  obtain ⟨ch, D, hl⟩ := h
  rw [fat32AppendFile]
  apply Holds.fat32Filesize hl
  intro sz
  by_cases hneg : sz < 0
  · rw [if_pos hneg]
    exact Holds.fat32WriteFile_saved ⟨ch, D, hl⟩ hspc hp
  · rw [if_neg hneg]
    apply Holds.kmalloc
    intro b w₁ hv₁ hf₁ hsec₁
    have hl₁ := hl.of_eq hv₁ hf₁ hsec₁
    cases b with
    | false =>
        simp only [Bool.false_eq_true, if_false]
        exact Holds.pure (Saved.of_layout hl₁ hv₁)
    | true =>
        simp only [if_true]
        have hwrite : ∀ (w₂ : View) (buf : List UInt8), w₂.Consistent → w₂.vol = w.vol →
            Holds (fat32WriteFile path buf) (Saved w.vol) w₂ := by
          intro w₂ buf hc₂ hv₂
          rw [← hv₂]
          exact Holds.fat32WriteFile_saved hc₂ (hv₂ ▸ hspc) hp
        apply Holds.fat32Open_read hl₁
        · intro err _
          rw [if_neg (by have := err.code_neg; omega), pure_bind]
          exact hwrite w₁ _ ⟨ch, D, hl₁⟩ hv₁
        · intro fd s i run e hlt _ _ _ hread
          rw [if_pos (by omega)]
          obtain ⟨w₂, hw₂⟩ : ∃ w₂, w₂ = w₁.setFd fd (openFd w₁.vol (ch s) false s i e) := ⟨_, rfl⟩
          rw [← hw₂]
          have hl₂ : w₂.Layout ch D [] := by
            rw [hw₂]
            exact hl₁.of_eq rfl rfl rfl
          have hfd₂ : w₂.fds fd = openFd w₁.vol (ch s) false s i e := by
            rw [hw₂, View.fds_setFd, Function.update_self]
          have hread₂ := hread.evolves (show w₁.Evolves w₂ by rw [hw₂]; exact View.Evolves.setFd)
          apply Holds.fat32Read_tame hl₂.chains hlt hfd₂ hread₂.isOpen hread₂.tame hread₂.size_lt
          intro bytes cur _ _ _
          obtain ⟨w₃, hw₃⟩ : ∃ w₃, w₃ = w₂.setFd fd
            ((openFd w₁.vol (ch s) false s i e).reads bytes.length cur) := ⟨_, rfl⟩
          rw [← hw₃]
          have hfd₃ : w₃.fds fd = (openFd w₁.vol (ch s) false s i e).reads bytes.length cur := by
            rw [hw₃, View.fds_setFd, Function.update_self]
          apply Holds.fat32Close_read hlt hfd₃ hread₂.isOpen hread₂.write
          rw [pure_bind]
          refine hwrite _ _ ⟨ch, D, ?_⟩ ?_
          · rw [hw₃, hw₂]
            exact hl₁.of_eq rfl rfl rfl
          · rw [hw₃, hw₂]
            exact hv₁

inductive Call where
  | writeFile (path : CStr) (data : List UInt8)
  | appendFile (path : CStr) (data : List UInt8)
  | mkdir (path : CStr)
  | unlink (path : CStr)
  | copy (src dst : CStr)
  | rename (src dst : CStr)

namespace Call

def run : Call → Prog Drv Int
  | writeFile path data => fat32WriteFile path data
  | appendFile path data => fat32AppendFile path data
  | mkdir path => Fat32.fat32Mkdir path
  | unlink path => Fat32.fat32Unlink path
  | copy src dst => fat32Copy src dst
  | rename src dst => fat32Rename src dst

def paths : Call → List CStr
  | writeFile path _ => [path]
  | appendFile path _ => [path]
  | mkdir path => [path]
  | unlink path => [path]
  | copy src dst => [src, dst]
  | rename src dst => [src, dst]

theorem saved (call : Call) (h : w.Consistent) (hspc : 2 ≤ w.vol.secPerClus)
    (hp : ∀ p ∈ call.paths, Printable p) : Holds call.run (Saved w.vol) w := by
  cases call with
  | writeFile path data => exact Holds.fat32WriteFile_saved h hspc (hp path (by simp [paths]))
  | appendFile path data => exact Holds.fat32AppendFile_saved h hspc (hp path (by simp [paths]))
  | mkdir path => exact Holds.fat32Mkdir_saved h hspc (hp path (by simp [paths]))
  | unlink path => exact Holds.fat32Unlink_saved h
  | copy src dst => exact Holds.fat32Copy_saved h hspc (hp dst (by simp [paths]))
  | rename src dst => exact Holds.fat32Rename_saved h hspc (hp dst (by simp [paths]))

end Call

/-- Every public call that changes the volume answers, and leaves it
consistent: on a disk without errors, for any paths and any data. -/
theorem Call.keeps_consistent (call : Call) {s : Drv} (hs : s.Ready) (hc : s.Consistent)
    (hspc : 2 ≤ s.vol.secPerClus) (hp : ∀ p ∈ call.paths, Printable p) :
    call.run.wp (fun _ s' => s'.Ready ∧ s'.Consistent ∧ s'.vol = s.vol) s := by
  obtain ⟨w, hw, hcons⟩ := hc
  refine ((call.saved hcons (hw.vol ▸ hspc) hp).wp hs hw).mono ?_
  rintro a s' ⟨hs', w', hw', hcons', hv⟩
  exact ⟨hs', ⟨w', hw', hcons'⟩, by rw [hw'.vol, hv, hw.vol]⟩

/-- Writing a file to a fresh volume of four clusters. -/
theorem keeps_consistent_fresh : (fresh 4).Ready ∧ (fresh 4).Consistent ∧
    (Call.writeFile [0x2F, 0x41] [1, 2, 3]).run.wp
      (fun _ s' => s'.Ready ∧ s'.Consistent ∧ s'.vol = freshVol 4) (fresh 4) :=
  ⟨fresh_ready (by omega), (fresh_blank (by omega) (by omega)).consistent,
    Call.keeps_consistent (Call.writeFile [0x2F, 0x41] [1, 2, 3]) (fresh_ready (by omega))
      (fresh_blank (by omega) (by omega)).consistent (by decide)
      (by
        intro p hp
        rw [List.mem_singleton.mp hp]
        simp [Printable])⟩

end Chimaera.Fat32
