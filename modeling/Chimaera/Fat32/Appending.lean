/-
`fat32_append_file` reads the whole file, and writes it again with the new bytes behind
it.  What it promises holds where the old size is a positive `int` and everything fits.
-/
import Chimaera.Fat32.Files

namespace Chimaera.Fat32

open Prog

variable {w w' : View} {ch ch' : Nat → List Nat} {D D' : List Dir} {T : List Nat}
  {run : List DirEntry} {e : DirEntry} {s i n k : Nat} {path : CStr} {old data bs : List UInt8}
  {t : Drv}

theorem i32_neg_iff {m : Nat} (h : m < 4294967296) : i32 m < 0 ↔ 2147483648 ≤ m := by
  rcases Nat.lt_or_ge m 2147483648 with hlt | hge
  · rw [i32_of_lt hlt]
    omega
  · unfold i32
    omega

/-- The answer of `fat32_write_file` for `len` bytes where `k` can be stored. -/
def writeAnswer (len k : Nat) : Int := if i32 (min len k) < 0 then Err.io.code else 0

theorem writeAnswer_eq_zero_iff {len : Nat} (h : len < 4294967296) :
    writeAnswer len k = 0 ↔ min len k < 2147483648 := by
  unfold writeAnswer
  have hio := Err.io.code_neg
  have hneg := i32_neg_iff (m := min len k) (by omega)
  split <;> omega

/-- The content `bs` after the answer `r` is what appending `data` to `old` promises. -/
def Appended (old data : List UInt8) (r : Int) (bs : List UInt8) : Prop :=
  (r = 0 → bs = old ++ data) ∧ (r ≠ 0 → bs = old)

theorem Appended.of_neg {r : Int} (h : r < 0) : Appended old data r old :=
  ⟨fun h0 => by omega, fun _ => rfl⟩

/-- Writing the old content and the new bytes behind it. -/
theorem appended_rewritten (hold : old.length < 2147483648) (hdata : data.length < 4294967296)
    (hbs : bs = (old ++ data).take (u32 (old.length + data.length))) :
    Appended old data (writeAnswer bs.length k) (bs.take k) ↔
      old.length + data.length < 2147483648 ∧ old.length + data.length ≤ k := by
  have hlen : bs.length = u32 (old.length + data.length) := by
    rw [hbs, List.length_take, List.length_append]
    unfold u32
    omega
  have hu : u32 (old.length + data.length) < 4294967296 := by
    unfold u32
    omega
  have hzero := writeAnswer_eq_zero_iff (k := k) (hlen ▸ hu)
  have htake : (bs.take k).length = min bs.length k := by
    rw [List.length_take, Nat.min_comm]
  constructor
  · rintro ⟨hok, herr⟩
    by_cases h0 : writeAnswer bs.length k = 0
    · have hlt := hzero.mp h0
      rw [hok h0, List.length_append] at htake
      omega
    · have hge := mt hzero.mpr h0
      rw [herr h0] at htake
      omega
  · rintro ⟨hlt, hle⟩
    have hself : u32 (old.length + data.length) = old.length + data.length :=
      Nat.mod_eq_of_lt (by omega)
    have hwhole : bs = old ++ data := by
      rw [hbs, hself, ← List.length_append, List.take_length]
    have h0 : writeAnswer bs.length k = 0 := hzero.mpr (by omega)
    refine ⟨fun _ => ?_, fun hne => absurd h0 hne⟩
    rw [hwhole, List.take_of_length_le]
    rw [List.length_append]
    exact hle

/-- Writing the new bytes alone, over a file that is too long for an `int`. -/
theorem appended_replaced (hold : 2147483648 ≤ old.length) (hdata : data.length < 4294967296) :
    Appended old data (writeAnswer data.length k) (data.take k) ↔
      2147483648 ≤ min data.length k ∧ data.take k = old := by
  have hzero := writeAnswer_eq_zero_iff (k := k) hdata
  have htake : (data.take k).length = min data.length k := by
    rw [List.length_take, Nat.min_comm]
  constructor
  · rintro ⟨hok, herr⟩
    by_cases h0 : writeAnswer data.length k = 0
    · have hlt := hzero.mp h0
      rw [hok h0, List.length_append] at htake
      omega
    · have hge := mt hzero.mpr h0
      exact ⟨by omega, herr h0⟩
  · rintro ⟨hge, hsame⟩
    refine ⟨fun h0 => ?_, fun _ => hsame⟩
    have := hzero.mp h0
    omega

/-- Where the file is written again, all of it fits, and the sizes stay in the range of an
`int`.  A file that is too long for that survives only when the new bytes begin with it. -/
def AppendFits (opens grants : Prop) (old data : List UInt8) (n cs : Nat) : Prop :=
  opens → n ≠ 0 →
    if old.length < 2147483648 then
      grants → old.length + data.length < 2147483648 ∧ old.length + data.length ≤ n * cs
    else 2147483648 ≤ min data.length (n * cs) ∧ data.take (n * cs) = old

/-- The heap has room for `size` bytes, the way `kmalloc` counts. -/
def Grants (heapPtr size : Nat) : Prop := u32 (heapPtr + u32 (size + 3) / 4 * 4) ≤ 2097152

/-- What is known of the volume after `fat32_append_file`. -/
def Outcome (path : CStr) (old data : List UInt8) (fits : Prop) (T : List Nat) (r : Int)
    (w : View) : Prop :=
  ∃ ch D bs, w.Layout ch D T ∧ w.FileIs ch D path bs ∧ (Appended old data r bs ↔ fits)

/-- The last step: the buffer is written over the file. -/
theorem Holds.append_write {fits : Prop} (h : w.Layout ch D T) (hz : ∀ c ∈ path, c ≠ 0)
    (hp : PathAt w.vol D path s i run e) (hfile : e.isDir = false)
    (hold : w.content ch e = old) (h32 : bs.length < 4294967296)
    (hn : n = (fileChain ch e).length + w.freeCount)
    (hno : (Admits w ch D path true → n = 0) → fits)
    (hyes : Admits w ch D path true → n ≠ 0 →
      (Appended old data (writeAnswer bs.length (n * (w.vol.secPerClus * 512)))
        (bs.take (n * (w.vol.secPerClus * 512))) ↔ fits)) :
    Holds (Fat32.fat32WriteFile path bs) (Outcome path old data fits T) w := by
  apply Holds.fat32WriteFile_file h hz hp hfile h32 hn
  · intro err w' ch' hnot hlay hfileIs
    rw [hold] at hfileIs
    exact ⟨ch', D, old, hlay, hfileIs, iff_of_true (Appended.of_neg err.code_neg) (hno hnot)⟩
  · intro w' ch' D' ha h0 hlay hfileIs
    exact ⟨ch', D', _, hlay, hfileIs, hyes ha h0⟩

theorem Holds.fat32AppendFile (h : w.Layout ch D T) (hz : ∀ c ∈ path, c ≠ 0)
    (hp : PathAt w.vol D path s i run e) (hfile : e.isDir = false)
    (hold : w.content ch e = old) (hdata : data.length < 4294967296)
    (hn : n = (fileChain ch e).length + w.freeCount) :
    Holds (Fat32.fat32AppendFile path data) (Outcome path old data
      (AppendFits (Admits w ch D path true)
        (Grants w.heapPtr (u32 (old.length + data.length + 1))) old data n
        (w.vol.secPerClus * 512)) T) w := by
  have hsize : e.size = old.length := by rw [← hold, length_content]
  have hsame : w.FileIs ch D path old := ⟨s, i, run, e, hp, hfile, hold⟩
  rw [Fat32.fat32AppendFile]
  apply Holds.fat32Filesize_file h hp hfile
  have hlt32 := DirEntry.size_lt e
  by_cases hbig : old.length < 2147483648
  · rw [hsize, i32_of_lt hbig, if_neg (by omega), Int.toNat_natCast]
    apply Holds.kmalloc_heap
    · intro hfull
      refine Holds.pure ⟨ch, D, old, h, hsame,
        iff_of_true (Appended.of_neg Err.noMem.code_neg) fun _ _ => ?_⟩
      rw [if_pos hbig]
      intro hgrants
      exact absurd hgrants (Nat.not_le.mpr hfull)
    · intro hgrants
      simp only [if_true]
      obtain ⟨w₁, hw₁⟩ : ∃ w₁, w₁ = { w with
          heapPtr := u32 (w.heapPtr + u32 (u32 (old.length + data.length + 1) + 3) / 4 * 4) } :=
        ⟨_, rfl⟩
      rw [← hw₁]
      have halike : w.Alike w₁ := by
        rw [hw₁]
        exact ⟨rfl, rfl, rfl, rfl, rfl, fun _ => rfl⟩
      have hl₁ := halike.layout h
      have hp₁ := halike.pathAt hp
      apply Holds.fat32Open_read hl₁
      · intro err hno
        have hnot : ¬ Admits w ch D path true := fun ha =>
          hno (halike.admits_iff.mpr (ha.read h hp))
        rw [if_neg (by have := err.code_neg; omega), pure_bind]
        refine Holds.append_write hl₁ hz hp₁ hfile
          ((halike.content h hp.entryAt hfile).trans hold) ?_ rfl ?_ ?_
        · rw [List.length_take]
          unfold u32
          omega
        · exact fun _ ha => absurd ha hnot
        · exact fun ha => absurd (halike.admits_iff.mp ha) hnot
      · intro fd s' i' run' e' hlt hclosed hp' hfile' hread
        obtain ⟨rfl, rfl, rfl, rfl⟩ := hp'.unique hp₁ h.tree.nodup
        rw [if_pos (by omega)]
        have hl₂ : (w₁.setFd fd (openFd w₁.vol (ch s') false s' i' e')).Layout ch D T :=
          hl₁.of_eq rfl rfl rfl
        have hreading : Reading (w₁.setFd fd (openFd w₁.vol (ch s') false s' i' e')) ch D fd s' i'
            run' e' 0 :=
          reading_openFd hl₂ hp.entryAt hfile (by rw [View.fds_setFd, Function.update_self])
        apply Holds.fat32Read_reading hl₂ hreading hlt
        intro f hreading'
        have hcontent : (w₁.setFd fd (openFd w₁.vol (ch s') false s' i' e')).content ch e' = old :=
          (halike.content h hp.entryAt hfile).trans hold
        apply Holds.fat32Close_read hlt rfl hreading'.isOpen hreading'.write
        rw [pure_bind, hcontent, List.drop_zero, List.take_length, Nat.sub_self,
          List.replicate_zero, List.append_nil]
        obtain ⟨w₃, hw₃⟩ : ∃ w₃, w₃ =
            ((w₁.setFd fd (openFd w₁.vol (ch s') false s' i' e')).setFd fd f).setFd fd
              Fd.closed := ⟨_, rfl⟩
        rw [← hw₃]
        have halike₃ : w.Alike w₃ := by
          rw [hw₃]
          refine ⟨halike.vol, halike.fat, halike.sec, halike.mounted, halike.readonly, fun j => ?_⟩
          simp only [View.fds_setFd, Function.update_idem, Function.update_apply]
          split
          · next hj =>
            rw [hj, ← halike.isOpen fd, hclosed]
            rfl
          · exact halike.isOpen j
        refine Holds.append_write (halike₃.layout h) hz (halike₃.pathAt hp) hfile
          ((halike₃.content h hp.entryAt hfile).trans hold) ?_ rfl ?_ ?_
        · rw [List.length_take]
          unfold u32
          omega
        · intro hnot ha h0
          refine absurd (hnot (halike₃.admits_iff.mpr ha)) ?_
          rw [halike₃.freeCount, ← hn]
          exact h0
        · intro ha h0
          rw [halike₃.freeCount, ← hn] at h0 ⊢
          rw [halike₃.vol, appended_rewritten hbig hdata rfl]
          unfold AppendFits
          rw [if_pos hbig]
          exact ⟨fun hfits _ _ _ => hfits, fun hfits =>
            hfits (halike₃.admits_iff.mp ha) h0 hgrants⟩
  · have hneg : i32 e.size < 0 := (i32_neg_iff hlt32).mpr (by omega)
    rw [if_pos hneg]
    refine Holds.append_write h hz hp hfile hold hdata hn ?_ ?_
    · exact fun hnot ha h0 => absurd (hnot ha) h0
    · intro ha h0
      rw [appended_replaced (by omega) hdata]
      unfold AppendFits
      rw [if_neg hbig]
      exact ⟨fun hfits _ _ => hfits, fun hfits => hfits ha h0⟩

/-- A success means that `data` is behind the old content, and an error that nothing but
the old content is there. -/
def Appends (path : CStr) (old data : List UInt8) (r : Int) (s : Drv) : Prop :=
  (r = 0 → s.FileIs path (old ++ data)) ∧ (r ≠ 0 → s.FileIs path old)

/-- The condition on the state before the call, for a file with the content `old`. -/
def Drv.AppendFits (s : Drv) (path : CStr) (old data : List UInt8) : Prop :=
  ∀ n, s.Room path n → Fat32.AppendFits (s.Opens path)
    (Grants s.heapPtr (u32 (old.length + data.length + 1))) old data n (s.vol.secPerClus * 512)

theorem View.Layout.appendFits_iff (h : w.Layout ch D T) (ht : t.Ready) (hw : t.toStore.Shows w)
    (hp : PathAt w.vol D path s i run e)
    (hn : n = (Fat32.fileChain ch e).length + w.freeCount) :
    t.AppendFits path old data ↔ AppendFits (Admits w ch D path true)
      (Grants w.heapPtr (u32 (old.length + data.length + 1))) old data n
      (w.vol.secPerClus * 512) := by
  have hopens := h.opens_iff ht hw path
  have hroom : w.Room ch D path n := by
    have hex := View.Room.existing (w := w) (statPath_of_pathAt h hp)
    simp only [← hn] at hex
    exact hex
  have hne := hp.parent_ne h
  unfold Drv.AppendFits
  rw [hw.heapPtr, hw.vol]
  constructor
  · intro hf ha
    exact hf n ((h.room_iff ht hw ha hne).mpr hroom) (hopens.mpr ⟨ha, hne⟩)
  · intro hf m hm hop
    have ha := (hopens.mp hop).1
    rw [((h.room_iff ht hw ha hne).mp hm).unique hroom h.tree.nodup]
    exact hf ha

/-- `fat32_append_file` keeps what was there exactly where the whole file fits. -/
theorem append_keeps_iff (ht : t.Ready) (hc : t.Consistent) (hz : ∀ c ∈ path, c ≠ 0)
    (hold : t.FileIs path old) (hdata : data.length < 4294967296) :
    (fat32AppendFile path data).wp (Appends path old data) t ↔ t.AppendFits path old data := by
  obtain ⟨w, hw, ch, D, h⟩ := hc
  obtain ⟨s, i, run, e, hp, hfile, hcontent⟩ := (h.fileIs_iff ht hw).mp hold
  rw [h.appendFits_iff ht hw hp rfl]
  obtain ⟨r, t', hr, ht', w', hw', ch', D', bs, hlay, hfileIs, hiff⟩ :=
    (Holds.fat32AppendFile h hz hp hfile hcontent hdata rfl).wp ht hw
  rw [hr.wp_iff, ← hiff]
  simp only [Appends, Appended, hlay.fileIs_iff ht' hw', hfileIs.iff hlay.tree.nodup]
  rw [@eq_comm _ bs, @eq_comm _ bs]

section Holding

/-- Two bytes behind a file of two clusters. -/
theorem append_keeps_stocked : (fat32AppendFile (0x2F :: letterName) [1, 2]).wp
    (Appends (0x2F :: letterName) letterBytes [1, 2]) stocked := by
  have hfits : stocked.AppendFits (0x2F :: letterName) letterBytes [1, 2] := by
    refine (stocked_layout.appendFits_iff stocked_ready stocked_shows stocked_pathAt rfl).mpr
      fun _ _ => ?_
    have hchain : (Fat32.fileChain stockedChain letterEntry).length = 2 := by decide +kernel
    have hcs : stocked.toStore.view.vol.secPerClus * 512 = 4096 := rfl
    rw [hchain, hcs, length_letterBytes, if_pos (by decide)]
    intro _
    simp only [List.length_nil, List.length_cons]
    omega
  exact (append_keeps_iff stocked_ready stocked_consistent (by decide +kernel) stocked_fileIs
    (by decide)).mpr hfits

/-- One byte more than the free clusters hold: the rest is lost, and the call reports
success. -/
theorem append_loses : holding.Ready ∧ holding.Consistent ∧ holding.FileIs [0x2F, 0x41] [] ∧
    ¬ (fat32AppendFile [0x2F, 0x41] (List.replicate 12289 0)).wp
      (Appends [0x2F, 0x41] [] (List.replicate 12289 0)) holding := by
  refine ⟨holding_ready, holding_consistent, holding_fileIs, fun hwp => ?_⟩
  rw [append_keeps_iff holding_ready holding_consistent (by simp) holding_fileIs
    (by rw [List.length_replicate]; omega),
    holding_layout.appendFits_iff holding_ready holding_shows holding_pathAt rfl] at hwp
  have hfits := hwp holding_admits
  rw [holding_freeCount] at hfits
  have h := hfits (by decide)
  rw [if_pos (by decide)] at h
  have hgrants : Grants 0 (u32 (0 + 12289 + 1)) := by
    unfold Grants
    decide
  have hle := (h (by
    rw [List.length_replicate]
    exact hgrants)).2
  rw [List.length_replicate] at hle
  exact absurd hle (by decide)

end Holding

end Chimaera.Fat32
