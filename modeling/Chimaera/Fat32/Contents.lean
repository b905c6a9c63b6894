/-
The content of a file, read off the disk: the first `file_size` bytes of the
clusters that its entry leads to.
-/
import Chimaera.Fat32.RoundTrip

namespace Chimaera.Fat32

open Prog

variable {w w' : View} {ch ch' : Nat → List Nat} {D D' : List Dir} {T xs ys : List Nat}
  {c : Store} {run : List DirEntry} {e : DirEntry} {s i : Nat} {bs cs : List UInt8}

namespace Store

/-- The clusters of the file with the entry `e`. -/
def FileChain (c : Store) (e : DirEntry) (xs : List Nat) : Prop :=
  if e.cluster = 0 then xs = [] else c.Chain e.cluster xs

/-- Byte `p` of the clusters `xs`. -/
def fileByte (c : Store) (xs : List Nat) (p : Nat) : UInt8 :=
  (c.sec (xs.getD (p / 512 / c.vol.secPerClus) 0) (p / 512 % c.vol.secPerClus)).byte (p % 512)

/-- `bs` is the content of the file with the entry `e`. -/
def Content (c : Store) (e : DirEntry) (bs : List UInt8) : Prop :=
  ∃ xs, c.FileChain e xs ∧ e.size ≤ xs.length * (c.vol.secPerClus * 512) ∧
    bs = (List.range e.size).map (c.fileByte xs)

theorem FileChain.unique (h : c.FileChain e xs) (h' : c.FileChain e ys)
    (hs : c.vol.Sound c.sectors) : xs = ys := by
  unfold FileChain at h h'
  split at h
  · next hc =>
    rw [if_pos hc] at h'
    rw [h, h']
  · next hc =>
    rw [if_neg hc] at h'
    exact Links.Chain.unique (fun _ hk => hs.not_eoc hk) h h'

theorem Content.unique (h : c.Content e bs) (h' : c.Content e cs) (hs : c.vol.Sound c.sectors) :
    bs = cs := by
  obtain ⟨xs, hxs, -, rfl⟩ := h
  obtain ⟨ys, hys, -, rfl⟩ := h'
  rw [hxs.unique hys hs]

theorem Shows.fileByte (hc : c.Shows w) (hr : ∀ k ∈ xs, w.vol.InRange k) {p : Nat}
    (hp : p < xs.length * (w.vol.secPerClus * 512)) : c.fileByte xs p = w.fileByte xs p := by
  have hj : p / 512 % w.vol.secPerClus < w.vol.secPerClus :=
    Nat.mod_lt _ (hc.vol ▸ hc.sound.spc_pos)
  rw [Store.fileByte, View.fileByte, hc.vol, hc.sec (hr _ (View.sector_mem hp)) hj]

end Store

/-- The path names a file with the content `bs`. -/
def Drv.FileIs (s : Drv) (path : CStr) (bs : List UInt8) : Prop :=
  ∃ p, (pathStat path).Answers s (some p) ∧ p.entry.isDir = false ∧ s.toStore.Content p.entry bs

def View.content (w : View) (ch : Nat → List Nat) (e : DirEntry) : List UInt8 :=
  (List.range e.size).map (w.fileByte (fileChain ch e))

namespace View.Layout

theorem size_le (h : w.Layout ch D T) (he : EntryAt D s i run e) (hfile : e.isDir = false) :
    e.size ≤ (fileChain ch e).length * (w.vol.secPerClus * 512) := by
  obtain ⟨d, hd, -, hat⟩ := he
  have hsize := h.tree.size d hd run e hat.mem hfile
  unfold room at hsize
  unfold fileChain
  split
  · next hc => rwa [if_pos hc, ← Nat.zero_mul (w.vol.secPerClus * 512)] at hsize
  · next hc => rwa [if_neg hc] at hsize

theorem fileChain (h : w.Layout ch D T) (hc : c.Shows w) (he : EntryAt D s i run e) :
    c.FileChain e (fileChain ch e) := by
  unfold Store.FileChain Fat32.fileChain
  split
  · rfl
  · next h0 =>
    exact hc.chain (h.chains.chain _ (List.mem_append_left T (he.mem_starts h0))).1

/-- A file has the content that the layout gives it. -/
theorem content_iff (h : w.Layout ch D T) (hc : c.Shows w) (he : EntryAt D s i run e)
    (hfile : e.isDir = false) : c.Content e bs ↔ bs = w.content ch e := by
  have hsize := h.size_le he hfile
  have hcontent : c.Content e (w.content ch e) := by
    refine ⟨Fat32.fileChain ch e, h.fileChain hc he, hc.vol ▸ hsize, List.map_congr_left ?_⟩
    intro p hp
    rw [List.mem_range] at hp
    exact (hc.fileByte (h.fileChain_inRange he) (by omega)).symm
  constructor
  · exact fun hbs => hbs.unique hcontent hc.sound
  · rintro rfl
    exact hcontent

/-- Files that are kept keep their content. -/
theorem content_kept {X : Nat → Nat → Prop} (h : w.Layout ch D T)
    (hk : Kept X w ch D w' ch' D') (hv : w'.vol = w.vol) (he : EntryAt D s i run e)
    (hX : ¬ X s i) (hfile : e.isDir = false) : w'.content ch' e = w.content ch e := by
  have hsize := h.size_le he hfile
  refine List.map_congr_left fun p hp => ?_
  rw [List.mem_range] at hp
  unfold Fat32.fileChain at hsize ⊢
  split at hsize
  · rw [List.length_nil, Nat.zero_mul] at hsize
    omega
  · next h0 =>
    obtain ⟨hch, hsec⟩ := hk.chain s i run e he hX hfile h0
    rw [if_neg h0, if_neg h0, hch]
    exact View.fileByte_congr_of_sec hv hsec (by omega)

end View.Layout

/-- `long letter.txt` -/
def letterName : CStr :=
  [0x6C, 0x6F, 0x6E, 0x67, 0x20, 0x6C, 0x65, 0x74, 0x74, 0x65, 0x72, 0x2E, 0x74, 0x78, 0x74]

def letterEntry : DirEntry := shortEntry (make83 letterName) 0x20 4 5000

@[irreducible] def letterBytes : List UInt8 := List.replicate 5000 0x61

theorem length_letterBytes : letterBytes.length = 5000 := by
  rw [letterBytes, List.length_replicate]

def letterPiece (i : Nat) : DirEntry := lfnEntry letterName (lfnChecksum (make83 letterName)) 2 i

/-- The directory `SUB`. -/
def subEntry : DirEntry := shortEntry (padTo 11 [0x53, 0x55, 0x42]) 0x10 3 0

/-- The empty file `A`. -/
def bareFile : DirEntry := shortEntry (padTo 11 [0x41]) 0x20 0 0

/-- A root directory with the directory `SUB` and the file `long letter.txt`. -/
def Listing.stockedRoot : Listing where
  items := [.entry [] subEntry, .entry [letterPiece 2, letterPiece 1] letterEntry]
  tail := List.replicate 124 (Block.zero 32)
  ok := by
    simp only [List.forall_mem_cons, List.not_mem_nil, false_imp_iff, implies_true, and_true]
    refine ⟨⟨⟨trivial, by decide⟩, by decide, by decide, by decide, by decide⟩,
      ⟨⟨⟨⟨by decide, by decide +kernel, by decide⟩,
      ⟨by decide, by decide +kernel, by decide⟩, trivial⟩, by decide⟩, by decide, by decide, by decide,
      by decide⟩⟩
  zero := ZeroTail.zeros 124

/-- The directory `SUB`, with the file `A`. -/
def Listing.stockedSub : Listing where
  items := [.dot (dotEntry dotName 3), .dot (dotEntry dotdotName 0), .entry [] bareFile]
  tail := List.replicate 125 (Block.zero 32)
  ok := by
    simp only [List.forall_mem_cons, List.not_mem_nil, false_imp_iff, implies_true, and_true]
    exact ⟨⟨by decide, by decide⟩, ⟨by decide, by decide⟩,
      ⟨trivial, by decide⟩, by decide, by decide, by decide, by decide⟩
  zero := ZeroTail.zeros 125

/-- A volume of six clusters: the root directory, `SUB`, two for the file, and two free ones. -/
def stocked : Drv :=
  { fresh 6 with
    disk := fun lba =>
      if lba = 32 ∨ lba = 40 then
        ((fatHead.patch 12 (leBytes 4 0x0FFFFFFF)).patch 16 (leBytes 4 5)).patch 20
          (leBytes 4 0x0FFFFFFF)
      else if lba = 48 then
        ((((Block.zero 512).patch 0 subEntry.toList).patch 32 (letterPiece 2).toList).patch 64
          (letterPiece 1).toList).patch 96 letterEntry.toList
      else if lba = 56 then
        (((Block.zero 512).patch 0 (dotEntry dotName 3).toList).patch 32
          (dotEntry dotdotName 0).toList).patch 64 bareFile.toList
      else if 64 ≤ lba ∧ lba < 80 then fun _ => 0x61
      else Block.zero 512 }

def stockedChain (k : Nat) : List Nat := if k = 4 then [4, 5] else [k]

def stockedDirs : List Dir := [⟨2, Listing.stockedRoot⟩, ⟨3, Listing.stockedSub⟩]

theorem stocked_ready : stocked.Ready :=
  ⟨rfl, fun _ => rfl, rfl, Or.inl rfl, by decide⟩

theorem stocked_disk_zero {lba : Nat} (h : lba < 48) (h32 : lba ≠ 32) (h40 : lba ≠ 40) :
    stocked.disk lba = Block.zero 512 := by
  simp only [stocked]
  rw [if_neg (by omega), if_neg (by omega), if_neg (by omega), if_neg (by omega)]

theorem stocked_shows : stocked.toStore.Shows stocked.toStore.view := by
  refine ⟨rfl, ⟨by decide, by decide, by decide, by decide, by decide, by decide, by decide,
    by decide⟩, fun f s hf hs => ?_⟩
  change f < 2 at hf
  change s < 8 at hs
  change stocked.disk (32 + f * 8 + s) = stocked.disk (32 + s)
  by_cases h0 : s = 0
  · obtain rfl | rfl : f = 0 ∨ f = 1 := by omega
    · rfl
    · rw [h0]
      rfl
  · rw [stocked_disk_zero (by omega) (by omega) (by omega),
      stocked_disk_zero (by omega) (by omega) (by omega)]

theorem mem_stocked {d : Dir} {run : List DirEntry} {e : DirEntry} (hd : d ∈ stockedDirs)
    (he : Item.entry run e ∈ d.listing.items) :
    d.start = 2 ∧ (run = [] ∧ e = subEntry ∨ run = [letterPiece 2, letterPiece 1] ∧ e = letterEntry) ∨
      d.start = 3 ∧ run = [] ∧ e = bareFile := by
  rcases List.mem_pair.mp hd with rfl | rfl
  · rcases List.mem_pair.mp he with h | h
    · cases h
      exact Or.inl ⟨rfl, Or.inl ⟨rfl, rfl⟩⟩
    · cases h
      exact Or.inl ⟨rfl, Or.inr ⟨rfl, rfl⟩⟩
  · simp only [Listing.stockedSub, List.mem_cons, reduceCtorEq, Item.entry.injEq, List.not_mem_nil,
      or_false, false_or] at he
    exact Or.inr ⟨rfl, he⟩

theorem stocked_layout : stocked.toStore.view.Layout stockedChain stockedDirs [] := by
  have hstarts : starts stocked.toStore.view.vol stockedDirs ++ [] = [2, 3, 4] := by decide
  have hfat : stocked.toStore.view.fat 2 = 0x0FFFFFFF ∧ stocked.toStore.view.fat 3 = 0x0FFFFFFF ∧
      stocked.toStore.view.fat 4 = 5 ∧ stocked.toStore.view.fat 5 = 0x0FFFFFFF := by
    decide +kernel
  have hfree : stocked.toStore.view.fat 6 = 0 ∧ stocked.toStore.view.fat 7 = 0 := by
    decide +kernel
  have hlast : ∀ k, 2 ≤ k ∧ k < 8 → stocked.toStore.view.fat k = 0x0FFFFFFF →
      stocked.toStore.view.Chain k [k] := fun k hk h =>
    Links.Chain.cons_iff.mpr ⟨rfl, hk, Links.Chain.nil_iff.mpr (h ▸ by decide)⟩
  refine ⟨⟨?_, ?_, ?_⟩, ⟨⟨_, List.mem_cons_self, rfl⟩, by decide, ?_, ?_, ?_, ?_⟩⟩
  · rw [hstarts]
    simp only [List.forall_mem_cons, List.not_mem_nil, false_imp_iff, implies_true, and_true]
    refine ⟨⟨hlast 2 (by decide) hfat.1, by decide⟩, ⟨hlast 3 (by decide) hfat.2.1, by decide⟩,
      Links.Chain.cons_iff.mpr ⟨rfl, by decide, ?_⟩, by decide⟩
    rw [hfat.2.2.1]
    exact hlast 5 (by decide) hfat.2.2.2
  · rw [hstarts]
    decide
  · intro k hk h0 _
    rw [hstarts]
    have hk : 2 ≤ k ∧ k < 8 := hk
    have h6 : k ≠ 6 := fun h => h0 (h ▸ hfree.1)
    have h7 : k ≠ 7 := fun h => h0 (h ▸ hfree.2)
    obtain rfl | rfl | rfl | rfl : k = 2 ∨ k = 3 ∨ k = 4 ∨ k = 5 := by omega
    all_goals decide
  · simp only [stockedDirs, List.forall_mem_cons, List.not_mem_nil, false_imp_iff, implies_true,
      and_true]
    exact ⟨by decide +kernel, by decide +kernel⟩
  · intro d hd run e he hdir _
    rcases mem_stocked hd he with ⟨-, ⟨-, rfl⟩ | ⟨-, rfl⟩⟩ | ⟨-, -, rfl⟩
    · exact ⟨⟨3, Listing.stockedSub⟩, by simp [stockedDirs], by decide⟩
    · exact absurd hdir (by decide)
    · exact absurd hdir (by decide)
  · intro d hd
    rcases List.mem_pair.mp hd with rfl | rfl
    · exact Reach.root
    · exact @Reach.sub _ _ ⟨2, Listing.stockedRoot⟩ [] subEntry List.mem_cons_self Reach.root
        List.mem_cons_self (by decide) (by decide)
  · intro d hd run e he _
    rcases mem_stocked hd he with ⟨-, ⟨-, rfl⟩ | ⟨-, rfl⟩⟩ | ⟨-, -, rfl⟩
    · decide
    · decide
    · decide

theorem stocked_consistent : stocked.Consistent := ⟨_, stocked_shows, _, _, stocked_layout⟩

theorem stocked_pathAt : PathAt stocked.vol stockedDirs (0x2F :: letterName) 2 3
    [letterPiece 2, letterPiece 1] letterEntry := by
  have hres : resolveParent stocked.vol stockedDirs (0x2F :: letterName) = (2, letterName) :=
    resolveParent_single (by decide) (by decide) (by decide +kernel)
  refine ⟨Listing.stockedRoot, 1, List.mem_cons_self, ?_⟩
  rw [hres]
  exact ⟨rfl, by decide, by rfl, rfl⟩

end Chimaera.Fat32
