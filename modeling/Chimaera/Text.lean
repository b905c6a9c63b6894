/-
Text that is read line by line, with the rules of Python's `open`, `splitlines` and
`strip`, and the decimal notation of numbers.  Nothing here depends on what the lines say.
-/
import Mathlib.Data.List.Basic
import Mathlib.Tactic.Common

namespace Chimaera.Text

variable {a b cur line : List Char} {c : Char}

/-- `str.isspace` -/
def isSpace (c : Char) : Bool :=
  let n := c.toNat
  (9 ≤ n && n ≤ 13) || (28 ≤ n && n ≤ 32) || n == 0x85 || n == 0xA0 || n == 0x1680 ||
    (0x2000 ≤ n && n ≤ 0x200A) || n == 0x2028 || n == 0x2029 || n == 0x202F || n == 0x205F ||
    n == 0x3000

/-- The characters that end a line for `str.splitlines`. -/
def isLineEnd (c : Char) : Bool :=
  let n := c.toNat
  (10 ≤ n && n ≤ 13) || (28 ≤ n && n ≤ 30) || n == 0x85 || n == 0x2028 || n == 0x2029

/-- The newline translation of a file that is open as text; `cr` behind a `'\r'`, which
swallows the `'\n'` of its own line. -/
def universalNewlines (cr : Bool) : List Char → List Char
  | [] => []
  | c :: cs =>
    if c = '\r' then '\n' :: universalNewlines true cs
    else if c = '\n' ∧ cr = true then universalNewlines false cs
    else c :: universalNewlines false cs

/-- `str.splitlines` behind the characters `cur` of a line, on text without `'\r'`. -/
def splitLines (cur : List Char) : List Char → List (List Char)
  | [] => if cur = [] then [] else [cur]
  | c :: cs => if isLineEnd c then cur :: splitLines [] cs else splitLines (cur ++ [c]) cs

/-- `str.strip` -/
def strip (s : List Char) : List Char :=
  ((s.dropWhile isSpace).reverse.dropWhile isSpace).reverse

def linesOf (text : List Char) : List (List Char) := splitLines [] (universalNewlines false text)

theorem universalNewlines_newline {cr : Bool} : universalNewlines cr (a ++ '\n' :: b) =
    universalNewlines cr (a ++ ['\n']) ++ universalNewlines false b := by
  induction a generalizing cr with
  | nil =>
      cases cr with
      | false => rfl
      | true => rfl
  | cons c a ih =>
      simp only [List.cons_append, universalNewlines, ih]
      split
      · rfl
      · split
        · rfl
        · rfl

/-- The translation keeps the line end, except for the rest of one. -/
theorem universalNewlines_end {cr : Bool} (h : a = [] → cr = false) :
    ∃ s, universalNewlines cr (a ++ ['\n']) = s ++ ['\n'] := by
  induction a generalizing cr with
  | nil =>
      rw [h rfl]
      exact ⟨[], rfl⟩
  | cons c a ih =>
      by_cases hr : c = '\r'
      · by_cases ha : a = []
        · subst hr ha
          exact ⟨[], by cases cr <;> rfl⟩
        · obtain ⟨s, hs⟩ : ∃ s, universalNewlines true (a ++ ['\n']) = s ++ ['\n'] :=
            ih fun h => absurd h ha
          exact ⟨'\n' :: s, by simp only [List.cons_append, universalNewlines, if_pos hr, hs]⟩
      · obtain ⟨s, hs⟩ : ∃ s, universalNewlines false (a ++ ['\n']) = s ++ ['\n'] :=
          ih fun _ => rfl
        by_cases hn : c = '\n' ∧ cr = true
        · exact ⟨s, by simp only [List.cons_append, universalNewlines, if_neg hr, if_pos hn, hs]⟩
        · exact ⟨c :: s, by
            simp only [List.cons_append, universalNewlines, if_neg hr, if_neg hn, hs]⟩

/-- A line end cuts the text in two. -/
theorem splitLines_newline : splitLines cur (a ++ '\n' :: b) =
    splitLines cur (a ++ ['\n']) ++ splitLines [] b := by
  induction a generalizing cur with
  | nil => rfl
  | cons c a ih =>
      simp only [List.cons_append, splitLines]
      split
      · rw [ih, List.cons_append]
      · exact ih

/-- A text that is empty or ends with a line end. -/
def Whole (text : List Char) : Prop := text = [] ∨ ∃ s, text = s ++ ['\n']

theorem linesOf_append (h : Whole a) : linesOf (a ++ b) = linesOf a ++ linesOf b := by
  rcases h with rfl | ⟨s, rfl⟩
  · rfl
  · obtain ⟨t, ht⟩ : ∃ t, universalNewlines false (s ++ ['\n']) = t ++ ['\n'] :=
      universalNewlines_end fun _ => rfl
    rw [linesOf, linesOf, List.append_assoc, List.singleton_append, universalNewlines_newline, ht,
      List.append_assoc, List.singleton_append, splitLines_newline]
    rfl

theorem splitLines_line (h : ∀ c ∈ line, isLineEnd c = false) :
    splitLines cur (line ++ ['\n']) = [cur ++ line] := by
  induction line generalizing cur with
  | nil => rw [List.append_nil]; rfl
  | cons c line ih =>
      rw [List.cons_append, splitLines, h c List.mem_cons_self, if_neg Bool.false_ne_true,
        ih fun d hd => h d (List.mem_cons_of_mem c hd), List.append_assoc]
      rfl

theorem universalNewlines_line (h : ∀ c ∈ line, isLineEnd c = false) :
    universalNewlines false (line ++ ['\r', '\n']) = line ++ ['\n'] := by
  induction line with
  | nil => rfl
  | cons c line ih =>
      have hc := h c List.mem_cons_self
      have hr : c ≠ '\r' := by
        rintro rfl
        exact absurd hc (by decide)
      rw [List.cons_append, universalNewlines, if_neg hr, if_neg (by simp),
        ih fun d hd => h d (List.mem_cons_of_mem c hd)]
      rfl

/-- A line as a serial port prints it. -/
theorem linesOf_line (h : ∀ c ∈ line, isLineEnd c = false) :
    linesOf (line ++ ['\r', '\n'] ++ b) = line :: linesOf b := by
  have hwhole : Whole (line ++ ['\r', '\n']) := Or.inr ⟨line ++ ['\r'], by simp⟩
  rw [linesOf_append hwhole]
  rw [linesOf, universalNewlines_line h, splitLines_line h]
  rfl

theorem linesOf_flatMap {lines : List (List Char)}
    (h : ∀ line ∈ lines, ∀ c ∈ line, isLineEnd c = false) :
    linesOf ((lines.flatMap fun line => line ++ ['\r', '\n']) ++ b) = lines ++ linesOf b := by
  induction lines with
  | nil => rfl
  | cons line lines ih =>
      rw [List.flatMap_cons, List.append_assoc, linesOf_line (h line List.mem_cons_self),
        ih fun l hl => h l (List.mem_cons_of_mem line hl), List.cons_append]

theorem strip_of_ends {d : Char} (hc : isSpace c = false) (hd : isSpace d = false) :
    strip (c :: (a ++ [d])) = c :: (a ++ [d]) := by
  rw [strip, List.dropWhile_cons, hc, if_neg Bool.false_ne_true, ← List.cons_append,
    List.reverse_append, List.reverse_singleton, List.singleton_append, List.dropWhile_cons, hd,
    if_neg Bool.false_ne_true, List.reverse_cons, List.reverse_reverse]

theorem strip_of_no_space (h : ∀ c ∈ a, isSpace c = false) : strip a = a := by
  rcases a.eq_nil_or_concat' with rfl | ⟨s, d, rfl⟩
  · rfl
  · cases s with
    | nil =>
        have hd := h d (by simp)
        simp [strip, hd]
    | cons c s => exact strip_of_ends (h c (by simp)) (h d (by simp))

theorem isDigit_toNat (h : c.isDigit = true) : 48 ≤ c.toNat ∧ c.toNat ≤ 57 := by
  rw [Char.isDigit, Bool.and_eq_true, decide_eq_true_eq, decide_eq_true_eq] at h
  exact ⟨UInt32.le_iff_toNat_le.mp h.1, UInt32.le_iff_toNat_le.mp h.2⟩

theorem isSpace_of_isDigit (h : c.isDigit = true) : isSpace c = false := by
  have := isDigit_toNat h
  simp only [isSpace, Bool.or_eq_false_iff, Bool.and_eq_false_iff, decide_eq_false_iff_not,
    beq_eq_false_iff_ne]
  omega

theorem isLineEnd_of_isDigit (h : c.isDigit = true) : isLineEnd c = false := by
  have := isDigit_toNat h
  simp only [isLineEnd, Bool.or_eq_false_iff, Bool.and_eq_false_iff, decide_eq_false_iff_not,
    beq_eq_false_iff_ne]
  omega

end Chimaera.Text
