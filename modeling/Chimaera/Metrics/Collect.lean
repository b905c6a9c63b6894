/-
The host reads back what the kernel reports: the serial log as text, its lines, and the
values on them.
-/
import Chimaera.Metrics.Report
import Mathlib.Logic.Function.Basic

namespace Chimaera.Metrics

open Chimaera.Text

abbrev Dict := List Char → Option Int

/-- `d[k] = n` -/
def Dict.set (d : Dict) (k : List Char) (n : Int) : Dict := Function.update d k (some n)

/-- `"[METRICS] "` -/
def metricsPrefix : List Char := "[METRICS] ".toList

/-- A line in the loop of `_parse_metrics`; `toInt` is Python's `int`, nothing for a
`ValueError`. -/
def addLine (toInt : List Char → Option Int) (metrics : Dict) (line : List Char) : Dict :=
  let line := strip line
  if metricsPrefix <+: line ∧ '=' ∈ line then
    let kv := line.drop metricsPrefix.length
    let k := kv.takeWhile (· ≠ '=')
    let v := (kv.dropWhile (· ≠ '=')).drop 1
    match toInt (strip v) with
    | some n => metrics.set (strip k) n
    | none => metrics
  else metrics

def parseMetrics (toInt : List Char → Option Int) (lines : List (List Char)) : Dict :=
  lines.foldl (addLine toInt) fun _ => none

variable {toInt : List Char → Option Int} {decode : List UInt8 → List Char} {d : Dict}
  {key s : List Char} {g : Counters} {v : Nat} {pre : List UInt8}

def asChars (bs : List UInt8) : List Char := bs.map fun b => Char.ofNat b.toNat

/-- A decoder for a superset of ASCII, as UTF-8 is one: an ASCII byte stands for itself and
ends whatever comes before it. -/
def KeepsAscii (decode : List UInt8 → List Char) : Prop :=
  ∀ a b : List UInt8, (∀ c ∈ b, c.toNat < 128) → decode (a ++ b) = decode a ++ asChars b

/-- `int` reads the decimal notation of 32-bit values. -/
def ReadsDecimal (toInt : List Char → Option Int) : Prop :=
  ∀ n : Nat, n < 4294967296 → toInt (Nat.toDigits 10 n) = some (n : Int)

theorem asChars_append (a b : List UInt8) : asChars (a ++ b) = asChars a ++ asChars b :=
  List.map_append

theorem asChars_decBuf (v : Nat) :
    asChars (decBuf v).reverse = if v = 0 then [] else Nat.toDigits 10 v := by
  have hdigit : ∀ n < 10, Char.ofNat (UInt8.ofNat (48 + n)).toNat = Nat.digitChar n := by decide
  induction v using Nat.strongRecOn with
  | ind v ih =>
      rw [decBuf]
      by_cases hv : v = 0
      · rw [if_pos hv, if_pos hv]
        rfl
      · have hstep := Nat.toDigits_eq_if (b := 10) (n := v) (by decide)
        rw [if_neg hv, if_neg hv, List.reverse_cons, asChars_append, ih (v / 10) (by omega), hstep]
        have hlast : asChars [UInt8.ofNat (48 + v % 10)] = [Nat.digitChar (v % 10)] :=
          congrArg (· :: []) (hdigit _ (by omega))
        rw [hlast]
        by_cases hlt : v < 10
        · rw [if_pos (by omega), if_pos hlt, Nat.mod_eq_of_lt hlt, List.nil_append]
        · rw [if_neg (by omega), if_neg hlt]

/-- `m_u32` prints decimal notation. -/
theorem asChars_mU32 (v : UInt32) : asChars (mU32 v) = Nat.toDigits 10 v.toNat := by
  rw [mU32]
  by_cases hv : v = 0
  · subst hv
    rfl
  · have hne : v.toNat ≠ 0 := fun h => hv (UInt32.toNat_inj.mp h)
    rw [if_neg hv, asChars_decBuf, if_neg hne]

def metricLine (key : List Char) (v : Nat) : List Char :=
  metricsPrefix ++ (key ++ '=' :: Nat.toDigits 10 v)

def entries (g : Counters) : List (List Char × Nat) :=
  [("boot_ms".toList, g.bootMs.toNat), ("mem_after_boot_bytes".toList, g.memAfterBoot.toNat),
    ("ttfb_ms".toList, g.ttfbMs.toNat), ("tokens_per_sec".toList, g.tokensPerSec.toNat),
    ("mem_after_infer_bytes".toList, g.memAfterInfer.toNat), ("net_rtt_ms".toList, 0)]

def reportKeys : List (List Char) :=
  ["boot_ms".toList, "mem_after_boot_bytes".toList, "ttfb_ms".toList, "tokens_per_sec".toList,
    "mem_after_infer_bytes".toList, "net_rtt_ms".toList]

def reportLines (g : Counters) : List (List Char) :=
  (entries g).map (fun e => metricLine e.1 e.2) ++ ["[METRICS] DONE".toList]

/-- A value as `metrics_emit` prints it. -/
theorem asChars_entry (text : List UInt8) {v : UInt32}
    (h : asChars text = metricsPrefix ++ (key ++ ['='])) :
    asChars (text ++ (mU32 v ++ mPuts "\n")) = metricLine key v.toNat ++ ['\r', '\n'] := by
  have hend : asChars (mPuts "\n") = ['\r', '\n'] := by decide
  rw [asChars_append, asChars_append, h, asChars_mU32, hend, metricLine]
  simp only [List.append_assoc, List.cons_append, List.nil_append]

theorem asChars_metricsEmit (g : Counters) :
    asChars (metricsEmit g) = (reportLines g).flatMap fun line => line ++ ['\r', '\n'] := by
  have hlast : asChars (mPuts "[METRICS] net_rtt_ms=0\n") ++ asChars (mPuts "[METRICS] DONE\n") =
      metricLine "net_rtt_ms".toList 0 ++ ['\r', '\n'] ++
        ("[METRICS] DONE".toList ++ ['\r', '\n']) := by decide
  rw [reportLines, entries, List.map_cons, List.map_cons, List.map_cons, List.map_cons,
    List.map_cons, List.map_cons, List.map_nil]
  simp only [List.cons_append, List.nil_append, List.flatMap_cons, List.flatMap_nil,
    List.append_nil]
  rw [← hlast, ← asChars_entry (mPuts "[METRICS] boot_ms=") (by decide),
    ← asChars_entry (mPuts "[METRICS] mem_after_boot_bytes=") (by decide),
    ← asChars_entry (mPuts "[METRICS] ttfb_ms=") (by decide),
    ← asChars_entry (mPuts "[METRICS] tokens_per_sec=") (by decide),
    ← asChars_entry (mPuts "[METRICS] mem_after_infer_bytes=") (by decide)]
  unfold metricsEmit
  simp only [asChars_append]
  simp only [List.append_assoc]

theorem isDigit_of_mem {c : Char} (h : c ∈ Nat.toDigits 10 v) : c.isDigit = true :=
  Nat.isDigit_of_mem_toDigits (by decide) (by decide) h

/-- The key of a line: no blank, no line end and no `'='` in it. -/
def IsKey (key : List Char) : Prop :=
  ∀ c ∈ key, isSpace c = false ∧ isLineEnd c = false ∧ c ≠ '='

theorem isLineEnd_metricLine {c : Char} (h : IsKey key) (hc : c ∈ metricLine key v) :
    isLineEnd c = false := by
  have hpre : metricsPrefix.all (fun c => !isLineEnd c) = true := by decide
  rw [metricLine, List.mem_append, List.mem_append, List.mem_cons] at hc
  rcases hc with hc | hc | rfl | hc
  · simpa using List.all_eq_true.mp hpre c hc
  · exact (h c hc).2.1
  · decide
  · exact isLineEnd_of_isDigit (isDigit_of_mem hc)

/-- A line of the report starts and ends with a character that is no blank. -/
theorem strip_metricLine : strip (metricLine key v) = metricLine key v := by
  obtain hnil | ⟨ds, c, hds⟩ := (Nat.toDigits 10 v).eq_nil_or_concat'
  · exact absurd hnil Nat.toDigits_ne_nil
  · have hc : isSpace c = false :=
      isSpace_of_isDigit (isDigit_of_mem (v := v) (hds ▸ by simp))
    have hline : metricLine key v =
        '[' :: ("METRICS] ".toList ++ (key ++ '=' :: ds) ++ [c]) := by
      rw [metricLine, hds, List.append_assoc, List.append_assoc, List.cons_append]
      rfl
    rw [hline]
    exact strip_of_ends (by decide) hc

theorem addLine_metricLine (hint : ReadsDecimal toInt) (h : IsKey key) (hv32 : v < 4294967296) :
    addLine toInt d (metricLine key v) = d.set key v := by
  have hcond : metricsPrefix <+: metricLine key v ∧ '=' ∈ metricLine key v :=
    ⟨List.prefix_append _ _, by simp [metricLine]⟩
  have hkv : (metricLine key v).drop metricsPrefix.length = key ++ '=' :: Nat.toDigits 10 v :=
    List.drop_left
  have hk : (key ++ '=' :: Nat.toDigits 10 v).takeWhile (· ≠ '=') = key := by
    rw [List.takeWhile_append_of_pos fun c hc => decide_eq_true ((h c hc).2.2),
      List.takeWhile_cons_of_neg (by simp), List.append_nil]
  have hv : (key ++ '=' :: Nat.toDigits 10 v).dropWhile (· ≠ '=') = '=' :: Nat.toDigits 10 v := by
    rw [List.dropWhile_append_of_pos fun c hc => decide_eq_true ((h c hc).2.2),
      List.dropWhile_cons_of_neg (by simp)]
  simp only [addLine]
  rw [strip_metricLine, if_pos hcond, hkv, hk, hv, List.drop_one, List.tail_cons,
    strip_of_no_space fun c hc => isSpace_of_isDigit (isDigit_of_mem hc), hint v hv32,
    strip_of_no_space fun c hc => (h c hc).1]

/-- The line behind the values has no `'='`. -/
theorem addLine_done : addLine toInt d "[METRICS] DONE".toList = d := by
  have hstrip : strip "[METRICS] DONE".toList = "[METRICS] DONE".toList := by decide
  simp only [addLine]
  rw [hstrip, if_neg fun h => absurd h.2 (by decide)]

/-- The dictionary with the values of a report on it. -/
def reported (g : Counters) (d : Dict) : Dict :=
  (entries g).foldl (fun d e => d.set e.1 e.2) d

theorem map_entries : (entries g).map Prod.fst = reportKeys := rfl

theorem isKey_of_mem {e : List Char × Nat} (h : e ∈ entries g) : IsKey e.1 := by
  have hall : reportKeys.all (·.all fun c => !isSpace c && !isLineEnd c && c != '=') = true := by
    decide
  have he : e.1 ∈ reportKeys := map_entries (g := g) ▸ List.mem_map_of_mem h
  intro c hc
  have hkey := List.all_eq_true.mp (List.all_eq_true.mp hall e.1 he) c hc
  rw [Bool.and_eq_true, Bool.and_eq_true, Bool.not_eq_true', Bool.not_eq_true', bne_iff_ne] at hkey
  exact ⟨hkey.1.1, hkey.1.2, hkey.2⟩

theorem value_of_mem {e : List Char × Nat} (h : e ∈ entries g) : e.2 < 4294967296 := by
  have hlt : ∀ n : UInt32, n.toNat < 4294967296 := fun n => n.toNat_lt
  have hall : ∀ e ∈ entries g, e.2 < 4294967296 := by
    simp only [entries, List.forall_mem_cons, hlt, Nat.zero_lt_succ, List.not_mem_nil,
      false_imp_iff, implies_true, and_self]
  exact hall e h

theorem foldl_reportLines (hint : ReadsDecimal toInt) :
    (reportLines g).foldl (addLine toInt) d = reported g d := by
  have hfold : ∀ es : List (List Char × Nat), (∀ e ∈ es, IsKey e.1 ∧ e.2 < 4294967296) → ∀ d : Dict,
      (es.map fun e => metricLine e.1 e.2).foldl (addLine toInt) d =
        es.foldl (fun d e => d.set e.1 e.2) d := by
    intro es hes
    induction es with
    | nil => exact fun _ => rfl
    | cons e es ih =>
        intro d
        rw [List.map_cons, List.foldl_cons, List.foldl_cons,
          addLine_metricLine hint (hes e List.mem_cons_self).1 (hes e List.mem_cons_self).2]
        exact ih (fun e he => hes e (List.mem_cons_of_mem _ he)) _
  rw [reportLines, List.foldl_append,
    hfold _ fun e he => ⟨isKey_of_mem he, value_of_mem he⟩, List.foldl_cons,
    addLine_done, List.foldl_nil, reported]

theorem isLineEnd_reportLines {line : List Char} {c : Char} (h : line ∈ reportLines g)
    (hc : c ∈ line) : isLineEnd c = false := by
  have hdone : "[METRICS] DONE".toList.all (fun c => !isLineEnd c) = true := by decide
  rw [reportLines, List.mem_append, List.mem_map, List.mem_singleton] at h
  rcases h with ⟨e, he, rfl⟩ | rfl
  · exact isLineEnd_metricLine (isKey_of_mem he) hc
  · simpa using List.all_eq_true.mp hdone c hc

theorem foldl_set_of_not_mem {es : List (List Char × Nat)} (h : key ∉ es.map Prod.fst) (d : Dict) :
    es.foldl (fun d e => d.set e.1 e.2) d key = d key := by
  induction es generalizing d with
  | nil => rfl
  | cons e es ih =>
      rw [List.map_cons, List.mem_cons, not_or] at h
      rw [List.foldl_cons, ih h.2, Dict.set, Function.update_of_ne h.1]

theorem foldl_set_of_mem {es : List (List Char × Nat)} (h : key ∈ es.map Prod.fst) (d d' : Dict) :
    es.foldl (fun d e => d.set e.1 e.2) d key = es.foldl (fun d e => d.set e.1 e.2) d' key := by
  induction es generalizing d d' with
  | nil => cases h
  | cons e es ih =>
      rw [List.foldl_cons, List.foldl_cons]
      by_cases hes : key ∈ es.map Prod.fst
      · exact ih hes _ _
      · rw [List.map_cons, List.mem_cons] at h
        rw [foldl_set_of_not_mem hes, foldl_set_of_not_mem hes, Dict.set, Dict.set,
          h.resolve_right hes, Function.update_self, Function.update_self]

/-- A report replaces the one before. -/
theorem reported_reported {g g' : Counters} : reported g' (reported g d) = reported g' d := by
  funext key
  by_cases hkey : key ∈ reportKeys
  · have hmem : key ∈ (entries g').map Prod.fst := by rwa [map_entries]
    rw [reported, foldl_set_of_mem hmem _ d, reported]
  · have hnot : ∀ g : Counters, key ∉ (entries g).map Prod.fst := fun g => by rwa [map_entries]
    rw [reported, foldl_set_of_not_mem (hnot g'), reported, foldl_set_of_not_mem (hnot g), reported,
      foldl_set_of_not_mem (hnot g')]

theorem foldl_reports {gs : List Counters} (hint : ReadsDecimal toInt) :
    (gs.flatMap reportLines).foldl (addLine toInt) d = gs.getLast?.elim d (reported · d) := by
  induction gs generalizing d with
  | nil => rfl
  | cons g gs ih =>
      rw [List.flatMap_cons, List.foldl_append, foldl_reportLines hint, ih, List.getLast?_cons]
      cases gs.getLast? with
      | none => rfl
      | some g' =>
          rw [Option.elim_some, Option.getD_some, Option.elim_some]
          exact reported_reported

theorem mPuts_lt {s : String} (h : s.toList.all (·.toNat < 128) = true) :
    ∀ c ∈ mPuts s, c.toNat < 128 := by
  intro c hc
  rw [mPuts, serialPuts, List.mem_flatMap] at hc
  obtain ⟨b, hb, hc⟩ := hc
  rw [ascii, List.mem_map] at hb
  obtain ⟨ch, hch, rfl⟩ := hb
  have hlt : ch.toNat < 128 := of_decide_eq_true (List.all_eq_true.mp h ch hch)
  split at hc
  · rcases List.mem_pair.mp hc with rfl | rfl <;> decide
  · rw [List.mem_singleton.mp hc, UInt8.toNat_ofNat']
    omega

theorem mU32_lt {v : UInt32} : ∀ c ∈ mU32 v, c.toNat < 128 := by
  have hbuf : ∀ v, ∀ c ∈ decBuf v, c.toNat < 128 := by
    intro v
    induction v using Nat.strongRecOn with
    | ind v ih =>
        rw [decBuf]
        split
        · simp
        · intro c hc
          rcases List.mem_cons.mp hc with rfl | hc
          · rw [UInt8.toNat_ofNat']
            omega
          · exact ih (v / 10) (by omega) c hc
  intro c hc
  rw [mU32] at hc
  split at hc
  · rw [List.mem_singleton.mp hc]
    decide
  · exact hbuf _ c (List.mem_reverse.mp hc)

theorem metricsEmit_lt : ∀ c ∈ metricsEmit g, c.toNat < 128 := by
  unfold metricsEmit
  simp only [List.forall_mem_append]
  and_intros
  all_goals first | exact mU32_lt | exact mPuts_lt (by decide)

/-- What the kernel reports reaches the host: a report is sent for each time that one is asked
for, and from a log of whole lines and the reports behind them, the collector reads what the
lines before say, with the values of the last report on it. -/
theorem report_reaches_host (hdecode : KeepsAscii decode) (hint : ReadsDecimal toInt)
    (hpre : Whole (decode pre)) (calls : List Call) :
    Counters.zero.sent calls = (asked [] .zero calls).flatMap metricsEmit ∧
    parseMetrics toInt (linesOf (decode (pre ++ Counters.zero.sent calls))) =
      (asked [] .zero calls).getLast?.elim (parseMetrics toInt (linesOf (decode pre)))
        (reported · (parseMetrics toInt (linesOf (decode pre)))) := by
  have hsent : Counters.zero.sent calls = (asked [] .zero calls).flatMap metricsEmit :=
    window_zero.sent_eq calls
  refine ⟨hsent, ?_⟩
  obtain ⟨gs, hgs⟩ : ∃ gs, gs = asked [] .zero calls := ⟨_, rfl⟩
  rw [← hgs] at hsent ⊢
  have hascii : ∀ c ∈ Counters.zero.sent calls, c.toNat < 128 := by
    intro c hc
    rw [hsent, List.mem_flatMap] at hc
    obtain ⟨g, -, hc⟩ := hc
    exact metricsEmit_lt c hc
  have htext : asChars (Counters.zero.sent calls) =
      (gs.flatMap reportLines).flatMap fun line => line ++ ['\r', '\n'] := by
    rw [hsent, asChars, List.map_flatMap, List.flatMap_assoc]
    exact congrArg (List.flatMap · gs) (funext asChars_metricsEmit)
  have hlines : ∀ line ∈ gs.flatMap reportLines, ∀ c ∈ line, isLineEnd c = false := by
    intro line hline c hc
    obtain ⟨g, -, hline⟩ := List.mem_flatMap.mp hline
    exact isLineEnd_reportLines hline hc
  have hnil : linesOf [] = [] := rfl
  have hend := linesOf_flatMap (b := []) hlines
  rw [List.append_nil, hnil, List.append_nil] at hend
  rw [hdecode pre _ hascii, linesOf_append hpre, htext, hend, parseMetrics, List.foldl_append,
    foldl_reports hint]
  rfl

/-- `int` on the digits of ASCII. -/
def asciiInt (s : List Char) : Option Int :=
  if s ≠ [] ∧ s.all Char.isDigit then some (Nat.ofDigitChars 10 s 0) else none

theorem asciiInt_reads : ReadsDecimal asciiInt := by
  intro n _
  have hall : (Nat.toDigits 10 n).all Char.isDigit = true :=
    List.all_eq_true.mpr fun c hc => isDigit_of_mem hc
  rw [asciiInt, if_pos ⟨Nat.toDigits_ne_nil, hall⟩,
    Nat.ofDigitChars_toDigits (by decide) (by decide)]

def queried : List Call :=
  [.startInference 5, .recordFirstToken 12] ++ cmd.map fun c => .pollCommand (some c)

theorem report_reaches_host_queried :
    parseMetrics asciiInt (linesOf (asChars (ascii "boot\n".toList ++ Counters.zero.sent queried)))
      "ttfb_ms".toList = some 7 := by
  have hpre : Whole (asChars (ascii "boot\n".toList)) := Or.inr ⟨"boot".toList, by decide⟩
  rw [(report_reaches_host (fun a b _ => asChars_append a b) asciiInt_reads hpre queried).2]
  decide

end Chimaera.Metrics
