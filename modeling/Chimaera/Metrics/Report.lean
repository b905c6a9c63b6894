/-
The report of the kernel over the serial port, and the command that asks for it.
-/
import Chimaera.Text

namespace Chimaera.Metrics

def ascii (s : List Char) : List UInt8 := s.map fun c => UInt8.ofNat c.toNat

/-- `serial_puts`: what it sends. -/
def serialPuts (s : List UInt8) : List UInt8 := s.flatMap fun c => if c = 10 then [13, 10] else [c]

/-- The buffer that `m_u32` fills from its start, the last digit first. -/
def decBuf (v : Nat) : List UInt8 :=
  if v = 0 then [] else UInt8.ofNat (48 + v % 10) :: decBuf (v / 10)

def mU32 (v : UInt32) : List UInt8 := if v = 0 then [48] else (decBuf v.toNat).reverse

/-- `m_puts` on a literal. -/
def mPuts (s : String) : List UInt8 := serialPuts (ascii s.toList)

/-- `"metrics\n"` -/
def cmd : List UInt8 := ascii "metrics\n".toList

structure Counters where
  bootMs : UInt32
  memAfterBoot : UInt32
  ttfbMs : UInt32
  tokensPerSec : UInt32
  memAfterInfer : UInt32
  inferStartMs : UInt32
  inferStarted : Bool
  firstTokenDone : Bool
  rxBuf : List UInt8

def rxZero : List UInt8 := List.replicate 8 0

def Counters.zero : Counters := ⟨0, 0, 0, 0, 0, 0, false, false, rxZero⟩

variable (g : Counters)

def metricsEmit : List UInt8 :=
  mPuts "[METRICS] boot_ms=" ++ mU32 g.bootMs ++ mPuts "\n" ++
  mPuts "[METRICS] mem_after_boot_bytes=" ++ mU32 g.memAfterBoot ++ mPuts "\n" ++
  mPuts "[METRICS] ttfb_ms=" ++ mU32 g.ttfbMs ++ mPuts "\n" ++
  mPuts "[METRICS] tokens_per_sec=" ++ mU32 g.tokensPerSec ++ mPuts "\n" ++
  mPuts "[METRICS] mem_after_infer_bytes=" ++ mU32 g.memAfterInfer ++ mPuts "\n" ++
  mPuts "[METRICS] net_rtt_ms=0\n" ++ mPuts "[METRICS] DONE\n"

/-- `metrics_init`: the counter now and at the start, its ticks in a millisecond, and the
milliseconds of the timer. -/
def metricsInit (nowLo bootLo tpm ms : UInt32) : Counters :=
  { g with bootMs := if tpm > 0 then (nowLo - bootLo) / tpm else ms }

def metricsSnapshotMemBoot (used : UInt32) : Counters := { g with memAfterBoot := used }

def metricsStartInference (ms : UInt32) : Counters :=
  { g with inferStartMs := ms, inferStarted := true, firstTokenDone := false }

def metricsRecordFirstToken (ms : UInt32) : Counters :=
  if g.inferStarted && !g.firstTokenDone then
    { g with ttfbMs := ms - g.inferStartMs, firstTokenDone := true }
  else g

def metricsRecordTokenBatch (nTokens elapsedMs : UInt32) : Counters :=
  { g with tokensPerSec := if elapsedMs > 0 then nTokens * 1000 / elapsedMs else 999999 }

def metricsSnapshotMemInfer (used : UInt32) : Counters := { g with memAfterInfer := used }

/-- `metrics_poll_command` on what the port has received, if anything. -/
def metricsPollCommand : Option UInt8 → Counters × List UInt8
  | none => (g, [])
  | some c =>
    let g := { g with rxBuf := g.rxBuf.drop 1 ++ [c] }
    (g, if g.rxBuf = cmd then metricsEmit g else [])

/-- A call into the module, with what the timer, the heap or the port answers. -/
inductive Call
  | init (nowLo bootLo tpm ms : UInt32)
  | snapshotMemBoot (used : UInt32)
  | startInference (ms : UInt32)
  | recordFirstToken (ms : UInt32)
  | recordTokenBatch (nTokens elapsedMs : UInt32)
  | snapshotMemInfer (used : UInt32)
  | emit
  | pollCommand (input : Option UInt8)
  deriving DecidableEq

/-- A call: the variables behind it, and what it sends. -/
def Counters.call : Call → Counters × List UInt8
  | .init nowLo bootLo tpm ms => (metricsInit g nowLo bootLo tpm ms, [])
  | .snapshotMemBoot used => (metricsSnapshotMemBoot g used, [])
  | .startInference ms => (metricsStartInference g ms, [])
  | .recordFirstToken ms => (metricsRecordFirstToken g ms, [])
  | .recordTokenBatch nTokens elapsedMs => (metricsRecordTokenBatch g nTokens elapsedMs, [])
  | .snapshotMemInfer used => (metricsSnapshotMemInfer g used, [])
  | .emit => (g, metricsEmit g)
  | .pollCommand input => metricsPollCommand g input

def Counters.sent (g : Counters) : List Call → List UInt8
  | [] => []
  | c :: calls => (g.call c).2 ++ (g.call c).1.sent calls

def Call.received : Call → List UInt8
  | .pollCommand (some c) => [c]
  | _ => []

/-- The call asks for a report: itself, or with the last byte of the command. -/
def Call.Asks (c : Call) (hist : List UInt8) : Prop :=
  c = .emit ∨ c.received ≠ [] ∧ cmd <:+ hist ++ c.received

instance (c : Call) (hist : List UInt8) : Decidable (c.Asks hist) :=
  inferInstanceAs (Decidable (_ ∨ _))

/-- The variables at each call that asks for a report; `hist` received before. -/
def asked (hist : List UInt8) (g : Counters) : List Call → List Counters
  | [] => []
  | c :: calls =>
    (if c.Asks hist then [g] else []) ++ asked (hist ++ c.received) (g.call c).1 calls

variable {g} {hist buf : List UInt8}

/-- The buffer holds the last eight bytes, zeros before the first. -/
def Window (hist buf : List UInt8) : Prop := buf.length = 8 ∧ buf <:+ rxZero ++ hist

theorem Window.push {c : UInt8} (h : Window hist buf) :
    Window (hist ++ [c]) (buf.drop 1 ++ [c]) := by
  obtain ⟨hlen, pre, hpre⟩ := h
  refine ⟨by simp [hlen], pre ++ buf.take 1, ?_⟩
  rw [← List.append_assoc rxZero, ← hpre, List.append_assoc pre, ← List.append_assoc (buf.take 1),
    List.take_append_drop, List.append_assoc]

/-- The buffer is the command just if the command has been received last. -/
theorem Window.eq_cmd_iff (h : Window hist buf) : buf = cmd ↔ cmd <:+ hist := by
  have hcmd : cmd.length = 8 := by decide
  obtain ⟨hlen, hsuffix⟩ := h
  constructor
  · rintro rfl
    rcases Nat.lt_or_ge hist.length 8 with hshort | hlong
    · obtain ⟨pre, hpre⟩ := hsuffix
      have hprelen : pre.length = hist.length := by
        have hlens := congrArg List.length hpre
        simp only [List.length_append, rxZero, List.length_replicate] at hlens
        omega
      have hfirst := congrArg (·[pre.length]?) hpre
      simp only [List.getElem?_append_right (Nat.le_refl _), Nat.sub_self] at hfirst
      rw [List.getElem?_append_left (by simpa [rxZero, hprelen] using hshort), rxZero,
        List.getElem?_replicate, if_pos (by omega)] at hfirst
      exact absurd hfirst (by decide)
    · exact List.suffix_of_suffix_length_le hsuffix (List.suffix_append _ _) (by omega)
  · intro hend
    have hend' : cmd <:+ rxZero ++ hist := hend.trans (List.suffix_append _ _)
    exact (List.suffix_of_suffix_length_le hsuffix hend' (by omega)).eq_of_length (by omega)

/-- A call keeps the buffer in step with what the port receives. -/
theorem Window.call {c : Call} (h : Window hist g.rxBuf) :
    Window (hist ++ c.received) (g.call c).1.rxBuf := by
  have hnil : Window (hist ++ []) g.rxBuf := by rwa [List.append_nil]
  cases c with
  | pollCommand input =>
      cases input with
      | none => exact hnil
      | some c => exact h.push
  | recordFirstToken ms =>
      have hkeep : (metricsRecordFirstToken g ms).rxBuf = g.rxBuf := by
        rw [metricsRecordFirstToken]
        split
        · rfl
        · rfl
      exact hkeep ▸ hnil
  | _ => exact hnil

/-- A call sends a report if it asks for one, else nothing. -/
theorem Window.call_sent {c : Call} (h : Window hist g.rxBuf) :
    (g.call c).2 = if c.Asks hist then metricsEmit g else [] := by
  have hquiet : c ≠ .emit → c.received = [] → ¬ c.Asks hist := by
    rintro hne hnil (he | ⟨hne', -⟩)
    · exact hne he
    · exact hne' hnil
  cases c with
  | emit =>
      have hasks : Call.emit.Asks hist := Or.inl rfl
      rw [if_pos hasks]
      rfl
  | pollCommand input =>
      cases input with
      | none => rw [if_neg (hquiet (by simp) rfl)]; rfl
      | some c =>
          have hmatch := (h.push (c := c)).eq_cmd_iff
          by_cases hcmd : cmd <:+ hist ++ [c]
          · have hasks : (Call.pollCommand (some c)).Asks hist :=
              Or.inr ⟨List.cons_ne_nil c [], hcmd⟩
            rw [if_pos hasks]
            exact if_pos (hmatch.mpr hcmd)
          · have hasks : ¬ (Call.pollCommand (some c)).Asks hist := by
              rintro (he | ⟨-, hend⟩)
              · cases he
              · exact hcmd hend
            rw [if_neg hasks]
            exact if_neg fun he => hcmd (hmatch.mp he)
  | _ => rw [if_neg (hquiet (by simp) rfl)]; rfl

/-- Calls send a report for each time that one is asked for, and nothing else. -/
theorem Window.sent_eq (calls : List Call) (h : Window hist g.rxBuf) :
    g.sent calls = (asked hist g calls).flatMap metricsEmit := by
  induction calls generalizing g hist with
  | nil => rfl
  | cons c calls ih =>
      rw [Counters.sent, asked, h.call_sent, ih h.call, List.flatMap_append]
      by_cases hasks : c.Asks hist
      · rw [if_pos hasks, if_pos hasks, List.flatMap_singleton]
      · rw [if_neg hasks, if_neg hasks, List.flatMap_nil]

theorem window_zero : Window [] Counters.zero.rxBuf := ⟨rfl, [], rfl⟩

end Chimaera.Metrics
