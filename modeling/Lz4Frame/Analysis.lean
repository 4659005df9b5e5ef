import Lz4Frame.Report
import Lz4Frame.Scan

/-! A whole analysis: scan, decode, report. It never fails, since every problem is in the report. -/

namespace Lz4Frame

/-- The outcome of decoding what a scan found. -/
def ScanOutcome.decode {m : Type → Type} [Monad m] (env : Environment m) (options : Options)
    (input : Bytes) (scan : ScanOutcome) : m ContentOutcome :=
  match scan.frame with
  | some frame => frame.decode env options input
  | none => pure {}

/-- The outcomes of both phases, for a report and for a log. -/
structure Findings where
  scan : ScanOutcome
  decoded : ContentOutcome

def Findings.report (findings : Findings) (input : Bytes) : Report :=
  .of input findings.scan findings.decoded

/-- Both phases on `input`. -/
def examine {m : Type → Type} [Monad m] (env : Environment m) (options : Options)
    (input : Bytes) : m Findings := do
  let scan ← scan env.cancelled input
  let decoded ← scan.decode env options input
  pure ⟨scan, decoded⟩

/-- The report on `input`. -/
def analyze {m : Type → Type} [Monad m] (env : Environment m) (options : Options)
    (input : Bytes) : m Report :=
  (·.report input) <$> examine env options input

/-- The report on `input` from a decompressor that is a function, with nobody who cancels. -/
def report (decompressor : Decompressor) (options : Options) (input : Bytes) : Report :=
  Id.run (analyze (.ofDecompressor decompressor) options input)

end Lz4Frame
