import Lz4Frame.Cli.Command
import Lz4Frame.Cli.Rendering

/-! A run of the command line program. The dictionary is loaded before anything else, and a run
without it does nothing more. The files are then taken one by one, and one that cannot be loaded
does not stop the others. A run fails if a file could not be loaded or is invalid. -/

namespace Lz4Frame.Cli

/-- Why a file could not be loaded, in the words of the system. -/
inductive LoadError where
  | opening (reason : String)
  /-- The file is open, and its size cannot be found. -/
  | stat (reason : String)
  | reading (reason : String)
  deriving DecidableEq, Repr

namespace LoadError

def reason : LoadError → String
  | .opening reason => reason
  | .stat reason => reason
  | .reading reason => reason

/-- The error for a file, from the outermost message to its cause. -/
def chain (name : String) : LoadError → List String
  | .opening reason => [s!"failed to open {name}", reason]
  | .stat reason => [s!"failed to stat {name}", reason]
  | .reading reason => [s!"failed to read {name}", reason]

end LoadError

/-- What a run leaves behind. -/
structure Outcome where
  exitCode : UInt32
  output : String := ""
  log : List Log.Entry := []
  /-- The errors, each from its outermost message to its cause. -/
  errors : List (List String) := []
  /-- Why the arguments were refused, if they were. -/
  refusal : Option UsageError := none
  deriving DecidableEq, Repr

/-- What one file adds to a run. -/
structure FileOutcome where
  output : String := ""
  log : List Log.Entry := []
  errors : List (List String) := []
  failed : Bool
  deriving DecidableEq, Repr

/-- The last component of a path. A path that ends in a parent has none. -/
def baseName (path : String) : String :=
  match ((path.splitOn "/").filter fun part => part != "" && part != ".").getLast? with
  | none => ""
  | some part => if part = ".." then "" else part

def programVersion : String := "lz4scan-cli 0.3.0"

def usage : String :=
  String.join <| [
    "Validate LZ4 frames and report what is inside them",
    "",
    "Usage: lz4scan [OPTIONS] <FILE>...",
    "",
    "Options:",
    "      --no-decompress    Only check the frame structure and block checksums",
    "      --no-checksums     Do not verify block and content checksums",
    "      --lenient          Accept blocks bigger than the maximum block size",
    "      --sequential       Decompress independent blocks one after the other",
    "      --timeout-ms <MS>  Report blocks that take longer than this to decompress",
    "      --dict <PATH>      Dictionary for frames that were compressed with one",
    "      --blocks           Print a table with every block",
    "  -v, --verbose...       More log output, can be repeated",
    "  -q, --quiet            Only log errors",
    "  -h, --help             Print help",
    "  -V, --version          Print version"].map (· ++ "\n")

namespace Command

variable {m : Type → Type} [Monad m]

/-- The outcome for a file that was loaded. -/
def reportOn (command : Command) (env : Environment m) (options : Options) (name : String)
    (input : Bytes) : m FileOutcome := do
  let findings ← examine env options input
  let report := findings.report input
  pure
    { output := render name (command.has .blocks) report
      log :=
        [⟨.debug, "lz4scan::progress", s!"loaded {baseName name} ({ByteSize.text input.size})"⟩,
          ⟨.debug, "lz4scan", s!"analysing {name} ({input.size} bytes)"⟩] ++
        Log.ofFindings input findings
      failed := report.verdict.isInvalid }

/-- The outcome for one of the files. Its error is told in the log, and so in escaped form. -/
def processFile (command : Command) (env : Environment m) (options : Options)
    (load : String → m (Except LoadError Bytes)) (name : String) : m FileOutcome := do
  match ← load name with
  | .ok input => command.reportOn env options name input
  | .error error =>
    pure
      { log := [⟨.error, "lz4scan", ""⟩]
        errors := [(error.chain name).map Log.escape]
        failed := true }

/-- The outcomes of all files together. -/
def conclude (command : Command) (outcomes : List FileOutcome) : Outcome :=
  let failures := outcomes.countP FileOutcome.failed
  { exitCode := if failures = 0 then 0 else 1
    output := String.join (outcomes.map FileOutcome.output)
    log := Log.filter command.logLevel (outcomes.flatMap FileOutcome.log)
    errors := outcomes.flatMap FileOutcome.errors ++
      if failures = 0 then
        []
      else
        [[s!"{failures} of {command.files.length} files are not valid LZ4 frames"]] }

/-- A run on all files of a command. -/
def run (command : Command) (env : Environment m) (load : String → m (Except LoadError Bytes)) :
    m Outcome := do
  let dictionary : Except (List String) (Option Bytes) ←
    match command.dictionary with
    | none => pure (.ok none)
    | some name =>
      (fun loaded => match loaded with
        | .ok bytes => .ok (some bytes)
        | .error error => .error [s!"failed to read dictionary {name}", error.reason]) <$> load name
  match dictionary with
  | .error error => pure { exitCode := 1, errors := [error] }
  | .ok dictionary =>
    let options := command.options dictionary
    command.conclude <$> command.files.mapM (command.processFile env options load)

end Command

/-- A run with the given arguments. Arguments that are refused end it with a code of their own. -/
def run {m : Type → Type} [Monad m] (env : Environment m)
    (load : String → m (Except LoadError Bytes)) (args : List String) : m Outcome :=
  match Command.parse args with
  | .error error => pure { exitCode := 2, refusal := some error }
  | .ok .help => pure { exitCode := 0, output := usage }
  | .ok .version => pure { exitCode := 0, output := programVersion ++ "\n" }
  | .ok (.run command) => command.run env load

end Lz4Frame.Cli
