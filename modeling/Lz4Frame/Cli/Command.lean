import Lz4Frame.Log
import Lz4Frame.Options

/-! The command line: which files, which options. Arguments are taken from left to right and the
first wrong one decides, so a request for the version counts only up to there. A switch may be given
once, apart from `verbose`. A value follows its option or is joined to it by an equals sign. Only a
joined value may start with a hyphen. Behind two hyphens everything is a file. -/

namespace Lz4Frame.Cli

/-- An option without a value. -/
inductive Switch where
  | noDecompress
  | noChecksums
  | lenient
  | sequential
  | blocks
  | verbose
  | quiet
  | help
  | version
  deriving DecidableEq, Repr

/-- An option with a value. -/
inductive Setting where
  | timeout
  | dictionary
  deriving DecidableEq, Repr

def Switch.ofName? : String → Option Switch
  | "no-decompress" => some .noDecompress
  | "no-checksums" => some .noChecksums
  | "lenient" => some .lenient
  | "sequential" => some .sequential
  | "blocks" => some .blocks
  | "verbose" => some .verbose
  | "quiet" => some .quiet
  | "help" => some .help
  | "version" => some .version
  | _ => none

def Switch.ofLetter? : Char → Option Switch
  | 'v' => some .verbose
  | 'q' => some .quiet
  | 'h' => some .help
  | 'V' => some .version
  | _ => none

def Setting.ofName? : String → Option Setting
  | "timeout-ms" => some .timeout
  | "dict" => some .dictionary
  | _ => none

/-- What a command line asks for. -/
structure Command where
  files : List String := []
  /-- The switches given, each as often as it was. -/
  switches : List Switch := []
  timeoutMs : Option Nat := none
  dictionary : Option String := none
  deriving DecidableEq, Repr

inductive Request where
  | run (command : Command)
  | help
  | version
  deriving DecidableEq, Repr

inductive UsageError where
  | unknownArgument (argument : String)
  | repeated (option : String)
  | missingValue (option : String)
  | unexpectedValue (option : String)
  | invalidValue (option value : String)
  | emptyFile
  | missingFile
  | quietAndVerbose
  deriving DecidableEq, Repr

def UsageError.message : UsageError → String
  | .unknownArgument argument => s!"unexpected argument '{argument}' found"
  | .repeated option => s!"the argument '{option}' cannot be used multiple times"
  | .missingValue option => s!"a value is required for '{option}' but none was supplied"
  | .unexpectedValue option => s!"no value is allowed for '{option}'"
  | .invalidValue option value => s!"invalid value '{value}' for '{option}'"
  | .emptyFile => "a file name is required but an empty one was supplied"
  | .missingFile => "no file was supplied"
  | .quietAndVerbose => "the argument '--quiet' cannot be used with '--verbose'"

namespace Command

/-- A natural number of at most 64 bits, possibly behind a plus sign. -/
def parseNumber? (text : String) : Option Nat :=
  let digits := match text.toList with
    | '+' :: digits => digits
    | digits => digits
  if digits.isEmpty || !digits.all Char.isDigit then
    none
  else
    let value := digits.foldl (fun value digit => 10 * value + (digit.toNat - '0'.toNat)) 0
    if value < UInt64.size then some value else none

def addFile (command : Command) (file : String) : Except UsageError Command :=
  if file.isEmpty then
    .error .emptyFile
  else
    .ok { command with files := command.files ++ [file] }

def addSwitch (command : Command) (switch : Switch) (name : String) : Except UsageError Command :=
  if switch != .verbose && command.switches.contains switch then
    .error (.repeated name)
  else
    .ok { command with switches := switch :: command.switches }

def addSetting (command : Command) (name value : String) :
    Setting → Except UsageError Command
  | .timeout =>
    if command.timeoutMs.isSome then
      .error (.repeated name)
    else
      match parseNumber? value with
      | none => .error (.invalidValue name value)
      | some timeoutMs => .ok { command with timeoutMs := some timeoutMs }
  | .dictionary =>
    if command.dictionary.isSome then
      .error (.repeated name)
    else if value.isEmpty then
      .error (.invalidValue name value)
    else
      .ok { command with dictionary := some value }

/-- The checks on a whole command line. -/
def finish (command : Command) : Except UsageError Request :=
  if command.switches.contains .quiet && command.switches.contains .verbose then
    .error .quietAndVerbose
  else if command.files.isEmpty then
    .error .missingFile
  else
    .ok (.run command)

/-- One argument on its own. -/
inductive Argument where
  | file (name : String)
  /-- Two hyphens, behind which everything is a file. -/
  | endOfOptions
  /-- A name behind two hyphens, with the value joined to it if there is one. -/
  | long (name : String) (value : Option String)
  /-- Letters behind one hyphen. -/
  | short (letters : List Char)
  deriving DecidableEq, Repr

def Argument.of (text : String) : Argument :=
  match text.toList with
  | ['-'] => .file text
  | ['-', '-'] => .endOfOptions
  | '-' :: '-' :: option =>
    let name := String.ofList (option.takeWhile (· != '='))
    match option.dropWhile (· != '=') with
    | [] => .long name none
    | _ :: value => .long name (some (String.ofList value))
  | '-' :: letters => .short letters
  | _ => .file text

/-- What remains to be done after one argument. -/
inductive Step where
  | next (command : Command)
  | finished (request : Request)

def applySwitch (command : Command) (name : String) : Switch → Except UsageError Step
  | .help => .ok (.finished .help)
  | .version => .ok (.finished .version)
  | switch => Step.next <$> command.addSwitch switch name

def applyLetters (command : Command) : List Char → Except UsageError Step
  | [] => .ok (.next command)
  | letter :: letters =>
    let name := String.ofList ['-', letter]
    match Switch.ofLetter? letter with
    | none => .error (.unknownArgument name)
    | some switch =>
      match command.applySwitch name switch with
      | .ok (.next command) => applyLetters command letters
      | result => result

/-- An option with a joined value, or one that takes none. -/
def applyLong (command : Command) (name : String) (value : Option String) :
    Except UsageError Step :=
  let shown := "--" ++ name
  match Switch.ofName? name, Setting.ofName? name, value with
  | some _, _, some _ => .error (.unexpectedValue shown)
  | some switch, _, none => command.applySwitch shown switch
  | none, some setting, some value => Step.next <$> command.addSetting shown value setting
  | none, some _, none => .error (.missingValue shown)
  | none, none, _ => .error (.unknownArgument shown)

/-- The setting that an argument names without a value, for which the next argument is taken. -/
def Argument.openSetting? : Argument → Option (String × Setting)
  | .long name none => (Setting.ofName? name).map (("--" ++ name, ·))
  | _ => none

/-- The value that an argument gives to the setting before it. -/
def Argument.value? : Argument → Option String
  | .file text => some text
  | _ => none

def apply (command : Command) : Argument → Except UsageError Step
  | .file name => Step.next <$> command.addFile name
  | .endOfOptions => .ok (.next command)
  | .long name value => command.applyLong name value
  | .short letters => command.applyLetters letters

/-- The rest of a command line, where `pending` is the setting that still waits for its value. -/
def parseFrom (command : Command) (pending : Option (String × Setting)) :
    List Argument → Except UsageError Request
  | [] =>
    match pending with
    | some (name, _) => .error (.missingValue name)
    | none => command.finish
  | argument :: arguments =>
    match pending with
    | some (name, setting) =>
      match argument.value? with
      | none => .error (.missingValue name)
      | some value =>
        match command.addSetting name value setting with
        | .error error => .error error
        | .ok command => parseFrom command none arguments
    | none =>
      match argument.openSetting? with
      | some pending => parseFrom command (some pending) arguments
      | none =>
        match command.apply argument with
        | .error error => .error error
        | .ok (.finished request) => .ok request
        | .ok (.next command) => parseFrom command none arguments

/-- The arguments, of which those behind two hyphens are files. -/
def arguments : List String → List Argument
  | [] => []
  | text :: rest =>
    match Argument.of text with
    | .endOfOptions => .endOfOptions :: rest.map .file
    | argument => argument :: arguments rest

def parse (args : List String) : Except UsageError Request :=
  parseFrom {} none (arguments args)

/-! ### What the options mean -/

def has (command : Command) (switch : Switch) : Bool := command.switches.contains switch

def logLevel (command : Command) : Log.Level :=
  if command.has .quiet then
    .error
  else
    match command.switches.count .verbose with
    | 0 => .info
    | 1 => .debug
    | _ => .trace

/-- The options of the analysis. The dictionary is the content of the file that is named. -/
def options (command : Command) (dictionary : Option Bytes) : Options where
  decompress := !command.has .noDecompress
  verifyChecksums := !command.has .noChecksums
  strictBlockSize := !command.has .lenient
  parallel := !command.has .sequential
  blockTimeout := command.timeoutMs.map (· * 1000000)
  dictionary := dictionary

end Command

end Lz4Frame.Cli
