import Lz4Frame.Cli.Run
import Lz4Frame.Proofs.Cli.Command
import Lz4Frame.Proofs.Uncancelled

/-! A run of the command line takes its files one by one. What a file adds to a run is told by the
options and by what the file holds, `Command.processFile_ensures`, so a run is as good as any other
one on the same files, `Command.run_ensures`, and it prints what runs on the single files print,
`run_filewise`. -/

namespace Lz4Frame.Cli

section Ensures

variable {σ α β : Type} {holds : σ → Prop}

theorem ensures_map_eq {x : StateM σ α} {a : α} (f : α → β) (hx : Ensures holds x (· = a)) :
    Ensures holds (f <$> x) (· = f a) := .map (hx.mono fun _ h => congrArg f h)

/-- What is computed for each item of a list is computed for all of them. -/
theorem ensures_mapM {f : α → StateM σ β} {g : α → β} (h : ∀ a, Ensures holds (f a) (· = g a))
    (items : List α) : Ensures holds (items.mapM f) (· = items.map g) := by
  induction items with
  | nil => exact .pure rfl
  | cons item items ih =>
    rw [List.mapM_cons]
    refine .bind (h item) fun first hfirst => .bind ih fun rest hrest => .pure ?_
    rw [hfirst, hrest, List.map_cons]

end Ensures

namespace Command

/-! ### Single files -/

/-- What a file with some content, or without any, adds to a run. -/
def outcomeOf (command : Command) (options : Options)
    (files : String → Except LoadError Bytes) (name : String) : FileOutcome :=
  Id.run (command.processFile (.ofDecompressor .lz4) options (fun name => pure (files name)) name)

/-- A file fails if it cannot be loaded or is invalid. -/
def fails (command : Command) (dictionary : Option Bytes)
    (files : String → Except LoadError Bytes) (name : String) : Bool :=
  match files name with
  | .error _ => true
  | .ok input => (report .lz4 (command.options dictionary) input).verdict.isInvalid

section

variable {command : Command} {options : Options} {dictionary : Option Bytes}
  {files : String → Except LoadError Bytes} {name : String}

theorem outcomeOf_of_error {error : LoadError} (h : files name = .error error) :
    command.outcomeOf options files name =
      { log := [⟨.error, "lz4scan", ""⟩], errors := [(error.chain name).map Log.escape],
        failed := true } := by
  simp only [outcomeOf, processFile, pure_bind, h]
  rfl

theorem outcomeOf_of_ok {input : Bytes} (h : files name = .ok input) :
    command.outcomeOf options files name =
      Id.run (command.reportOn (.ofDecompressor .lz4) options name input) := by
  simp only [outcomeOf, processFile, pure_bind, h]

theorem output_outcomeOf {input : Bytes} (h : files name = .ok input) :
    (command.outcomeOf options files name).output =
      render name (command.has .blocks) (report .lz4 options input) := by
  rw [outcomeOf_of_ok h]
  rfl

theorem failed_outcomeOf :
    (command.outcomeOf (command.options dictionary) files name).failed =
      command.fails dictionary files name := by
  unfold fails
  rcases h : files name with error | input
  · rw [outcomeOf_of_error h]
  · rw [outcomeOf_of_ok h]
    rfl

/-- Only a file that fails has something to tell. -/
theorem errors_outcomeOf (h : (command.outcomeOf options files name).failed = false) :
    (command.outcomeOf options files name).errors = [] := by
  rcases hfile : files name with error | input
  · rw [outcomeOf_of_error hfile] at h
    cases h
  · rw [outcomeOf_of_ok hfile]
    rfl

end

/-! ### Runs -/

/-- What a run on files with some content, or without any, leaves behind. -/
def outcome (command : Command) (files : String → Except LoadError Bytes) : Outcome :=
  let path := command.dictionary.getD ""
  match command.dictionary.mapM files with
  | .error error =>
    { exitCode := 1, errors := [[s!"failed to read dictionary {path}", error.reason]] }
  | .ok dictionary =>
    command.conclude (command.files.map (command.outcomeOf (command.options dictionary) files))

section Run

variable {σ : Type} {holds : σ → Prop} {env : Environment (StateM σ)}
  {load : String → StateM σ (Except LoadError Bytes)} {files : String → Except LoadError Bytes}
  (hsteady : env.SteadyOn holds .lz4 false)
  (hload : ∀ name, Ensures holds (load name) (· = files name))

include hsteady in
theorem reportOn_ensures (command : Command) {options : Options}
    (htimeout : options.blockTimeout = none) (name : String) (input : Bytes) :
    Ensures holds (command.reportOn env options name input)
      (· = Id.run (command.reportOn (.ofDecompressor .lz4) options name input)) := by
  refine .bind (examine_ensures hsteady htimeout input) fun findings hfindings => .pure ?_
  subst hfindings
  rfl

include hsteady hload

theorem processFile_ensures (command : Command) {options : Options}
    (htimeout : options.blockTimeout = none) (name : String) :
    Ensures holds (command.processFile env options load name)
      (· = command.outcomeOf options files name) := by
  refine .bind (hload name) fun loaded hloaded => ?_
  subst hloaded
  rcases hfile : files name with error | input
  · rw [outcomeOf_of_error hfile]
    exact .pure rfl
  · rw [outcomeOf_of_ok hfile]
    exact command.reportOn_ensures hsteady htimeout name input

/-- In surroundings that do not change, a run is told by the command and by what the files hold. -/
theorem run_ensures {command : Command} (htimeout : command.timeoutMs = none) :
    Ensures holds (command.run env load) (· = command.outcome files) := by
  have hoptions : ∀ dictionary, (command.options dictionary).blockTimeout = none := by
    intro dictionary
    rw [options, htimeout]
    rfl
  have hfiles : ∀ dictionary, Ensures holds
      (command.conclude <$> command.files.mapM
        (command.processFile env (command.options dictionary) load))
      (· = command.conclude
        (command.files.map (command.outcomeOf (command.options dictionary) files))) :=
    fun dictionary => ensures_map_eq _
      (ensures_mapM (processFile_ensures hsteady hload command (hoptions dictionary)) _)
  unfold run outcome
  rcases command.dictionary with _ | name
  · exact .bind (.pure rfl) fun loaded hloaded => hloaded ▸ hfiles none
  · have hmap : Option.mapM files (some name) = some <$> files name := rfl
    refine .bind (ensures_map_eq _ (hload name)) ?_
    rintro _ rfl
    rw [hmap]
    rcases files name with error | bytes
    · exact .pure rfl
    · exact hfiles (some bytes)

end Run

/-! ### Outcomes -/

/-- The same options for a single file. -/
def only (command : Command) (file : String) : Command := { command with files := [file] }

theorem Accepted.only {command : Command} (h : command.Accepted) {file : String}
    (hfile : file ∈ command.files) : (command.only file).Accepted :=
  { h with
    file_ne := List.forall_mem_singleton.2 (h.file_ne file hfile)
    files_ne := rfl }

section Outcome

variable {command : Command} {files : String → Except LoadError Bytes}
  {dictionary : Option Bytes}

theorem outcome_of_error {error : LoadError} (h : command.dictionary.mapM files = .error error) :
    (command.outcome files).output = "" ∧ (command.outcome files).exitCode = 1 := by
  rw [outcome, h]
  exact ⟨rfl, rfl⟩

theorem outcome_of_ok (h : command.dictionary.mapM files = .ok dictionary) :
    command.outcome files = command.conclude
      (command.files.map (command.outcomeOf (command.options dictionary) files)) := by
  rw [outcome, h]

theorem output_only (h : command.dictionary.mapM files = .ok dictionary) (file : String) :
    ((command.only file).outcome files).output =
      (command.outcomeOf (command.options dictionary) files file).output := by
  have honly : (command.only file).dictionary.mapM files = .ok dictionary := h
  rw [outcome_of_ok honly]
  exact String.empty_append

theorem countP_failed :
    (command.files.map (command.outcomeOf (command.options dictionary) files)).countP
        FileOutcome.failed = command.files.countP (command.fails dictionary files) := by
  rw [List.countP_map]
  congr 1
  funext file
  exact failed_outcomeOf

theorem exitCode_conclude_ne_zero_iff {outcomes : List FileOutcome} :
    (command.conclude outcomes).exitCode ≠ 0 ↔ 0 < outcomes.countP FileOutcome.failed := by
  simp only [conclude]
  split_ifs with h
  · simp [h]
  · simp [Nat.pos_of_ne_zero h]

/-- The last error is the one that counts the files that failed. -/
theorem getLast?_errors_conclude {outcomes : List FileOutcome}
    (h : ∀ outcome ∈ outcomes, outcome.failed = false → outcome.errors = []) :
    let failures := outcomes.countP FileOutcome.failed
    (command.conclude outcomes).errors.getLast? =
      if failures = 0 then none
      else some [s!"{failures} of {command.files.length} files are not valid LZ4 frames"] := by
  intro failures
  simp only [conclude]
  split_ifs with hnone
  · have hquiet : outcomes.flatMap FileOutcome.errors = [] := by
      refine List.flatMap_eq_nil_iff.2 fun outcome hmem => h outcome hmem ?_
      exact Bool.eq_false_iff.2 (List.countP_eq_zero.1 hnone outcome hmem)
    rw [hquiet]
    rfl
  · rw [List.getLast?_append, List.getLast?_singleton]
    rfl

end Outcome

end Command

/-- What a run leaves behind whose arguments give a command without a time limit. -/
theorem run_of_parse {σ : Type} {holds : σ → Prop} {env : Environment (StateM σ)}
    {load : String → StateM σ (Except LoadError Bytes)} {files : String → Except LoadError Bytes}
    (hsteady : env.SteadyOn holds .lz4 false)
    (hload : ∀ name, Ensures holds (load name) (· = files name)) {args : List String}
    {command : Command} (hargs : Command.parse args = .ok (.run command))
    (htimeout : command.timeoutMs = none) {state : σ} (hstate : holds state) :
    ((run env load args).run state).1 = command.outcome files := by
  rw [run, hargs]
  exact (Command.run_ensures hsteady hload htimeout state hstate).1

/-- Whatever the files hold, a run without a time limit takes them independently of each other. It
prints what runs with the same options on the single files print, nothing for a file that cannot be
loaded. It fails if and only if some file cannot be loaded or is invalid, and its last error tells
how many of them do. Without its dictionary, it fails and prints nothing. -/
theorem run_filewise {σ : Type} {holds : σ → Prop} {env : Environment (StateM σ)}
    {load : String → StateM σ (Except LoadError Bytes)} {files : String → Except LoadError Bytes}
    (hsteady : env.SteadyOn holds .lz4 false)
    (hload : ∀ name, Ensures holds (load name) (· = files name)) {args : List String}
    {command : Command} (hargs : Command.parse args = .ok (.run command))
    (htimeout : command.timeoutMs = none) {state : σ} (hstate : holds state) :
    let outcome := ((run env load args).run state).1
    (∀ error, command.dictionary.mapM files = .error error →
      outcome.output = "" ∧ outcome.exitCode ≠ 0) ∧
    ∀ dictionary, command.dictionary.mapM files = .ok dictionary →
      let failures := command.files.countP (command.fails dictionary files)
      (∀ file ∈ command.files,
        Command.parse (command.only file).spell = .ok (.run (command.only file))) ∧
      (∀ (alone : String → List String) (before : String → σ),
        (∀ file ∈ command.files, Command.parse (alone file) = .ok (.run (command.only file)) ∧
          holds (before file)) →
        let printed file := ((run env load (alone file)).run (before file)).1.output
        outcome.output = String.join (command.files.map printed) ∧
          ∀ file ∈ command.files, printed file =
            match files file with
            | .error _ => ""
            | .ok input =>
              render file (command.has .blocks)
                (report .lz4 (command.options dictionary) input)) ∧
      (outcome.exitCode ≠ 0 ↔ ∃ file ∈ command.files, command.fails dictionary files file = true) ∧
      outcome.errors.getLast? =
        if failures = 0 then none
        else some [s!"{failures} of {command.files.length} files are not valid LZ4 frames"] := by
  intro outcome
  have houtcome : outcome = command.outcome files :=
    run_of_parse hsteady hload hargs htimeout hstate
  constructor
  · intro error herror
    obtain ⟨houtput, hexit⟩ := Command.outcome_of_error herror
    rw [houtcome, houtput, hexit]
    exact ⟨rfl, by decide⟩
  intro dictionary hdictionary failures
  rw [Command.outcome_of_ok hdictionary] at houtcome
  refine ⟨fun file hfile => ?_, fun alone before halone => ?_, ?_, ?_⟩
  · exact Command.parse_spell ((Command.accepted_of_parse hargs).only hfile)
  · intro printed
    have hprinted : ∀ file ∈ command.files, printed file =
        (command.outcomeOf (command.options dictionary) files file).output := by
      intro file hfile
      obtain ⟨halone, hbefore⟩ := halone file hfile
      have hrun : ((run env load (alone file)).run (before file)).1 =
          (command.only file).outcome files :=
        run_of_parse hsteady hload halone htimeout hbefore
      rw [← Command.output_only hdictionary, ← hrun]
    constructor
    · rw [houtcome]
      show String.join _ = _
      rw [List.map_map, List.map_congr_left hprinted]
      rfl
    · intro file hfile
      rw [hprinted file hfile]
      split
      next error herror => rw [Command.outcomeOf_of_error herror]
      next input hinput => exact Command.output_outcomeOf hinput
  · rw [houtcome, Command.exitCode_conclude_ne_zero_iff, Command.countP_failed, List.countP_pos_iff]
  · rw [houtcome, Command.getLast?_errors_conclude, Command.countP_failed]
    intro outcome hmem
    obtain ⟨file, -, rfl⟩ := List.mem_map.1 hmem
    exact Command.errors_outcomeOf

/-- Two files, of which one is partially valid and the other one is no frame. -/
def letterFiles : String → Except LoadError Bytes
  | "letters" => .ok FrameLayout.letters.encode.toArray
  | "empty" => .ok #[]
  | _ => .error (.opening "No such file or directory (os error 2)")

theorem run_filewise_letters :
    let load := fun name => (pure (letterFiles name) : StateM ℕ _)
    let args := ["--blocks", "letters", "missing", "-q", "empty", "letters", "--dict=letters"]
    let alone := fun file => ["--blocks", file, "-q", "--dict", "letters"]
    let outcome := ((run (.ticking .backward) load args).run 0).1
    let printed := fun file => ((run (.ticking .backward) load (alone file)).run 7).1.output
    outcome.exitCode ≠ 0 ∧
      outcome.errors.getLast? = some ["2 of 4 files are not valid LZ4 frames"] ∧
      outcome.output = String.join (["letters", "missing", "empty", "letters"].map printed) ∧
      printed "missing" = "" := by
  let command : Command :=
    { files := ["letters", "missing", "empty", "letters"]
      switches := [.quiet, .blocks]
      dictionary := some "letters" }
  intro load args alone outcome printed
  have hargs : Command.parse args = .ok (.run command) := by decide +kernel
  have hload : ∀ name, Ensures (fun _ => True) (load name) (· = letterFiles name) :=
    fun name => .pure rfl
  have hstart : (fun _ : ℕ => True) 0 := trivial
  obtain ⟨-, hfilewise⟩ :=
    run_filewise (Environment.steadyOn_ticking .backward) hload hargs rfl hstart
  obtain ⟨-, halone, hexit, hlast⟩ := hfilewise (some FrameLayout.letters.encode.toArray) rfl
  have hparsed : ∀ file ∈ command.files,
      Command.parse (alone file) = .ok (.run (command.only file)) := by
    decide +kernel
  obtain ⟨houtput, hprinted⟩ := halone alone (fun _ => 7) fun file hfile =>
    ⟨hparsed file hfile, trivial⟩
  have hfailures : command.files.countP
      (command.fails (some FrameLayout.letters.encode.toArray) letterFiles) = 2 := by
    decide +kernel
  refine ⟨hexit.2 ⟨"missing", by decide, rfl⟩, ?_, houtput, hprinted "missing" (by decide)⟩
  rw [hlast, hfailures]
  decide +kernel

end Lz4Frame.Cli
