import Mathlib.Data.List.Basic
import Lz4Frame.Cli.Command

/-! Which commands a command line can give. The arguments are taken one by one, and none of them
makes a command that is not sound, `Command.Sound.step_of_apply`. So what is accepted is sound, has
a file and is not quiet and verbose at once, and every such command has a spelling,
`Command.exists_parse_iff`. -/

namespace Lz4Frame.Cli

/-! ### Names -/

/-- The name behind two hyphens. -/
def Switch.name : Switch → String
  | .noDecompress => "no-decompress"
  | .noChecksums => "no-checksums"
  | .lenient => "lenient"
  | .sequential => "sequential"
  | .blocks => "blocks"
  | .verbose => "verbose"
  | .quiet => "quiet"
  | .help => "help"
  | .version => "version"

@[simp] theorem Switch.ofName?_name (switch : Switch) : ofName? switch.name = some switch := by
  cases switch <;> rfl

@[simp] theorem Setting.ofName?_name (switch : Switch) : Setting.ofName? switch.name = none := by
  cases switch <;> rfl

namespace Command

/-- Any switch that does not end the command line is noted. -/
theorem applySwitch_eq {command : Command} {name : String} {switch : Switch}
    (hhelp : switch ≠ .help) (hversion : switch ≠ .version) :
    command.applySwitch name switch = Step.next <$> command.addSwitch switch name := by
  cases switch with
  | help => exact absurd rfl hhelp
  | version => exact absurd rfl hversion
  | _ => rfl

/-! ### Sound commands -/

/-- What holds of a command from the first argument on. -/
structure Sound (command : Command) : Prop where
  file_ne : ∀ file ∈ command.files, file.isEmpty = false
  count_le : ∀ switch, switch ≠ .verbose → command.switches.count switch ≤ 1
  help_not_mem : .help ∉ command.switches
  version_not_mem : .version ∉ command.switches
  timeout_lt : ∀ timeout, command.timeoutMs = some timeout → timeout < UInt64.size
  dictionary_ne : ∀ path, command.dictionary = some path → path.isEmpty = false

/-- What holds of a command that is accepted. -/
structure Accepted (command : Command) : Prop extends command.Sound where
  files_ne : command.files.isEmpty = false
  not_quiet_and_verbose : ¬(.quiet ∈ command.switches ∧ .verbose ∈ command.switches)

/-- What holds of the step that an argument makes. -/
def Step.Sound : Step → Prop
  | .next command => command.Sound
  | .finished request => ∀ command, request ≠ .run command

namespace Sound

variable {command next : Command}

theorem empty : ({} : Command).Sound where
  file_ne := nofun
  count_le _ _ := Nat.zero_le 1
  help_not_mem := List.not_mem_nil
  version_not_mem := List.not_mem_nil
  timeout_lt := nofun
  dictionary_ne := nofun

theorem addFile (h : command.Sound) {file : String} (hnext : command.addFile file = .ok next) :
    next.Sound := by
  unfold Command.addFile at hnext
  split_ifs at hnext with hempty
  cases hnext
  refine { h with file_ne := fun other hother => ?_ }
  rcases List.mem_append.1 hother with hother | hother
  · exact h.file_ne other hother
  · rw [List.mem_singleton.1 hother]
    exact Bool.eq_false_iff.2 hempty

theorem addSwitch (h : command.Sound) {switch : Switch} {name : String}
    (hhelp : switch ≠ .help) (hversion : switch ≠ .version)
    (hnext : command.addSwitch switch name = .ok next) : next.Sound := by
  unfold Command.addSwitch at hnext
  split_ifs at hnext with hrepeated
  cases hnext
  refine { h with
    count_le := fun other hother => ?_
    help_not_mem := List.not_mem_cons_of_ne_of_not_mem hhelp.symm h.help_not_mem
    version_not_mem := List.not_mem_cons_of_ne_of_not_mem hversion.symm h.version_not_mem }
  by_cases heq : switch = other
  · subst heq
    have hnew : switch ∉ command.switches := fun hmem => hrepeated (by simp [hother, hmem])
    exact Nat.le_of_eq (List.count_cons_self.trans (by rw [List.count_eq_zero.2 hnew]))
  · rw [List.count_cons_of_ne heq]
    exact h.count_le other hother

theorem parseNumber?_lt {text : String} {value : ℕ} (h : parseNumber? text = some value) :
    value < UInt64.size := by
  unfold parseNumber? at h
  dsimp only at h
  split_ifs at h with _ hlt
  cases h
  exact hlt

theorem addSetting (h : command.Sound) {name value : String} {setting : Setting}
    (hnext : command.addSetting name value setting = .ok next) : next.Sound := by
  cases setting with
  | timeout =>
    simp only [Command.addSetting] at hnext
    split_ifs at hnext
    split at hnext
    · cases hnext
    next timeout hnumber =>
      cases hnext
      refine { h with timeout_lt := ?_ }
      rintro _ ⟨⟩
      exact parseNumber?_lt hnumber
  | dictionary =>
    simp only [Command.addSetting] at hnext
    split_ifs at hnext with _ hempty
    cases hnext
    refine { h with dictionary_ne := ?_ }
    rintro _ ⟨⟩
    exact Bool.eq_false_iff.2 hempty

/-- What an addition makes of a command, as a step. -/
theorem of_map_next {added : Except UsageError Command} {step : Step}
    (hadded : ∀ next, added = .ok next → next.Sound) (h : Step.next <$> added = .ok step) :
    step.Sound := by
  cases added with
  | error error => cases h
  | ok next =>
    cases h
    exact hadded next rfl

theorem applySwitch (h : command.Sound) {name : String} {switch : Switch} {step : Step}
    (hstep : command.applySwitch name switch = .ok step) : step.Sound := by
  by_cases hhelp : switch = .help
  · subst hhelp
    cases hstep
    exact nofun
  by_cases hversion : switch = .version
  · subst hversion
    cases hstep
    exact nofun
  rw [applySwitch_eq hhelp hversion] at hstep
  exact of_map_next (fun next => h.addSwitch hhelp hversion) hstep

theorem applyLetters (h : command.Sound) {letters : List Char} {step : Step}
    (hstep : command.applyLetters letters = .ok step) : step.Sound := by
  induction letters generalizing command with
  | nil =>
    cases hstep
    exact h
  | cons letter letters ih =>
    unfold Command.applyLetters at hstep
    dsimp only at hstep
    split at hstep
    · cases hstep
    next switch _ =>
      split at hstep
      next next hnext => exact ih (h.applySwitch hnext) hstep
      next => exact h.applySwitch hstep

theorem applyLong (h : command.Sound) {name : String} {value : Option String} {step : Step}
    (hstep : command.applyLong name value = .ok step) : step.Sound := by
  unfold Command.applyLong at hstep
  dsimp only at hstep
  split at hstep
  · cases hstep
  · exact h.applySwitch hstep
  · exact of_map_next (fun next => h.addSetting) hstep
  · cases hstep
  · cases hstep

/-- One argument. -/
theorem step_of_apply (h : command.Sound) {argument : Argument} {step : Step}
    (hstep : command.apply argument = .ok step) : step.Sound := by
  cases argument with
  | file name => exact of_map_next (fun next => h.addFile) hstep
  | endOfOptions =>
    cases hstep
    exact h
  | long name value => exact h.applyLong hstep
  | short letters => exact h.applyLetters hstep

theorem accepted_of_finish (h : command.Sound) (hrun : command.finish = .ok (.run next)) :
    next.Accepted := by
  unfold finish at hrun
  split_ifs at hrun with hboth hempty
  cases hrun
  refine { h with files_ne := Bool.eq_false_iff.2 hempty, not_quiet_and_verbose := ?_ }
  simpa using hboth

/-- All arguments, one after the other. -/
theorem accepted_of_parseFrom (h : command.Sound) {pending : Option (String × Setting)}
    {arguments : List Argument} (hrun : command.parseFrom pending arguments = .ok (.run next)) :
    next.Accepted := by
  induction arguments generalizing command pending with
  | nil =>
    unfold parseFrom at hrun
    split at hrun
    · cases hrun
    · exact h.accepted_of_finish hrun
  | cons argument arguments ih =>
    unfold parseFrom at hrun
    split at hrun
    · split at hrun
      · cases hrun
      · split at hrun
        · cases hrun
        next hadded => exact ih (h.addSetting hadded) hrun
    · split at hrun
      · exact ih h hrun
      · split at hrun
        · cases hrun
        next hstep =>
          cases hrun
          exact absurd rfl (h.step_of_apply hstep _)
        next hstep => exact ih (h.step_of_apply hstep) hrun

end Sound

theorem accepted_of_parse {args : List String} {command : Command}
    (h : parse args = .ok (.run command)) : command.Accepted :=
  Sound.empty.accepted_of_parseFrom h

/-! ### Spellings -/

/-- A command line for a command: the switches, the values joined to their options, and the files
behind two hyphens. -/
def spell (command : Command) : List String :=
  command.switches.reverse.map (fun switch => "--" ++ switch.name) ++
    ((command.timeoutMs.map fun timeout => "--timeout-ms=" ++ toString timeout).toList ++
      ((command.dictionary.map fun path => "--dict=" ++ path).toList ++ "--" :: command.files))

/-- The arguments that it is made of. -/
def spelled (command : Command) : List Argument :=
  command.switches.reverse.map (fun switch => .long switch.name none) ++
    ((command.timeoutMs.map fun timeout => .long "timeout-ms" (some (toString timeout))).toList ++
      ((command.dictionary.map fun path => .long "dict" (some path)).toList ++
        .endOfOptions :: command.files.map .file))

theorem of_switch (switch : Switch) :
    Argument.of ("--" ++ switch.name) = .long switch.name none := by
  cases switch <;> rfl

theorem of_timeout (value : String) :
    Argument.of ("--timeout-ms=" ++ value) = .long "timeout-ms" (some value) := by
  simp [Argument.of, String.toList_append]

theorem of_dictionary (value : String) :
    Argument.of ("--dict=" ++ value) = .long "dict" (some value) := by
  simp [Argument.of, String.toList_append]

theorem arguments_append {front rest : List String}
    (h : ∀ text ∈ front, Argument.of text ≠ .endOfOptions) :
    arguments (front ++ rest) = front.map Argument.of ++ arguments rest := by
  induction front with
  | nil => rfl
  | cons text front ih =>
    rw [List.cons_append, arguments]
    split
    next hof => exact absurd hof (h text List.mem_cons_self)
    next => rw [ih fun other hother => h other (List.mem_cons_of_mem text hother), List.map_cons,
      List.cons_append]

theorem arguments_spell (command : Command) : arguments command.spell = command.spelled := by
  have hswitches : ∀ text ∈ command.switches.reverse.map fun switch => "--" ++ switch.name,
      Argument.of text ≠ .endOfOptions := by
    intro text htext
    obtain ⟨switch, -, rfl⟩ := List.mem_map.1 htext
    rw [of_switch]
    nofun
  have htimeout : ∀ text ∈ (command.timeoutMs.map fun timeout =>
      "--timeout-ms=" ++ toString timeout).toList, Argument.of text ≠ .endOfOptions := by
    intro text htext
    obtain ⟨timeout, -, rfl⟩ := Option.map_eq_some_iff.1 (Option.mem_toList.1 htext)
    rw [of_timeout]
    nofun
  have hdictionary : ∀ text ∈ (command.dictionary.map fun path => "--dict=" ++ path).toList,
      Argument.of text ≠ .endOfOptions := by
    intro text htext
    obtain ⟨path, -, rfl⟩ := Option.map_eq_some_iff.1 (Option.mem_toList.1 htext)
    rw [of_dictionary]
    nofun
  rw [spell, arguments_append hswitches, arguments_append htimeout, arguments_append hdictionary,
    spelled]
  congr 1
  · simp [Function.comp_def, of_switch]
  · congr 1
    · cases command.timeoutMs <;> simp [of_timeout]
    · congr 1
      cases command.dictionary <;> simp [of_dictionary]

/-- An argument that does not wait for the next one. -/
theorem parseFrom_cons {command next : Command} {argument : Argument}
    (hpending : argument.openSetting? = none) (hnext : command.apply argument = .ok (.next next))
    (rest : List Argument) :
    command.parseFrom none (argument :: rest) = next.parseFrom none rest := by
  rw [parseFrom, hpending]
  dsimp only
  rw [hnext]

theorem parseFrom_switches {command : Command} {given : List Switch}
    (hcount : ∀ switch, switch ≠ .verbose → (given.reverse ++ command.switches).count switch ≤ 1)
    (hhelp : .help ∉ given) (hversion : .version ∉ given) (rest : List Argument) :
    command.parseFrom none (given.map (fun switch => .long switch.name none) ++ rest) =
      { command with switches := given.reverse ++ command.switches }.parseFrom none rest := by
  induction given generalizing command with
  | nil => rfl
  | cons switch given ih =>
    have hnew : (switch != .verbose && command.switches.contains switch) = false := by
      by_contra hrepeated
      simp only [Bool.not_eq_false, Bool.and_eq_true, bne_iff_ne, List.contains_iff_mem]
        at hrepeated
      have hle := hcount switch hrepeated.1
      have hpos := List.count_pos_iff.2 hrepeated.2
      simp only [List.reverse_cons, List.count_append, List.count_singleton_self] at hle
      omega
    have happly : command.apply (.long switch.name none) =
        .ok (.next { command with switches := switch :: command.switches }) := by
      have hadd : command.addSwitch switch ("--" ++ switch.name) =
          .ok { command with switches := switch :: command.switches } := by
        rw [addSwitch, hnew]
        rfl
      simp only [apply, applyLong, Switch.ofName?_name]
      rw [applySwitch_eq (List.ne_of_not_mem_cons hhelp).symm
        (List.ne_of_not_mem_cons hversion).symm, hadd]
      rfl
    rw [List.map_cons, List.cons_append, parseFrom_cons (by simp [Argument.openSetting?]) happly,
      ih _ (List.not_mem_of_not_mem_cons hhelp) (List.not_mem_of_not_mem_cons hversion)]
    · simp
    · simpa using hcount

theorem parseFrom_files {command : Command} {files : List String}
    (h : ∀ file ∈ files, file.isEmpty = false) :
    command.parseFrom none (files.map .file) =
      { command with files := command.files ++ files }.finish := by
  induction files generalizing command with
  | nil =>
    rw [List.append_nil]
    rfl
  | cons file files ih =>
    have happly : command.apply (.file file) =
        .ok (.next { command with files := command.files ++ [file] }) := by
      rw [apply, addFile, h file List.mem_cons_self]
      rfl
    rw [List.map_cons, parseFrom_cons rfl happly,
      ih fun other hother => h other (List.mem_cons_of_mem file hother), List.append_assoc]
    rfl

theorem parseNumber?_toString {n : ℕ} (h : n < UInt64.size) :
    parseNumber? (toString n) = some n := by
  have hdigits : (toString n).toList = Nat.toDigits 10 n := Nat.toList_repr
  have hall : ∀ digit ∈ Nat.toDigits 10 n, digit.isDigit = true :=
    fun digit => Nat.isDigit_of_mem_toDigits (by decide) (by decide)
  have hvalue : (Nat.toDigits 10 n).foldl
      (fun value digit => 10 * value + (digit.toNat - '0'.toNat)) 0 = n :=
    Nat.ofDigitChars_toDigits (by decide) (by decide)
  have hcheck : ((Nat.toDigits 10 n).isEmpty || !(Nat.toDigits 10 n).all Char.isDigit) = false := by
    simpa using hall
  unfold parseNumber?
  rw [hdigits]
  extract_lets digits value
  have hread : digits = Nat.toDigits 10 n := by
    unfold digits
    split
    next signed hsigned => exact absurd (hall '+' (by simp [hsigned])) (by decide)
    next => rfl
  have hvalue' : value = n := by
    rw [← hvalue, ← hread]
  rw [hread, hvalue', hcheck, if_neg Bool.false_ne_true, if_pos h]

theorem parseFrom_timeout {command : Command} {timeoutMs : Option ℕ}
    (hnone : command.timeoutMs = none)
    (hlt : ∀ timeout, timeoutMs = some timeout → timeout < UInt64.size) (rest : List Argument) :
    command.parseFrom none ((timeoutMs.map fun timeout =>
        .long "timeout-ms" (some (toString timeout))).toList ++ rest) =
      { command with timeoutMs }.parseFrom none rest := by
  cases timeoutMs with
  | none =>
    have hsame : { command with timeoutMs := none } = command := by rw [← hnone]
    rw [hsame]
    rfl
  | some timeout =>
    have happly : command.apply (.long "timeout-ms" (some (toString timeout))) =
        .ok (.next { command with timeoutMs := some timeout }) := by
      have hadd : command.addSetting "--timeout-ms" (toString timeout) .timeout =
          .ok { command with timeoutMs := some timeout } := by
        rw [addSetting, hnone, parseNumber?_toString (hlt timeout rfl)]
        rfl
      exact congrArg (Step.next <$> ·) hadd
    exact parseFrom_cons rfl happly rest

theorem parseFrom_dictionary {command : Command} {dictionary : Option String}
    (hnone : command.dictionary = none)
    (hne : ∀ path, dictionary = some path → path.isEmpty = false) (rest : List Argument) :
    command.parseFrom none ((dictionary.map fun path => .long "dict" (some path)).toList ++ rest) =
      { command with dictionary }.parseFrom none rest := by
  cases dictionary with
  | none =>
    have hsame : { command with dictionary := none } = command := by rw [← hnone]
    rw [hsame]
    rfl
  | some path =>
    have happly : command.apply (.long "dict" (some path)) =
        .ok (.next { command with dictionary := some path }) := by
      have hadd : command.addSetting "--dict" path .dictionary =
          .ok { command with dictionary := some path } := by
        rw [addSetting, hnone, hne path rfl]
        rfl
      exact congrArg (Step.next <$> ·) hadd
    exact parseFrom_cons rfl happly rest

/-- Reading undoes spelling. -/
theorem parse_spell {command : Command} (h : command.Accepted) :
    parse command.spell = .ok (.run command) := by
  obtain ⟨files, switches, timeoutMs, dictionary⟩ := command
  have hcount : ∀ switch, switch ≠ .verbose →
      (switches.reverse.reverse ++ ({} : Command).switches).count switch ≤ 1 := by
    simpa using h.count_le
  have hfinish : finish ⟨files, switches, timeoutMs, dictionary⟩ =
      .ok (.run ⟨files, switches, timeoutMs, dictionary⟩) := by
    rw [finish, if_neg (by simpa using h.not_quiet_and_verbose), h.files_ne]
    rfl
  rw [parse, arguments_spell, spelled, parseFrom_switches hcount (by simpa using h.help_not_mem)
    (by simpa using h.version_not_mem), parseFrom_timeout rfl h.timeout_lt,
    parseFrom_dictionary rfl h.dictionary_ne, parseFrom_cons rfl rfl, parseFrom_files h.file_ne]
  simpa using hfinish

/-- A command line can give exactly the commands that are accepted. -/
theorem exists_parse_iff {command : Command} :
    (∃ args, parse args = .ok (.run command)) ↔ command.Accepted :=
  ⟨fun ⟨_, h⟩ => accepted_of_parse h, fun h => ⟨command.spell, parse_spell h⟩⟩

end Command

end Lz4Frame.Cli
