import PluginDataset.Files.Path

/-!
# Command line arguments

Arguments are read from left to right. A command may be followed by one of its own commands. Some
options are understood at every level; at one level each of those with a value may be given once,
and the innermost one counts.

## Main definitions

* `Invocation` is what the arguments ask for.
* `Arguments.parse` reads arguments.
-/

namespace PluginDataset

inductive Task where
  | build
  | validate (path : Option Path)
  | initConfig
  | showConfig
deriving DecidableEq, Repr

/-- A task and the file of the configuration, if it is not the standard one. -/
structure Invocation where
  config : Option Path
  task : Task
deriving DecidableEq, Repr

/-- What arguments amount to: a run, a text about the program, or a mistake. -/
inductive Parsed where
  | run (i : Invocation)
  | version
  | help
  | mistake
deriving DecidableEq, Repr

namespace Arguments

/-- The command that has been read so far. -/
inductive Level where
  | top
  | build
  | validate
  | config
  | initConfig
  | showConfig
deriving DecidableEq, Repr

/-- What has been read so far. The flags tell which options have been given at the present level,
and whether all further arguments are operands. -/
structure Reading where
  level : Level := .top
  config : Option Path := none
  configGiven : Bool := false
  formatGiven : Bool := false
  operand : Option Path := none
  operandsOnly : Bool := false

def command? : Level → List Char → Option Level
  | .top, word =>
    if word = "build".toList then some .build
    else if word = "validate".toList then some .validate
    else if word = "config".toList then some .config
    else none
  | .config, word =>
    if word = "init".toList then some .initConfig
    else if word = "show".toList then some .showConfig
    else none
  | _, _ => none

def isHelpCommand (level : Level) (word : List Char) : Bool :=
  (level == .top || level == .config) && word == "help".toList

def Reading.enter (r : Reading) (level : Level) : Reading :=
  { level, config := r.config }

/-- Whether a word is an option, so that it cannot be the value of one. -/
def isOption : List Char → Bool
  | '-' :: _ :: _ => true
  | _ => false

/-- A word cut at its first equals sign: the part before it, and the part after it if it is there.
-/
def splitValue : List Char → List Char × Option (List Char)
  | [] => ([], none)
  | '=' :: rest => ([], some rest)
  | c :: rest =>
    let (name, value) := splitValue rest
    (c :: name, value)

def Reading.setConfig? (r : Reading) (value : List Char) : Option Reading :=
  if r.configGiven || value.isEmpty then none
  else some { r with config := some ⟨Utf8.encode value⟩, configGiven := true }

/-- Sets the format of log lines, which has no effect on results. -/
def Reading.setFormat? (r : Reading) (value : List Char) : Option Reading :=
  if r.formatGiven || !(value == "text".toList || value == "json".toList) then none
  else some { r with formatGiven := true }

/-- Takes an operand; only the check of a dataset has one. -/
def Reading.addOperand? (r : Reading) (word : List Char) : Option Reading :=
  if r.level = .validate ∧ r.operand.isNone ∧ word ≠ [] then
    some { r with operand := some ⟨Utf8.encode word⟩ }
  else none

/-- What a group of one-letter options amounts to: nothing that matters, or the end of reading. -/
def letters (level : Level) : List Char → Option Parsed
  | [] => none
  | c :: rest =>
    if c = 'v' then letters level rest
    else if c = 'V' ∧ level = .top then some .version
    else if c = 'h' then some .help
    else some .mistake

/-- What the arguments amount to when all are read. -/
def Reading.finish (r : Reading) : Parsed :=
  match r.level with
  | .top | .build => .run ⟨r.config, .build⟩
  | .validate => .run ⟨r.config, .validate r.operand⟩
  | .config => .mistake
  | .initConfig => .run ⟨r.config, .initConfig⟩
  | .showConfig => .run ⟨r.config, .showConfig⟩

/-- The option with a value that a name stands for. -/
def setter? (name : List Char) : Option (Reading → List Char → Option Reading) :=
  if name = "config".toList then some Reading.setConfig?
  else if name = "log-format".toList then some Reading.setFormat?
  else none

def parseFrom (r : Reading) : List (List Char) → Parsed
  | [] => r.finish
  | word :: rest =>
    if r.operandsOnly then
      match r.addOperand? word with
      | some r => parseFrom r rest
      | none => .mistake
    else
      match command? r.level word with
      | some level => parseFrom (r.enter level) rest
      | none =>
        if isHelpCommand r.level word then .help
        else
          match word with
          | ['-', '-'] => parseFrom { r with operandsOnly := true } rest
          | '-' :: '-' :: long =>
            let (name, value?) := splitValue long
            match setter? name with
            | some set =>
              match value? with
              | some value =>
                match set r value with
                | some r => parseFrom r rest
                | none => .mistake
              | none =>
                match rest with
                | [] => .mistake
                | value :: rest =>
                  if isOption value then .mistake
                  else
                    match set r value with
                    | some r => parseFrom r rest
                    | none => .mistake
            | none =>
              if value?.isSome then .mistake
              else if name = "verbose".toList then parseFrom r rest
              else if name = "version".toList ∧ r.level = .top then .version
              else if name = "help".toList then .help
              else .mistake
          | '-' :: c :: cs =>
            match letters r.level (c :: cs) with
            | none => parseFrom r rest
            | some parsed => parsed
          | word =>
            match r.addOperand? word with
            | some r => parseFrom r rest
            | none => .mistake

def parse (args : List String) : Parsed :=
  parseFrom {} (args.map String.toList)

end Arguments

end PluginDataset
