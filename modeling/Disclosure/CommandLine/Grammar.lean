import Disclosure.Text.Split

/-!
# Arguments on a command line

A command has options and takes a number of operands. Options are given by a long name behind two
dashes or by a letter behind one; letters without values may share a dash. The value of an option
is behind an equals sign or is the next argument, and an option of several values takes the
arguments up to the next option. What starts with a dash is never a value, unless it is a lone dash.
Two dashes alone end the options.

Arguments are read from left to right, and the values of an option are looked at when the next
option begins or the arguments end. A request for help or for the version ends the reading at once.
What is left out and what excludes each other is looked at in the end.
-/

namespace Disclosure.CommandLine

/-- What an option takes. -/
inductive OptionKind where
  | flag
  | counter
  | single (accepts : String → Bool)
  | several
  | help
  | version

/-- Whether an option takes values. -/
def OptionKind.takesValues : OptionKind → Bool
  | single _ | several => true
  | _ => false

/-- An option with its long name and its letter. -/
structure OptionSpec where
  long : String
  letter : Option Char
  kind : OptionKind

/-- What can be given to a command: its options, the name of the one operand and what it accepts,
which options have to be there, and which exclude each other. -/
structure CommandSpec where
  name : String
  options : List OptionSpec
  operand : Option (String × (String → Bool))
  required : List String
  exclusive : List (String × String)

/-- What is wrong with the arguments. -/
inductive Misuse where
  | unexpectedArgument (text : String)
  | unexpectedValue (option : String)
  | missingValue (option : String)
  | invalidValue (option value : String)
  | repeatedOption (option : String)
  | conflict (option other : String)
  | missingOption (option : String)
  | missingOperand (operand : String)
  | missingCommand
  | unknownCommand (name : String)
  deriving DecidableEq, Repr

/-- The wording of a misuse. -/
def Misuse.message : Misuse → String
  | unexpectedArgument text => s!"unexpected argument '{text}'"
  | unexpectedValue option => s!"'--{option}' takes no value"
  | missingValue option => s!"'--{option}' needs a value"
  | invalidValue option value => s!"invalid value '{value}' for '{option}'"
  | repeatedOption option => s!"'--{option}' is given more than once"
  | conflict option other => s!"'--{option}' cannot be used with '--{other}'"
  | missingOption option => s!"'--{option}' is required"
  | missingOperand operand => s!"{operand} is required"
  | missingCommand => "a command is required"
  | unknownCommand name => s!"unknown command '{name}'"

/-- Why no command is run. -/
inductive Stop where
  | help
  | version
  | misuse (misuse : Misuse)
  deriving DecidableEq, Repr

/-- Options in the order they were given, with their values. -/
abbrev Given := List (String × List String)

/-- Whether an option was given. -/
def Given.has (g : Given) (option : String) : Bool :=
  g.any (·.1 = option)

/-- How often an option was given. -/
def Given.count (g : Given) (option : String) : Nat :=
  g.countP (·.1 = option)

/-- The first value of an option. -/
def Given.value? (g : Given) (option : String) : Option String :=
  (g.lookup option).bind List.head?

/-- All values of an option. -/
def Given.values (g : Given) (option : String) : List String :=
  (g.filter (·.1 = option)).flatMap (·.2)

/-- How far the reading has come: the options and operands that are read, the option whose values
are being read, whether it takes more of them, and whether the options have ended. -/
structure Reading where
  given : Given
  operands : List String
  waiting : Option (OptionSpec × List String)
  takesMore : Bool
  ended : Bool

namespace Reading

/-- Nothing is read yet. -/
def start : Reading :=
  ⟨[], [], none, false, false⟩

/-- Takes an option whose values are complete. -/
def take (r : Reading) (o : OptionSpec) (values : List String) : Except Stop Reading :=
  let taken := .ok { r with given := r.given ++ [(o.long, values)] }
  let once : Except Stop Reading :=
    if r.given.has o.long then .error (.misuse (.repeatedOption o.long)) else taken
  match o.kind with
  | .help => .error .help
  | .version => .error .version
  | .counter => taken
  | .flag => once
  | .several => if values.isEmpty then .error (.misuse (.missingValue o.long)) else taken
  | .single accepts =>
    match values with
    | [] => .error (.misuse (.missingValue o.long))
    | value :: _ =>
      if accepts value then once else .error (.misuse (.invalidValue o.long value))

/-- Takes the option whose values were being read. -/
def settle (r : Reading) : Except Stop Reading :=
  match r.waiting with
  | none => .ok { r with takesMore := false }
  | some (o, values) => { r with waiting := none, takesMore := false }.take o values

/-- Begins an option, with the value behind its equals sign if there is one. -/
def begin (r : Reading) (o : OptionSpec) (value : Option String) : Except Stop Reading := do
  let r ← r.settle
  match value, o.kind.takesValues with
  | some _, false => .error (.misuse (.unexpectedValue o.long))
  | none, false => r.take o []
  | some value, true => r.take o [value]
  | none, true => .ok { r with waiting := some (o, []), takesMore := true }

/-- Begins the options of some letters, none of which may take a value. -/
def beginLetters (options : List OptionSpec) : List Char → Reading → Except Stop Reading
  | [], r => .ok r
  | c :: rest, r =>
    match options.find? fun o => o.letter == some c with
    | none => .error (.misuse (.unexpectedArgument (String.ofList ['-', c])))
    | some o => do beginLetters options rest (← r.begin o none)

/-- Reads a value of the option whose values are being read. -/
def addValue (r : Reading) (value : String) : Reading :=
  match r.waiting with
  | none => r
  | some (o, values) =>
    let more := match o.kind with
      | .several => true
      | _ => false
    { r with waiting := some (o, values ++ [value]), takesMore := more }

/-- Reads an operand. -/
def addOperand (spec : CommandSpec) (r : Reading) (value : String) : Except Stop Reading := do
  let r ← r.settle
  match spec.operand, r.operands with
  | some (name, accepts), [] =>
    if accepts value then .ok { r with operands := [value] }
    else .error (.misuse (.invalidValue name value))
  | _, _ => .error (.misuse (.unexpectedArgument value))

/-- Begins the option that an argument with two dashes names. -/
def beginLong (spec : CommandSpec) (r : Reading) (text : List Char) : Except Stop Reading :=
  let (name, value) := match Text.cutAt? '=' text with
    | none => (String.ofList text, none)
    | some (name, value) => (String.ofList name, some (String.ofList value))
  match spec.options.find? (·.long = name) with
  | none => .error (.misuse (.unexpectedArgument ("--" ++ name)))
  | some o => r.begin o value

/-- Reads one argument. -/
def next (spec : CommandSpec) (r : Reading) (arg : String) : Except Stop Reading :=
  if r.ended then r.addOperand spec arg
  else
    match arg.toList with
    | ['-', '-'] => .ok { r with ended := true }
    | '-' :: '-' :: text => r.beginLong spec text
    | '-' :: c :: letters => beginLetters spec.options (c :: letters) r
    | _ => if r.takesMore then .ok (r.addValue arg) else r.addOperand spec arg

/-- The first pair of options that exclude each other and are both given. -/
def conflict? (spec : CommandSpec) (g : Given) : Option (String × String) :=
  spec.exclusive.find? fun (option, other) => g.has option && g.has other

/-- The end of the arguments: nothing may be missing, and nothing may exclude each other. -/
def finish (spec : CommandSpec) (r : Reading) : Except Stop Reading := do
  let r ← r.settle
  match conflict? spec r.given with
  | some (option, other) => throw (.misuse (.conflict option other))
  | none => pure ()
  match spec.operand, r.operands with
  | some (name, _), [] => throw (.misuse (.missingOperand name))
  | _, _ => pure ()
  match spec.required.find? fun option => !r.given.has option with
  | some option => throw (.misuse (.missingOption option))
  | none => pure r

/-- Reads all arguments of a command. -/
def readAll (spec : CommandSpec) (args : List String) : Except Stop Reading := do
  (← args.foldlM (next spec) start).finish spec

end Reading

/-- A command that was named, with what was given before and behind its name. -/
structure Chosen where
  command : String
  before : Given
  after : Given
  operand : String
  deriving Repr

namespace Chosen

/-- The options that count: one given behind the name of the command hides the same option before
it. -/
def given (c : Chosen) : Given :=
  c.after ++ c.before.filter fun (option, _) => !c.after.has option

end Chosen

/-- Reads the arguments up to the name of a command, and then those of the command. The word `help`
in place of a command asks for help about the command named behind it, if there is one. -/
def choose (top : CommandSpec) (commands : List CommandSpec) :
    Reading → List String → Except Stop Chosen
  | r, [] => do
    let _ ← r.finish top
    .error (.misuse .missingCommand)
  | r, arg :: rest =>
    if r.ended || r.takesMore then do choose top commands (← r.next top arg) rest
    else if arg = "help" then .error (helpAbout rest)
    else
      match commands.find? (·.name = arg) with
      | none => do choose top commands (← r.next top arg) rest
      | some spec => do
        let inner ← Reading.readAll spec rest
        let outer ← r.finish top
        .ok ⟨arg, outer.given, inner.given, inner.operands.headD ""⟩
where
  /-- Help about a row of names, of which only the first can be a command. -/
  helpAbout : List String → Stop
    | [] => .help
    | [name] =>
      if name = "help" || commands.any (·.name = name) then .help
      else .misuse (.unknownCommand name)
    | name :: _ => .misuse (.unknownCommand name)

end Disclosure.CommandLine
