import LogicCalculator.CommandLine.UsageError

/-!
# Command-line arguments

Options stand before or after the one positional argument, flags of one letter
can be joined, and an option's value is attached or comes next. Everything
behind `--` is positional. A value of `--set` that stands on its own is only
read when the next argument begins, or at the end, so a fault of that next
argument itself is found first. What is carried out is the request; how it was
spelled makes no difference to anything outside this part.
-/

namespace LogicCalculator.CommandLine

/-- What a calculation is asked for: `contents` is the expression, or with
`fromFile` the name of the file that holds it. -/
structure Request where
  fromFile : Bool
  bindings : List (String × Bit)
  asJson : Bool
  contents : String
deriving DecidableEq, Repr

inductive Command where
  | help
  | version
  | calculate (request : Request)
deriving DecidableEq, Repr

inductive Flag where
  | file
  | set
  | json
  | help
  | version
deriving DecidableEq, Repr

namespace Flag

def name : Flag → String
  | file => "file"
  | set => "set"
  | json => "json"
  | help => "help"
  | version => "version"

def ofName? : String → Option Flag
  | "file" => some file
  | "set" => some set
  | "json" => some json
  | "help" => some help
  | "version" => some version
  | _ => none

def ofLetter? : Char → Option Flag
  | 'f' => some file
  | 's' => some set
  | 'j' => some json
  | 'h' => some help
  | 'V' => some version
  | _ => none

def display (f : Flag) : String := "--" ++ f.name

end Flag

/-- The value of the latest `--set`, as far as it has come. -/
inductive Pending where
  | none
  | awaited
  | held (value : String)
deriving DecidableEq, Repr

structure Progress where
  fromFile : Bool
  asJson : Bool
  bindings : Array (String × Bit)
  contents : Option String
  pending : Pending
  /-- Whether `--` has ended the options. -/
  optionsEnded : Bool
deriving DecidableEq, Repr

/-- The outcome of one argument: further progress, or a command that is final
whatever follows. -/
inductive Reaction where
  | go (progress : Progress)
  | stop (command : Command)

namespace Progress

def start : Progress := ⟨false, false, #[], none, .none, false⟩

def addBinding (p : Progress) (value : String) : Except UsageError Progress :=
  match Bindings.readEntry value with
  | .ok entry => .ok { p with bindings := p.bindings.push entry }
  | .error error => .error (.invalidValue value error)

def settle (p : Progress) : Except UsageError Progress :=
  match p.pending with
  | .none => .ok p
  | .awaited => .error .missingValue
  | .held value => { p with pending := .none }.addBinding value

def flag (p : Progress) (f : Flag) : Except UsageError Reaction := do
  let p ← p.settle
  match f with
  | .file =>
    if p.fromFile then .error (.repeatedFlag f.display) else .ok (.go { p with fromFile := true })
  | .json =>
    if p.asJson then .error (.repeatedFlag f.display) else .ok (.go { p with asJson := true })
  | .set => .ok (.go { p with pending := .awaited })
  | .help => .ok (.stop .help)
  | .version => .ok (.stop .version)

def setAttached (p : Progress) (value : String) : Except UsageError Reaction := do
  .ok (.go (← (← p.settle).addBinding value))

/-- Takes `--name` or `--name=value`, given from behind the dashes. -/
def long (p : Progress) (text : List Char) : Except UsageError Reaction :=
  let (name, value) :=
    match Text.splitAtFirst '=' text with
    | some (name, value) => (String.ofList name, some (String.ofList value))
    | none => (String.ofList text, none)
  match Flag.ofName? name, value with
  | none, _ => .error (.unexpectedArgument ("--" ++ name))
  | some f, none => p.flag f
  | some .set, some value => p.setAttached value
  | some f, some value => .error (.unexpectedValue value f.display)

/-- Takes letters that stand behind one dash. What follows the letter of
`--set` is its value; an equals sign in between belongs to neither. -/
def letters (p : Progress) : List Char → Except UsageError Reaction
  | [] => .ok (.go p)
  | c :: cs =>
    match Flag.ofLetter? c with
    | none => .error (.unexpectedArgument ("-" ++ c.toString))
    | some .set =>
      match cs with
      | [] => p.flag .set
      | '=' :: value => p.setAttached (String.ofList value)
      | value => p.setAttached (String.ofList value)
    | some f => do
      match ← p.flag f with
      | .go p => p.letters cs
      | .stop command => .ok (.stop command)

def positional (p : Progress) (argument : String) : Except UsageError Reaction :=
  match p.contents with
  | some _ => .error (.unexpectedArgument argument)
  | none => do .ok (.go { ← p.settle with contents := some argument })

def plain (p : Progress) (argument : String) : Except UsageError Reaction :=
  match p.pending with
  | .awaited => .ok (.go { p with pending := .held argument })
  | _ => p.positional argument

/-- Takes one argument. A dash on its own is no option. -/
def take (p : Progress) (argument : String) : Except UsageError Reaction :=
  if p.optionsEnded then p.positional argument
  else
    match argument.toList with
    | ['-', '-'] => .ok (.go { p with optionsEnded := true })
    | '-' :: '-' :: text => p.long text
    | '-' :: c :: cs => p.letters (c :: cs)
    | _ => p.plain argument

def finish (p : Progress) : Except UsageError Command := do
  let p ← p.settle
  match p.contents with
  | none => .error .missingContents
  | some contents => .ok (.calculate ⟨p.fromFile, p.bindings.toList, p.asJson, contents⟩)

def takeAll (p : Progress) : List String → Except UsageError Command
  | [] => p.finish
  | argument :: rest => do
    match ← p.take argument with
    | .go p => p.takeAll rest
    | .stop command => .ok command

end Progress

def Command.ofArguments (arguments : List String) : Except UsageError Command :=
  Progress.start.takeAll arguments

end LogicCalculator.CommandLine
