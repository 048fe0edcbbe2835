import LogicCalculator.Calculation.Report
import LogicCalculator.CommandLine.Arguments

/-!
# The command line

A command is carried out without touching the world: the bytes of a file come
in as a value, and what is printed goes out as one. What is not decided here,
the writing of JSON and of logged events, is a parameter (`Services`). Of
several faults a file that cannot be read is reported first, then a repeated
name, then what is wrong with the expression.
-/

namespace LogicCalculator.CommandLine

/-- Why a file gives no text: the system cannot read it, or its bytes are no
text. -/
inductive FileError where
  | system (description : String) (number : Nat)
  | notUnicode
deriving DecidableEq, Repr

namespace FileError

def missing : FileError := system "No such file or directory" 2

def directory : FileError := system "Is a directory" 21

def message : FileError → String
  | system description number => s!"{description} (os error {number})"
  | notUnicode => "stream did not contain valid UTF-8"

end FileError

/-- What a run leaves behind. The code is 0 for success, 1 for a failed
calculation and 2 for a command line that cannot be understood. -/
structure Outcome where
  code : Nat
  output : String
  complaint : String
deriving DecidableEq, Repr

def unlines (lines : List String) : String := String.join (lines.map (· ++ "\n"))

namespace Outcome

def success (lines : List String) : Outcome := ⟨0, unlines lines, ""⟩

def failure (lines : List String) : Outcome := ⟨1, "", unlines lines⟩

def misuse (error : UsageError) : Outcome := ⟨2, "", error.report⟩

/-- The outcome with what has been logged in front of the complaint. -/
def behind (o : Outcome) (logged : String) : Outcome :=
  { o with complaint := logged ++ o.complaint }

end Outcome

def decode (bytes : ByteArray) : Except FileError String :=
  match String.fromUTF8? bytes with
  | some text => .ok text
  | none => .error .notUnicode

/-- What a run takes from outside: the bytes of files, the writing of values in
JSON, and what the logger writes of the events. The logger is there from the
start, so it may also write something where there are no events. -/
structure Services where
  read : String → Except FileError ByteArray
  print : Json → Except String String
  log : List Event → String

/-- The services of a run whose logger is silent. -/
def Services.quiet (read : String → Except FileError ByteArray) : Services where
  read := read
  print value := .ok value.pretty
  log _ := ""

namespace Request

variable (r : Request) (s : Services)

def source : Except FileError String :=
  if r.fromFile then (s.read r.contents).bind decode else .ok r.contents

def report (c : Calculation) : Outcome :=
  if r.asJson then
    match s.print c.json with
    | .ok text => .success [text]
    | .error description => .failure [description]
  else .success c.summary

def calculate (source : String) : Outcome :=
  match Bindings.collect r.bindings with
  | .error error => (Outcome.failure [error.message]).behind (s.log [])
  | .ok b =>
    let outcome :=
      match LogicCalculator.calculate source b with
      | .ok c => r.report s c
      | .error failure => .failure failure.messages
    outcome.behind (s.log (events source b))

def run : Outcome :=
  match r.source s with
  | .ok source => r.calculate s source
  | .error error =>
    let line := "Failed to read the input file '" ++ r.contents ++ "': " ++ error.message
    (Outcome.failure [line]).behind (s.log [])

end Request

def versionLine : String := "boolcalc 0.1.0"

def helpLines : List String :=
  ["Boolean logic expression interpreter with step-by-step evaluation traces",
    "",
    "Usage: boolcalc [OPTIONS] <CONTENTS>",
    "",
    "Arguments:",
    "  <CONTENTS>  ",
    "",
    "Options:",
    "  -f, --file            Tells boolcalc to read the expression from a file",
    "  -s, --set <NAME=BIT>  Binds a variable to a bit, e.g. `--set X=1`. Can be repeated",
    "  -j, --json            Prints the calculation as JSON",
    "  -h, --help            Print help",
    "  -V, --version         Print version"]

/-- The outcome of a command line, where `read` gives the bytes of a file and
the logger is silent. -/
def run (read : String → Except FileError ByteArray) (arguments : List String) : Outcome :=
  match Command.ofArguments arguments with
  | .error error => .misuse error
  | .ok .help => .success helpLines
  | .ok .version => .success [versionLine]
  | .ok (.calculate r) => r.run (.quiet read)

/-- The one file whose bytes the outcome of a command line depends on. -/
def fileToRead? (arguments : List String) : Option String :=
  match Command.ofArguments arguments with
  | .ok (.calculate r) => if r.fromFile then some r.contents else none
  | _ => none

end LogicCalculator.CommandLine
