import LogicCalculator.Bindings.Entry
import LogicCalculator.Text.Printed

/-!
# Usage errors

Why a command line cannot be understood. The wording is styled for a terminal,
and the printed part of the whole is what is reported. What an argument holds
is quoted without change, so control sequences in it are no part of the report.
-/

namespace LogicCalculator.CommandLine

inductive UsageError where
  | unexpectedArgument (argument : String)
  | unexpectedValue (value option : String)
  | repeatedFlag (option : String)
  | missingValue
  | invalidValue (value : String) (error : BindingError)
  | missingContents
deriving DecidableEq, Repr

namespace UsageError

/-- Text in a style, which ends with the text. -/
def styled (style text : String) : String := "\x1b[" ++ style ++ "m" ++ text ++ "\x1b[0m"

def fault (text : String) : String := styled "33" text

def literal (text : String) : String := styled "1" text

def bindingOption : String := "--set <NAME=BIT>"

def message : UsageError → String
  | unexpectedArgument argument => "unexpected argument '" ++ fault argument ++ "' found"
  | unexpectedValue value option =>
    "unexpected value '" ++ fault value ++ "' for '" ++ literal option ++
      "' found; no more were expected"
  | repeatedFlag option =>
    "the argument '" ++ fault option ++ "' cannot be used multiple times"
  | missingValue =>
    "a value is required for '" ++ fault bindingOption ++ "' but none was supplied"
  | invalidValue value error =>
    "invalid value '" ++ fault value ++ "' for '" ++ literal bindingOption ++ "': " ++
      error.message
  | missingContents =>
    "the following required arguments were not provided:\n  " ++ styled "32" "<CONTENTS>"

def report (e : UsageError) : String :=
  Text.printed (styled "1;31" "error:" ++ " " ++ e.message ++
    "\n\nFor more information, try '" ++ literal "--help" ++ "'.\n")

end UsageError

end LogicCalculator.CommandLine
