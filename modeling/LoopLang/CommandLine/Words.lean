import LoopLang.CommandLine

set_option autoImplicit false

/-! # The words of a command line

A reader of command lines, as `CommandLine` takes one. A word that begins with a minus sign is an
option, except where an integer may stand and only digits follow; the word `--` ends the options.
Words are taken in order: the first one that asks for the version or the help text is answered, and
the first one that is refused makes the whole command a misuse. -/

namespace LoopLang.CommandLine

/-! ## Words -/

/-- What a word of the command line is for. -/
inductive Word where
  | operand
  | endOfOptions
  | version
  | help
  | unknownOption
deriving DecidableEq, Repr

/-- What a word is for while options are still allowed; `integers` says whether an integer may
stand in its place. -/
def Word.classify (integers : Bool) (word : String) : Word :=
  match word.toList with
  | ['-', '-'] => endOfOptions
  | '-' :: '-' :: name =>
    if name = "version".toList then version
    else if name = "help".toList then help
    else unknownOption
  | '-' :: 'V' :: _ => version
  | '-' :: 'h' :: _ => help
  | '-' :: c :: cs => if integers && (c :: cs).all Char.isDigit then operand else unknownOption
  | _ => operand

/-! ## Answers -/

/-- The line that tells the version. -/
def versionText : String := "simplang 0.1.0\n"

/-- The summary of how the command is used. -/
def usageText : String := "Usage: simplang <FILE> [ARGS]...\n"

/-- The help text. -/
def helpText : String :=
  "Evaluate a simplang program\n\n" ++ usageText
    ++ "\nArguments:\n"
    ++ "  <FILE>     Source file of the program\n"
    ++ "  [ARGS]...  Arguments bound to the parameters of `main`\n"
    ++ "\nOptions:\n"
    ++ "  -h, --help     Print help\n"
    ++ "  -V, --version  Print version\n"

/-- The answer to a request for the version. -/
def Response.version : Response := ⟨0, versionText, ""⟩

/-- The answer to a request for the help text. -/
def Response.help : Response := ⟨0, helpText, ""⟩

/-- The answer to a command line that cannot be read. -/
def Response.misuse : Response := ⟨2, "", usageText⟩

/-! ## Reading -/

/-- Reads the words behind the file name; `values` holds the integers so far, the latest first, and
`ended` says whether the options have ended. -/
def readArgs (file : String) : Bool → List Int64 → List String → Except Response Args
  | _, values, [] => .ok ⟨file, values.reverse⟩
  | ended, values, word :: words =>
    match if ended then .operand else Word.classify true word with
    | .endOfOptions => readArgs file true values words
    | .version => .error .version
    | .help => .error .help
    | .unknownOption => .error .misuse
    | .operand =>
      match Decimal.read? word with
      | some v => readArgs file ended (v :: values) words
      | none => .error .misuse

/-- Reads the words up to the file name, which has to be there. -/
def readFile : Bool → List String → Except Response Args
  | _, [] => .error .misuse
  | ended, word :: words =>
    match if ended then .operand else Word.classify false word with
    | .endOfOptions => readFile true words
    | .version => .error .version
    | .help => .error .help
    | .unknownOption => .error .misuse
    | .operand => readArgs word ended [] words

/-- Reads a whole command line. -/
def readWords : Reader := readFile false

end LoopLang.CommandLine
