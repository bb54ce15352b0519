import Descent.Parse
import Descent.Settings.Json
import Descent.Tree.Pretty

/-!
# The command line

The program reads a source text from standard input and writes its canonical text. Settings may be
given in an environment variable. This module says what is written for which input; reading and
writing are left to `Descent.Main`.
-/

namespace Descent.CommandLine

/-- The environment variable that holds settings. -/
def settingsVariable : String := "TETHER_CONFIG"

/-- Why there is nothing to print. -/
inductive Failure where
  /-- The environment variable does not hold settings. -/
  | invalidSettings (reason : Settings.Invalid)
  /-- Standard input is no text. -/
  | unreadable
  /-- The text is no program. -/
  | rejected (diagnostic : Diagnostic)

instance : ToString Failure where
  toString
    | .invalidSettings _ => s!"invalid configuration in {settingsVariable}"
    | .unreadable => "failed to read source from stdin"
    | .rejected d => toString d

/-- The text in UTF-8 that bytes hold, if they do. -/
def text? (bytes : ByteArray) : Option (List Char) := (String.fromUTF8? bytes).map String.toList

/-- The settings in the environment variable. One that holds no text counts as not set. -/
def settings (held : Option ByteArray) : Except Failure Settings :=
  match held.bind text? with
  | none => .ok {}
  | some t =>
    match Settings.ofText t with
    | .ok s => .ok s
    | .error reason => .error (.invalidSettings reason)

/-- What the program prints. -/
def output (held : Option ByteArray) (input : ByteArray) : Except Failure (List Char) := do
  let s ← settings held
  match text? input with
  | none => throw .unreadable
  | some t =>
    match Program.parse s t with
    | .ok p => return p.pretty
    | .error d => throw (.rejected d)

end Descent.CommandLine
