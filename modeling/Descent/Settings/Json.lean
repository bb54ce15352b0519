import Descent.Json.Basic
import Descent.Settings.Basic
import Descent.Text.Decimal

/-!
# Settings as JSON

Settings are written as a JSON object with a member for each of them. To be read, they may be an
object in any order, where what is missing has its default and unknown members are passed over, or
an array of the first few settings in their order. No setting may be given twice.
-/

namespace Descent

/-- The names of the alternatives. -/
def TieBreak.name : TieBreak → String
  | firstMatch => "firstMatch"
  | longestParse => "longestParse"

/-- The names of the alternatives. -/
def FailureSelection.name : FailureSelection → String
  | furthest => "furthest"
  | first => "first"

/-- The names of the alternatives. -/
def PastEnd.name : PastEnd → String
  | saturate => "saturate"
  | fail => "fail"

namespace Settings

/-- A member of the settings. -/
inductive Field where
  | emitTrivia
  | lookaheadDepth
  | maxDepth
  | tieBreak
  | failureSelection
  | advancePastEnd
deriving DecidableEq, Repr

namespace Field

/-- All members in their order. -/
def all : List Field :=
  [emitTrivia, lookaheadDepth, maxDepth, tieBreak, failureSelection, advancePastEnd]

/-- The name of the member. -/
def name : Field → String
  | emitTrivia => "emitTrivia"
  | lookaheadDepth => "lookaheadDepth"
  | maxDepth => "maxDepth"
  | tieBreak => "tieBreak"
  | failureSelection => "failureSelection"
  | advancePastEnd => "advancePastEnd"

/-- The member with this name. -/
def ofName? (name : List Char) : Option Field := all.find? fun f => f.name.toList = name

end Field

/-- The greatest number that a setting can be. -/
def maxNumber : Nat := UInt64.size - 1

/-- A truth value. -/
def bool? : Json → Option Bool
  | .bool b => some b
  | _ => none

/-- A number in range. -/
def number? : Json → Option Nat
  | .number (some n) => if n ≤ maxNumber then some n else none
  | _ => none

/-- The name of an alternative: a string, or an object with that name and `null`. -/
def alternative? : Json → Option (List Char)
  | .string text => text
  | .object [(name, .null)] => name
  | _ => none

/-- One of the alternatives, by name. -/
def oneOf? {α : Type} (name : α → String) (alternatives : List α) (j : Json) : Option α := do
  let text ← alternative? j
  alternatives.find? fun a => (name a).toList = text

/-- The settings with one member as `j` says. -/
def set? (s : Settings) (j : Json) : Field → Option Settings
  | .emitTrivia => (bool? j).map fun b => { s with emitTrivia := b }
  | .lookaheadDepth => (number? j).map fun n => { s with lookaheadDepth := n }
  | .maxDepth =>
    match j with
    | .null => some { s with maxDepth := none }
    | j => (number? j).map fun n => { s with maxDepth := some n }
  | .tieBreak =>
    (oneOf? TieBreak.name [.firstMatch, .longestParse] j).map fun a => { s with tieBreak := a }
  | .failureSelection =>
    (oneOf? FailureSelection.name [.furthest, .first] j).map fun a =>
      { s with failureSelection := a }
  | .advancePastEnd =>
    (oneOf? PastEnd.name [.saturate, .fail] j).map fun a => { s with advancePastEnd := a }

/-- The settings with the members as an object says, none of which is among `seen`. -/
def setMembers? (s : Settings) (seen : List Field) :
    List (Option (List Char) × Json) → Option Settings
  | [] => some s
  | (none, _) :: _ => none
  | (some name, j) :: members =>
    match Field.ofName? name with
    | none => s.setMembers? seen members
    | some f => if f ∈ seen then none else do (← s.set? j f).setMembers? (f :: seen) members

/-- The settings with the listed members as the items of an array say, as far as there are items. -/
def setItems? (s : Settings) : List Field → List Json → Option Settings
  | _, [] => some s
  | [], _ :: _ => none
  | f :: fs, j :: js => do (← s.set? j f).setItems? fs js

/-- The settings that a JSON value describes. -/
def ofJson? : Json → Option Settings
  | .object members => ({} : Settings).setMembers? [] members
  | .array items => ({} : Settings).setItems? Field.all items
  | _ => none

/-- Why a text gives no settings. -/
inductive Invalid where
  /-- It does not describe settings. -/
  | malformed
  /-- It allows rules to look at no token. -/
  | zeroLookahead
deriving DecidableEq, Repr

/-- What is wrong with usable settings, if anything is. -/
def check (s : Settings) : Except Invalid Settings :=
  if s.Usable then .ok s else .error .zeroLookahead

/-- The settings that a JSON text describes. -/
def ofText (t : List Char) : Except Invalid Settings :=
  match (Json.ofText? t).bind ofJson? with
  | some s => s.check
  | none => .error .malformed

/-- A member of an object: its name and the text of its value. -/
def memberText (f : Field) (value : List Char) : List Char :=
  ['"'] ++ f.name.toList ++ ['"', ':'] ++ value

/-- The text of a truth value. -/
def boolText : Bool → List Char
  | true => ['t', 'r', 'u', 'e']
  | false => ['f', 'a', 'l', 's', 'e']

/-- The text of a number. -/
def numberText : Option Nat → List Char
  | none => ['n', 'u', 'l', 'l']
  | some n => Text.Decimal.ofNat n

/-- The text of a name. -/
def nameText (name : String) : List Char := ['"'] ++ name.toList ++ ['"']

/-- The text of the value of a member. -/
def valueText (s : Settings) : Field → List Char
  | .emitTrivia => boolText s.emitTrivia
  | .lookaheadDepth => numberText (some s.lookaheadDepth)
  | .maxDepth => numberText s.maxDepth
  | .tieBreak => nameText s.tieBreak.name
  | .failureSelection => nameText s.failureSelection.name
  | .advancePastEnd => nameText s.advancePastEnd.name

/-- The settings as a JSON object, without blanks. -/
def toText (s : Settings) : List Char :=
  ['{'] ++ [','].intercalate (Field.all.map fun f => memberText f (s.valueText f)) ++ ['}']

end Settings

instance : ToString Settings.Invalid where
  toString
    | .malformed => "invalid configuration"
    | .zeroLookahead => "lookaheadDepth must be at least 1"

end Descent
