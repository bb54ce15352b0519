import Descent.Json.Text

/-!
# JSON

JSON values as far as settings are made of them, and a strict reader. Objects keep their members in
the order of the text, repeated names included. Of numbers only those written as digits alone keep
their value, and of strings only those that stand for a text.
-/

namespace Descent

/-- A JSON value. -/
inductive Json where
  | null
  | bool (value : Bool)
  /-- A number, with its value if it has no sign, no fraction and no exponent. -/
  | number (value : Option Nat)
  /-- A string, with its text unless it has half of a surrogate pair. -/
  | string (text : Option (List Char))
  | array (items : List Json)
  | object (members : List (Option (List Char) × Json))

namespace Json

/-- The characters between which tokens of JSON may stand. -/
def isBlank (c : Char) : Bool := c == ' ' || c == '\t' || c == '\n' || c == '\r'

/-- The text without the blanks before it. -/
def skipBlanks (t : List Char) : List Char := t.dropWhile isBlank

/-- A string whose opening quote has been read. -/
def string? (t : List Char) : Option (Option (List Char) × List Char) :=
  (pieces? t).map fun (ps, rest) => (decode? ps, rest)

/-- One digit or more. -/
def digits? (t : List Char) : Option (List Char × List Char) :=
  match t.takeWhile Char.isDigit with
  | [] => none
  | ds => some (ds, t.dropWhile Char.isDigit)

/-- The digits before the point: a zero alone, or digits that do not begin with one. -/
def whole? : List Char → Option (List Char × List Char)
  | '0' :: t => some (['0'], t)
  | t => digits? t

/-- What follows a fraction, or the same text if it begins with none. -/
def afterFraction? : List Char → Option (List Char)
  | '.' :: t => (digits? t).map Prod.snd
  | t => some t

/-- What follows the sign of an exponent, or the same text if it begins with none. -/
def afterSign : List Char → List Char
  | '+' :: t => t
  | '-' :: t => t
  | t => t

/-- What follows an exponent, or the same text if it begins with none. -/
def afterExponent? : List Char → Option (List Char)
  | 'e' :: t => (digits? (afterSign t)).map Prod.snd
  | 'E' :: t => (digits? (afterSign t)).map Prod.snd
  | t => some t

/-- Whether a text begins with a fraction or an exponent. -/
def goesOn (t : List Char) : Bool := t.head?.any fun c => c == '.' || c == 'e' || c == 'E'

/-- A number without a sign, with its value if it is written as digits alone. -/
def unsigned? (t : List Char) : Option (Option Nat × List Char) := do
  let (ds, t₁) ← whole? t
  let t₂ ← afterFraction? t₁
  let t₃ ← afterExponent? t₂
  return (if goesOn t₁ then none else some (Nat.ofDigitChars 10 ds 0), t₃)

/-- A number, with its value if it is written as digits alone. -/
def number? : List Char → Option (Option Nat × List Char)
  | '-' :: t => (unsigned? t).map fun (_, rest) => (none, rest)
  | t => unsigned? t

mutual

/-- A value at the beginning of a text, after blanks, and the text behind it. Each value and each
member of a list of values takes one of `fuel`. -/
def value? (fuel : Nat) (t : List Char) : Option (Json × List Char) :=
  match fuel with
  | 0 => none
  | fuel + 1 =>
    match skipBlanks t with
    | 'n' :: 'u' :: 'l' :: 'l' :: t => some (.null, t)
    | 't' :: 'r' :: 'u' :: 'e' :: t => some (.bool true, t)
    | 'f' :: 'a' :: 'l' :: 's' :: 'e' :: t => some (.bool false, t)
    | '"' :: t => (string? t).map fun (text, rest) => (.string text, rest)
    | '[' :: t =>
      match skipBlanks t with
      | ']' :: t => some (.array [], t)
      | t => (items? fuel t).map fun (items, rest) => (.array items, rest)
    | '{' :: t =>
      match skipBlanks t with
      | '}' :: t => some (.object [], t)
      | t => (members? fuel t).map fun (members, rest) => (.object members, rest)
    | t => (number? t).map fun (n, rest) => (.number n, rest)

/-- The items of an array that has some, up to the closing bracket. -/
def items? (fuel : Nat) (t : List Char) : Option (List Json × List Char) :=
  match fuel with
  | 0 => none
  | fuel + 1 => do
    let (item, t₁) ← value? fuel t
    match skipBlanks t₁ with
    | ',' :: t₂ =>
      let (items, rest) ← items? fuel t₂
      return (item :: items, rest)
    | ']' :: rest => return ([item], rest)
    | _ => none

/-- The members of an object that has some, up to the closing brace. -/
def members? (fuel : Nat) (t : List Char) :
    Option (List (Option (List Char) × Json) × List Char) :=
  match fuel with
  | 0 => none
  | fuel + 1 =>
    match skipBlanks t with
    | '"' :: t₁ => do
      let (name, t₂) ← string? t₁
      match skipBlanks t₂ with
      | ':' :: t₃ =>
        let (value, t₄) ← value? fuel t₃
        match skipBlanks t₄ with
        | ',' :: t₅ =>
          let (members, rest) ← members? fuel t₅
          return ((name, value) :: members, rest)
        | '}' :: rest => return ([(name, value)], rest)
        | _ => none
      | _ => none
    | _ => none

end

/-- The value that a text is, with blanks around it. Every value and every member has a character of
its own in the text, so there are not more of them than it has characters. -/
def ofText? (t : List Char) : Option Json := do
  let (value, rest) ← value? (2 * t.length + 1) t
  guard (skipBlanks rest = [])
  return value

end Json

end Descent
