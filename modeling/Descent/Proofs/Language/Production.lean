import Descent.Token.Basic

/-!
# The grammar as productions

The grammar of the language as a table: each symbol has one production, a form built from kinds of
token and symbols by sequence, choice, repetition and option. `Form.Derives` says which sequences of
kinds a form stands for. Nothing here knows how texts are parsed: an optional semicolon may be left
out anywhere, also where the next statement could then be read as part of the one before.
-/

namespace Descent

/-- A name for a set of phrases. -/
inductive Symbol where
  | program
  | statement
  | binding
  | returning
  | evaluation
  | block
  | expression
  | equation
  | comparison
  | sum
  | product
  | unary
  | call
  | arguments
  | primary
  | group
  | conditional
  | function
deriving DecidableEq, Repr

/-- The right-hand side of a production. -/
inductive Form where
  /-- One token of this kind. -/
  | kind (k : Token.Kind)
  /-- A phrase with this name. -/
  | symbol (n : Symbol)
  /-- The one form, then the other. -/
  | seq (a b : Form)
  /-- One of the two forms. -/
  | alt (a b : Form)
  /-- Any number of phrases of the form, one after the other. -/
  | many (a : Form)
  /-- A phrase of the form, or nothing. -/
  | opt (a : Form)
deriving DecidableEq, Repr

instance : Append Form := ⟨Form.seq⟩

instance : OrOp Form := ⟨Form.alt⟩

namespace Symbol

open Form

/-- The production of each symbol. -/
def production : Symbol → Form
  | program => many (symbol statement) ++ kind .eof
  | statement => symbol binding ||| symbol returning ||| symbol evaluation
  | binding =>
    kind .kwLet ++ kind .identifier ++ kind .assign ++ symbol expression ++ opt (kind .semicolon)
  | returning => kind .kwReturn ++ symbol expression ++ opt (kind .semicolon)
  | evaluation => symbol expression ++ opt (kind .semicolon)
  | block => kind .openBrace ++ many (symbol statement) ++ kind .closeBrace
  | expression => symbol equation
  | equation => symbol comparison ++ many ((kind .equal ||| kind .notEqual) ++ symbol comparison)
  | comparison => symbol sum ++ many ((kind .less ||| kind .greater) ++ symbol sum)
  | sum => symbol product ++ many ((kind .plus ||| kind .minus) ++ symbol product)
  | product => symbol unary ++ many ((kind .star ||| kind .slash) ++ symbol unary)
  | unary => (kind .bang ||| kind .minus) ++ symbol unary ||| symbol call
  | call => symbol primary ++ many (kind .openParen ++ opt (symbol arguments) ++ kind .closeParen)
  | arguments => symbol expression ++ many (kind .comma ++ symbol expression)
  | primary =>
    kind .integer ||| kind .kwTrue ||| kind .kwFalse ||| kind .identifier ||| symbol group |||
      symbol conditional ||| symbol function
  | group => kind .openParen ++ symbol expression ++ kind .closeParen
  | conditional =>
    kind .kwIf ++ kind .openParen ++ symbol expression ++ kind .closeParen ++ symbol block ++
      opt (kind .kwElse ++ symbol block)
  | function =>
    kind .kwFn ++ kind .openParen ++
      opt (kind .identifier ++ many (kind .comma ++ kind .identifier)) ++ kind .closeParen ++
      symbol block

end Symbol

namespace Form

/-- The sequences of kinds that a form stands for. -/
inductive Derives : Form → List Token.Kind → Prop where
  | kind {k : Token.Kind} : Derives (.kind k) [k]
  | symbol {n : Symbol} {w : List Token.Kind} (h : Derives n.production w) : Derives (.symbol n) w
  | seq {a b : Form} {u v : List Token.Kind} (ha : Derives a u) (hb : Derives b v) :
    Derives (a.seq b) (u ++ v)
  | left {a b : Form} {w : List Token.Kind} (h : Derives a w) : Derives (a.alt b) w
  | right {a b : Form} {w : List Token.Kind} (h : Derives b w) : Derives (a.alt b) w
  | none {a : Form} : Derives a.many []
  | more {a : Form} {u v : List Token.Kind} (h : Derives a u) (hs : Derives a.many v) :
    Derives a.many (u ++ v)
  | absent {a : Form} : Derives a.opt []
  | present {a : Form} {w : List Token.Kind} (h : Derives a w) : Derives a.opt w

/-- The sequences that a form stands for if each symbol `n` stands for those in `L n`. -/
def Over (L : Symbol → List Token.Kind → Prop) : Form → List Token.Kind → Prop
  | .kind k, w => w = [k]
  | .symbol n, w => L n w
  | .seq a b, w => ∃ u v, w = u ++ v ∧ a.Over L u ∧ b.Over L v
  | .alt a b, w => a.Over L w ∨ b.Over L w
  | .many a, w => ∃ us : List (List Token.Kind), w = us.flatten ∧ ∀ u ∈ us, a.Over L u
  | .opt a, w => w = [] ∨ a.Over L w

variable {L : Symbol → List Token.Kind → Prop} {a b : Form} {w : List Token.Kind}

@[simp] theorem over_append :
    (a ++ b).Over L w ↔ ∃ u v, w = u ++ v ∧ a.Over L u ∧ b.Over L v := Iff.rfl

@[simp] theorem over_or : (a ||| b).Over L w ↔ a.Over L w ∨ b.Over L w := Iff.rfl

/-- Derivations are the least meaning of the symbols that the productions allow: what the
productions carry over from their right-hand sides to their symbols holds of all that is
derivable. -/
theorem Derives.over (closed : ∀ n w, n.production.Over L w → L n w) (h : a.Derives w) :
    a.Over L w := by
  induction h with
  | kind => exact rfl
  | symbol _ ih => exact closed _ _ ih
  | seq _ _ iha ihb => exact ⟨_, _, rfl, iha, ihb⟩
  | left _ ih => exact .inl ih
  | right _ ih => exact .inr ih
  | none => exact ⟨[], rfl, by simp⟩
  | more _ _ ih ihs =>
    obtain ⟨us, rfl, hus⟩ := ihs
    exact ⟨_ :: us, rfl, by simpa using ⟨ih, hus⟩⟩
  | absent => exact .inl rfl
  | present _ ih => exact .inr ih

/-- A repetition may be extended at its end, too. -/
theorem Derives.snoc {u v : List Token.Kind} (hs : a.many.Derives u) (h : a.Derives v) :
    a.many.Derives (u ++ v) := by
  generalize ha : a.many = m at hs
  induction hs with
  | none =>
    cases ha
    simpa using Derives.more h .none
  | more h' _ _ ih =>
    cases ha
    rw [List.append_assoc]
    exact .more h' (ih rfl)
  | _ => cases ha

end Form

/-- The sequences of kinds that a symbol stands for. -/
def Symbol.Derives (n : Symbol) (w : List Token.Kind) : Prop := (Form.symbol n).Derives w

end Descent
