import Descent.Parser.Choice

/-!
# Repetition of parsers

The parsers here apply another one again and again. That comes to an end because the number of
tokens left goes down: a match that reads nothing is the last one, since the next would be the same.
-/

namespace Descent.Parser

variable {α β : Type}

/-- As many matches of `p` as follow one another, but at least `min`. The error that ends them is
recorded. A match that reads nothing is the last one and makes up for all that are missing. -/
def atLeast (min : Nat) (p : Parser α) : Parser (List α) := fun s =>
  match p s with
  | .error e => if min = 0 then .ok ([], s.record e) else .error e
  | .ok (a, t) =>
    if t.left < s.left then
      match atLeast (min - 1) p t with
      | .ok (as, u) => .ok (a :: as, u)
      | .error e => .error e
    else .ok ([a], t)
termination_by s => s.left

/-- Any number of matches of `p`. -/
def many (p : Parser α) : Parser (List α) := atLeast 0 p

/-- One match of `p` or more. -/
def many1 (p : Parser α) : Parser (List α) := atLeast 1 p

/-- Any number of matches of `item`, with one of `separator` between any two. -/
def sepBy (item : Parser α) (separator : Parser β) : Parser (List α) := do
  match ← optional (both item (many (separator *> item))) with
  | some (a, as) => return a :: as
  | none => return []

/-- Lets `f` extend the value `a` by what follows, until it has nothing to add. -/
def extendFrom (f : α → Parser (Option α)) (a : α) : Parser α := fun s =>
  match f a s with
  | .error e => .error e
  | .ok (none, t) => .ok (a, t)
  | .ok (some b, t) => if t.left < s.left then extendFrom f b t else .ok (b, t)
termination_by s => s.left

/-- What `p` reads, extended by `f` as far as it goes. -/
def extend (p : Parser α) (f : α → Parser (Option α)) : Parser α := p >>= extendFrom f

end Descent.Parser
