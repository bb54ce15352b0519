import Descent.Token.Basic

/-!
# Expectations

What a parser would have accepted in place of the token it found: a kind of token, or a phrase that
has a name. A set of expectations is kept as a sorted list without repetitions, so that equal sets
are equal values and a message lists them in a fixed order: token kinds by rank, then names
alphabetically.
-/

namespace Descent

/-- Something that a parser could have gone on with. -/
inductive Expectation where
  /-- A token of this kind. -/
  | token (kind : Token.Kind)
  /-- A phrase with this name. -/
  | phrase (name : String)
deriving DecidableEq, Repr

namespace Expectation

/-- Token kinds come first, by rank; names follow, in the order of their characters. -/
protected def lt : Expectation → Expectation → Prop
  | token k, token l => k.rank < l.rank
  | token _, phrase _ => True
  | phrase _, token _ => False
  | phrase a, phrase b => a < b

instance : LT Expectation := ⟨Expectation.lt⟩

instance : (e f : Expectation) → Decidable (e < f)
  | token k, token l => inferInstanceAs (Decidable (k.rank < l.rank))
  | token _, phrase _ => isTrue trivial
  | phrase _, token _ => isFalse id
  | phrase a, phrase b => inferInstanceAs (Decidable (a < b))

/-- The expectation as a message lists it. -/
instance : ToString Expectation where
  toString
    | token k => k.description
    | phrase name => name

theorem lt_trans {e f g : Expectation} (h : e < f) (h' : f < g) : e < g :=
  match e, f, g, h, h' with
  | token _, token _, token _, h, h' => Nat.lt_trans h h'
  | token _, _, phrase _, _, _ => trivial
  | phrase _, phrase _, phrase _, h, h' => String.lt_trans h h'

theorem lt_irrefl (e : Expectation) : ¬e < e :=
  match e with
  | token k => Nat.lt_irrefl k.rank
  | phrase a => String.lt_irrefl a

/-- Two expectations of which neither comes first are the same. -/
theorem eq_of_not_lt {e f : Expectation} (h : ¬e < f) (h' : ¬f < e) : e = f :=
  match e, f, h, h' with
  | token _, token _, h, h' =>
    congrArg token (Token.Kind.rank_injective (Nat.le_antisymm (Nat.not_lt.1 h') (Nat.not_lt.1 h)))
  | token _, phrase _, h, _ => absurd trivial h
  | phrase _, token _, _, h' => absurd trivial h'
  | phrase _, phrase _, h, h' =>
    congrArg phrase (String.le_antisymm (String.not_lt.1 h') (String.not_lt.1 h))

end Expectation

/-- A set of expectations. -/
@[ext] structure Expectations where
  /-- Its members in order, each once. -/
  toList : List Expectation
  /-- They are in order. -/
  sorted : toList.Pairwise (· < ·)
deriving DecidableEq, Repr

namespace Expectations

instance : Membership Expectation Expectations where
  mem s e := e ∈ s.toList

instance (e : Expectation) (s : Expectations) : Decidable (e ∈ s) :=
  inferInstanceAs (Decidable (e ∈ s.toList))

instance : EmptyCollection Expectations := ⟨⟨[], .nil⟩⟩

instance : Inhabited Expectations := ⟨∅⟩

instance : Singleton Expectation Expectations := ⟨fun e => ⟨[e], List.pairwise_singleton ..⟩⟩

/-- Whether there are no members. -/
def isEmpty (s : Expectations) : Bool := s.toList.isEmpty

/-- Puts an expectation into its place in a sorted list, unless it is there. -/
def insertSorted (e : Expectation) : List Expectation → List Expectation
  | [] => [e]
  | f :: l => if e < f then e :: f :: l else if f < e then f :: insertSorted e l else f :: l

theorem mem_insertSorted {e f : Expectation} {l : List Expectation} :
    f ∈ insertSorted e l ↔ f = e ∨ f ∈ l := by
  induction l with
  | nil => simp [insertSorted]
  | cons g l ih =>
    simp only [insertSorted]
    split
    · simp
    · split
      · simp only [List.mem_cons, ih]
        exact or_left_comm
      · next h h' =>
        have := Expectation.eq_of_not_lt h h'
        simp [this]

theorem sorted_insertSorted {e : Expectation} {l : List Expectation} (h : l.Pairwise (· < ·)) :
    (insertSorted e l).Pairwise (· < ·) := by
  induction l with
  | nil => simp [insertSorted]
  | cons f l ih =>
    have ⟨hf, hl⟩ := List.pairwise_cons.1 h
    simp only [insertSorted]
    split
    · next hef =>
      refine List.pairwise_cons.2 ⟨fun g hg => ?_, h⟩
      rcases List.mem_cons.1 hg with rfl | hg
      · exact hef
      · exact Expectation.lt_trans hef (hf g hg)
    · split
      · next hfe =>
        refine List.pairwise_cons.2 ⟨fun g hg => ?_, ih hl⟩
        rcases mem_insertSorted.1 hg with rfl | hg
        · exact hfe
        · exact hf g hg
      · exact h

/-- The set with one more member. -/
def insert (e : Expectation) (s : Expectations) : Expectations :=
  ⟨insertSorted e s.toList, sorted_insertSorted s.sorted⟩

/-- The set with these members. -/
def ofList (l : List Expectation) : Expectations := l.foldr insert ∅

/-- All members of both sets. -/
instance : Union Expectations := ⟨fun s t => s.toList.foldr insert t⟩

/-- The members as a message lists them. -/
def listing (s : Expectations) : String := " or ".intercalate (s.toList.map toString)

@[simp] theorem not_mem_empty {e : Expectation} : e ∉ (∅ : Expectations) := List.not_mem_nil

@[simp] theorem mem_singleton {e f : Expectation} : e ∈ ({f} : Expectations) ↔ e = f :=
  List.mem_singleton

@[simp] theorem mem_insert {e f : Expectation} {s : Expectations} :
    e ∈ s.insert f ↔ e = f ∨ e ∈ s := mem_insertSorted

@[simp] theorem mem_union {e : Expectation} {s t : Expectations} : e ∈ s ∪ t ↔ e ∈ s ∨ e ∈ t := by
  have (l : List Expectation) : e ∈ l.foldr insert t ↔ e ∈ l ∨ e ∈ t := by
    induction l with
    | nil => simp
    | cons f l ih => simp only [List.foldr_cons, mem_insert, ih, List.mem_cons, or_assoc]
  exact this s.toList

end Expectations

end Descent
