import Descent.Proofs.Diagnostic.Joining

/-!
# Errors joined one after the other

Many errors joined in turn make one, and `ParseError.Joins` says which: it is at the furthest of
their tokens, and it is made of the errors at that token and no others. Main statement: joining
errors and recording them lead there, however they are grouped (`ParseError.join_folds`). Their
order decides which of those at that token gives the place and the cause, but neither which token
that is nor what was expected in its place.
-/

namespace Descent

theorem Expectations.union_self (s : Expectations) : s ∪ s = s :=
  ext_mem fun e => by rw [mem_union, or_self]

namespace ParseError

theorem Cause.orElse_self (c : Cause) : c.orElse c = c := by
  cases c <;> rfl

/-- The first of several causes that says more than that the token is unexpected, if one does. -/
def Cause.firstTelling (cs : List Cause) : Cause :=
  (cs.find? (· ≠ .unexpectedToken)).getD .unexpectedToken

theorem Cause.firstTelling_singleton (c : Cause) : firstTelling [c] = c := by
  cases c <;> rfl

theorem Cause.firstTelling_append (cs ds : List Cause) :
    firstTelling (cs ++ ds) = (firstTelling cs).orElse (firstTelling ds) := by
  unfold firstTelling
  rw [List.find?_append]
  cases h : cs.find? (· ≠ .unexpectedToken) with
  | none => rfl
  | some c =>
    have hc : c ≠ .unexpectedToken := by simpa using List.find?_some h
    cases c with
    | unexpectedToken => exact absurd rfl hc
    | _ => rfl

theorem join_self (e : ParseError) : e.join e = e := by
  rw [join_of_index_eq rfl, Expectations.union_self, Cause.orElse_self]

/-- The error `r` is made of the errors `es`, which are at its token: the first gives the place,
what any of them expected was expected, and the first telling cause is the cause. -/
structure Unites (es : List ParseError) (r : ParseError) : Prop where
  first : ∃ e, es.head? = some e ∧ r.position = e.position ∧ r.found = e.found
  expected : ∀ x, x ∈ r.expected ↔ ∃ e ∈ es, x ∈ e.expected
  cause : r.cause = .firstTelling (es.map cause)

/-- The error `r` joins the errors `es`: it is at the furthest of their tokens, and made of those at
that token. -/
structure Joins (es : List ParseError) (r : ParseError) : Prop where
  index_le : ∀ e ∈ es, e.index ≤ r.index
  unites : Unites (es.filter (·.index = r.index)) r

variable {es fs : List ParseError} {e r q : ParseError}

namespace Unites

theorem singleton (e : ParseError) : Unites [e] e where
  first := ⟨e, rfl, rfl, rfl⟩
  expected x := by simp
  cause := (Cause.firstTelling_singleton e.cause).symm

/-- One more error at the same token is joined last. -/
theorem concat (h : Unites es r) (he : r.index = e.index) : Unites (es ++ [e]) (r.join e) := by
  obtain ⟨f, hf, hposition, hfound⟩ := h.first
  rw [join_of_index_eq he]
  constructor
  · exact ⟨f, by rw [List.head?_append, hf]; rfl, hposition, hfound⟩
  · intro x
    rw [Expectations.mem_union, h.expected]
    simp only [List.mem_append, List.mem_singleton, or_and_right, exists_or, exists_eq_left]
  · rw [List.map_append, List.map_singleton, Cause.firstTelling_append,
      Cause.firstTelling_singleton, ← h.cause]

end Unites

namespace Joins

theorem singleton (e : ParseError) : Joins [e] e where
  index_le := List.forall_mem_singleton.2 (Nat.le_refl _)
  unites := by
    have hself : [e].filter (·.index = e.index) = [e] := by simp
    rw [hself]
    exact .singleton e

/-- One more error is joined last: one further on takes the place of all, one at the same token
adds to them, and any other changes nothing. -/
theorem concat (h : Joins es r) (e : ParseError) : Joins (es ++ [e]) (r.join e) := by
  have hindex : (r.join e).index = max r.index e.index := index_join r e
  have hle : ∀ f ∈ es ++ [e], f.index ≤ (r.join e).index := by
    rw [List.forall_mem_append, List.forall_mem_singleton, hindex]
    exact ⟨fun f hf => Nat.le_trans (h.index_le f hf) (Nat.le_max_left _ _), Nat.le_max_right _ _⟩
  refine ⟨hle, ?_⟩
  rw [List.filter_append]
  rcases Nat.lt_trichotomy r.index e.index with hlt | heq | hgt
  · have hnone : es.filter (·.index = e.index) = [] := List.filter_eq_nil_iff.2 fun f hf => by
      have := h.index_le f hf
      simpa using by omega
    rw [join_of_index_lt hlt, hnone]
    exact (singleton e).unites
  · have hjoined : (r.join e).index = r.index := by omega
    have hkept : [e].filter (·.index = r.index) = [e] := by simp [heq]
    rw [hjoined, hkept]
    exact h.unites.concat heq
  · have hdropped : [e].filter (·.index = r.index) = [] := by simpa using Nat.ne_of_lt hgt
    rw [join_of_index_gt hgt, hdropped, List.append_nil]
    exact h.unites

/-- Errors joined in turn make one that joins them. -/
theorem foldl (h : Joins es r) (fs : List ParseError) : Joins (es ++ fs) (fs.foldl join r) := by
  induction fs generalizing es r with
  | nil =>
    rw [List.append_nil]
    exact h
  | cons f fs ih =>
    rw [← List.singleton_append, ← List.append_assoc]
    exact ih (h.concat f)

theorem exists_index_eq (h : Joins es r) : ∃ e ∈ es, e.index = r.index := by
  obtain ⟨e, he, -, -⟩ := h.unites.first
  obtain ⟨hes, hindex⟩ := List.mem_filter.1 (List.mem_of_mem_head? he)
  exact ⟨e, hes, of_decide_eq_true hindex⟩

theorem index_le_of_subset (h : Joins es r) (h' : Joins fs q) (hsub : es ⊆ fs) :
    r.index ≤ q.index := by
  obtain ⟨e, he, hindex⟩ := h.exists_index_eq
  rw [← hindex]
  exact h'.index_le e (hsub he)

/-- In another order, the same errors make one at the same token, with the same expectations. -/
theorem of_perm (h : Joins es r) (h' : Joins fs q) (hperm : es.Perm fs) :
    r.index = q.index ∧ r.expected = q.expected := by
  have hindex : r.index = q.index := Nat.le_antisymm (h.index_le_of_subset h' hperm.subset)
    (h'.index_le_of_subset h hperm.symm.subset)
  refine ⟨hindex, Expectations.ext_mem fun x => ?_⟩
  rw [h.unites.expected, h'.unites.expected, hindex]
  simp only [(hperm.filter _).mem_iff]

end Joins

end ParseError

/-- Errors recorded in turn: each is joined with what was recorded before it, if the furthest errors
are selected, and nothing is recorded otherwise. -/
theorem Input.foldl_record (s : Input) (es : List ParseError) :
    es.foldl record s = match s.settings.failureSelection with
      | .furthest => { s with furthest := es.foldl (fun r e => some (e.join? r)) s.furthest }
      | .first => s := by
  induction es generalizing s with
  | nil => cases h : s.settings.failureSelection <;> rfl
  | cons e es ih =>
    rw [List.foldl_cons, ih, (s.record_passes e).settings]
    cases h : s.settings.failureSelection with
    | furthest =>
      rw [record_of_furthest h]
      rfl
    | first => exact record_of_first h e

namespace ParseError

/-- Joining errors is associative and idempotent. Errors joined in turn make one at the furthest of
their tokens: of those at that token, the first gives the place, all say what was expected, and the
first that says more than that the token is unexpected gives the cause. In another order, they make
one at the same token with the same expectations. Recorded on an input one after the other, each is
joined with the record there, and no more than the record changes; if the first errors are selected,
not even that. -/
theorem join_folds :
    (∀ e f g : ParseError, (e.join f).join g = e.join (f.join g)) ∧
    (∀ e : ParseError, e.join e = e) ∧
    (∀ (e : ParseError) (es : List ParseError), Joins (e :: es) (es.foldl join e)) ∧
    (∀ (e f : ParseError) (es fs : List ParseError), (e :: es).Perm (f :: fs) →
      (es.foldl join e).index = (fs.foldl join f).index ∧
      (es.foldl join e).expected = (fs.foldl join f).expected) ∧
    ∀ (s : Input) (es : List ParseError), es.foldl Input.record s =
      match s.settings.failureSelection with
      | .furthest => { s with furthest := es.foldl (fun r e => some (e.join? r)) s.furthest }
      | .first => s := by
  have hfold (e : ParseError) (es : List ParseError) : Joins (e :: es) (es.foldl join e) :=
    (Joins.singleton e).foldl es
  exact ⟨join_assoc, join_self, hfold,
    fun e f es fs hperm => (hfold e es).of_perm (hfold f fs) hperm, Input.foldl_record⟩

/-- A level too many and a missing semicolon at one token: in either order the level is the cause
and the semicolon was expected. -/
theorem join_folds_swap : ∃ e f : ParseError, [e, f].Perm [f, e] ∧ e ≠ f ∧
    (f.join e).cause = .tooDeep ∧ (e.join f).expected = {.token .semicolon} ∧
    (e.join f).index = (f.join e).index ∧ (e.join f).expected = (f.join e).expected := by
  obtain ⟨-, -, -, hperm, -⟩ := join_folds
  have hsame (e f : ParseError) : (e.join f).index = (f.join e).index ∧
      (e.join f).expected = (f.join e).expected := hperm e f [f] [e] (.swap f e [])
  exact ⟨⟨⟨4, 1, 5⟩, 2, ∅, .openParen, .tooDeep⟩,
    ⟨⟨4, 1, 5⟩, 2, {.token .semicolon}, .openParen, .unexpectedToken⟩, .swap _ _ _, nofun, rfl, rfl,
    hsame _ _⟩

end ParseError

end Descent
