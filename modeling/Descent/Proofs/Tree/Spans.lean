import Descent.Proofs.Tree.Nodes

/-!
# Spans are exact

Where tokens stand one behind another (`Token.Ascending`), a node reaches from the start of the
first of its tokens to the end of the last one (`Node.Spelled.covers`): the builders of the grammar
join the spans of the first part and of the last part of a phrase, whatever these are. So the
children of a node stand inside it, one behind another (`Node.Spelled.nests`).
-/

namespace Descent

/-! ## The order of positions -/

namespace Position

variable {p q r : Position}

theorem le_iff : p ≤ q ↔ p.offset < q.offset ∨
    p.offset = q.offset ∧ (p.line < q.line ∨ p.line = q.line ∧ p.column ≤ q.column) := Iff.rfl

theorem le_refl (p : Position) : p ≤ p := .inr ⟨rfl, .inr ⟨rfl, Nat.le_refl _⟩⟩

theorem le_trans (h : p ≤ q) (h' : q ≤ r) : p ≤ r := by
  rw [le_iff] at *
  omega

theorem le_of_offset_lt (h : p.offset < q.offset) : p ≤ q := .inl h

end Position

/-- A span that begins first and one that ends last are joined to what reaches from the one's start
to the other's end. -/
theorem Span.join_of_le {a b : Span} (hstart : a.start ≤ b.start) (hstop : a.stop ≤ b.stop) :
    a.join b = ⟨a.start, b.stop⟩ := by
  have hmin : min a.start b.start = a.start := if_pos hstart
  have hmax : max a.stop b.stop = b.stop := if_pos hstop
  rw [join, hmin, hmax]

/-! ## Tokens one behind another -/

namespace Token

/-- The tokens stand one behind another. -/
structure Ascending (ts : List Token) : Prop where
  /-- None ends before it starts. -/
  start_le_stop : ∀ t ∈ ts, t.span.start ≤ t.span.stop
  /-- Each ends before the later ones start. -/
  apart : ts.Pairwise fun t u => t.span.stop ≤ u.span.start

/-- The span reaches from the start of the first token to the end of the last one. -/
def Covers (ts : List Token) (s : Span) : Prop :=
  ∃ x y, ts.head? = some x ∧ ts.getLast? = some y ∧ s = ⟨x.span.start, y.span.stop⟩

variable {ts us vs ws : List Token} {t u x y : Token} {a b : Span}

theorem Ascending.sublist (h : Ascending ts) (hs : us.Sublist ts) : Ascending us where
  start_le_stop t ht := h.start_le_stop t (hs.subset ht)
  apart := h.apart.sublist hs

theorem Ascending.middle (us vs : List Token) (h : Ascending ws) (hws : ws = us ++ ts ++ vs) :
    Ascending ts := by
  rw [hws] at h
  exact h.sublist ((List.sublist_append_right us ts).trans (List.sublist_append_left _ vs))

/-- What is behind starts behind. -/
theorem Ascending.stop_le_start (h : Ascending (ts ++ us)) (ht : t ∈ ts) (hu : u ∈ us) :
    t.span.stop ≤ u.span.start :=
  (List.pairwise_append.1 h.apart).2.2 t ht u hu

theorem Ascending.first_le (h : Ascending ts) (hx : ts.head? = some x) (ht : t ∈ ts) :
    x.span.start ≤ t.span.start := by
  obtain ⟨us, rfl⟩ := List.head?_eq_some_iff.1 hx
  rcases List.mem_cons.1 ht with rfl | hu
  · exact Position.le_refl _
  · exact Position.le_trans (h.start_le_stop x List.mem_cons_self)
      (List.rel_of_pairwise_cons h.apart hu)

theorem Ascending.le_last (h : Ascending ts) (hy : ts.getLast? = some y) (ht : t ∈ ts) :
    t.span.stop ≤ y.span.stop := by
  obtain ⟨us, rfl⟩ := List.getLast?_eq_some_iff.1 hy
  rcases List.mem_append.1 ht with hu | hu
  · exact Position.le_trans (h.stop_le_start hu List.mem_cons_self)
      (h.start_le_stop y (List.mem_append_right us List.mem_cons_self))
  · obtain rfl := List.mem_singleton.1 hu
    exact Position.le_refl _

theorem Covers.join_self (h : Covers ts a) : Covers ts (a.join a) := by
  rw [Span.join_of_le (Position.le_refl _) (Position.le_refl _)]
  exact h

theorem covers_singleton (t : Token) : Covers [t] t.span := ⟨t, t, rfl, rfl, rfl⟩

/-- Spans that cover the first and the last of some tokens join to one that covers them all. -/
theorem Covers.join (vs : List Token) (h : Covers ts a) (h' : Covers us b) (hws : Ascending ws)
    (hsplit : ws = ts ++ vs ++ us) : Covers ws (a.join b) := by
  obtain ⟨x, y, hx, hy, rfl⟩ := h
  obtain ⟨x', y', hx', hy', rfl⟩ := h'
  have hfirst : ws.head? = some x := by
    rw [hsplit, List.append_assoc, List.head?_append, hx]
    rfl
  have hlast : ws.getLast? = some y' := by
    rw [hsplit, List.getLast?_append, hy']
    rfl
  have hstart : x.span.start ≤ x'.span.start := by
    apply hws.first_le hfirst
    rw [hsplit]
    exact List.mem_append_right _ (List.mem_of_mem_head? (show x' ∈ us.head? from hx'))
  have hstop : y.span.stop ≤ y'.span.stop := by
    apply hws.le_last hlast
    rw [hsplit, List.append_assoc]
    exact List.mem_append_left _ (List.mem_of_mem_getLast? (show y ∈ ts.getLast? from hy))
  exact ⟨x, y', hfirst, hlast, Span.join_of_le hstart hstop⟩

end Token

open Token (Ascending Covers)

/-! ## Trees -/

/-- A statement behind a keyword ends with its semicolon, or where the expression in it ends. -/
theorem Grammar.covers_terminated {k : Token} {ts ws : List Token} {a : Span} (vs : List Token)
    {o : Option Token} (h : Covers ts a) (hws : Ascending ws)
    (hsplit : ws = k :: (vs ++ (ts ++ o.toList))) : Covers ws (terminated k.span a o) := by
  have hk : Covers [k] k.span := Token.covers_singleton k
  cases o with
  | none => exact hk.join vs h hws (by simpa using hsplit)
  | some t => exact hk.join (vs ++ ts) (Token.covers_singleton t) hws (by simpa using hsplit)

/-- An expression as a statement ends with the semicolon, or by itself. -/
theorem Grammar.covers_terminated_self {ts : List Token} {a : Span} {o : Option Token}
    (h : Covers ts a) (hts : Ascending (ts ++ o.toList)) :
    Covers (ts ++ o.toList) (terminated a a o) := by
  cases o with
  | none =>
    rw [Option.toList_none, List.append_nil]
    exact h.join_self
  | some t => exact h.join [] (Token.covers_singleton t) hts (by simp)

/-- Where the tree of a sort of phrase has a span, it covers the tokens. -/
def Part.Covered (ts : List Token) : (p : Part) → p.Tree → Prop
  | expr _, e => Covers ts e.span
  | stmt, s => Covers ts s.span
  | block, b => Covers ts b.span
  | _, _ => True

/-- The span of a tree covers the tokens that spell it, if they stand one behind another. -/
theorem Spells.covered {p : Part} {ts : List Token} {a : p.Tree} (h : Spells p ts a)
    (hts : Ascending ts) : p.Covered ts a := by
  have hone := Token.covers_singleton
  induction h with
  | @integer t | @boolean t | @var t => exact hone t
  | @group o c ts => exact (hone o).join ts (hone c) hts (by simp)
  | @conditional i o c ts us _ b _ _ _ _ _ _ ihb =>
    have hb : Covers us b.span := ihb (hts.middle (i :: o :: (ts ++ [c])) [] (by simp))
    exact (hone i).join (o :: (ts ++ [c])) hb hts (by simp)
  | @alternative i o c l ts us vs _ _ d _ _ _ _ _ _ _ _ _ ihd =>
    have hd : Covers vs d.span :=
      ihd (hts.middle (i :: o :: (ts ++ c :: (us ++ [l]))) [] (by simp))
    exact (hone i).join (o :: (ts ++ c :: (us ++ [l]))) hd hts (by simp)
  | @function f o c ts us _ b _ _ _ _ _ _ ihb =>
    have hb : Covers us b.span := ihb (hts.middle (f :: o :: (ts ++ [c])) [] (by simp))
    exact (hone f).join (o :: (ts ++ [c])) hb hts (by simp)
  | @call o c ts us e _ _ _ _ _ ihe =>
    have he : Covers ts e.span := ihe (hts.middle [] (o :: (us ++ [c])) (by simp))
    exact he.join (o :: us) (hone c) hts (by simp)
  | @unary t ts _ e _ _ ih =>
    have he : Covers ts e.span := ih (hts.middle [t] [] (by simp))
    exact (hone t).join [] he hts (by simp)
  | @binary _ t ts us _ e f _ _ _ ihe ihf =>
    have he : Covers ts e.span := ihe (hts.middle [] (t :: us) (by simp))
    have hf : Covers us f.span := ihf (hts.middle (ts ++ [t]) [] (by simp))
    exact he.join [t] hf hts (by simp)
  | tighter _ ih => exact ih hts
  | @binding k i a ts e o _ _ _ _ _ ih =>
    have he : Covers ts e.span := ih (hts.middle [k, i, a] o.toList (by simp))
    exact Grammar.covers_terminated [i, a] he hts (by simp)
  | @returning k ts e o _ _ _ ih =>
    have he : Covers ts e.span := ih (hts.middle [k] o.toList (by simp))
    exact Grammar.covers_terminated [] he hts (by simp)
  | @evaluation ts e o _ _ ih =>
    have he : Covers ts e.span := ih (hts.middle [] o.toList (by simp))
    exact Grammar.covers_terminated_self he hts
  | @block o c ts => exact (hone o).join ts (hone c) hts (by simp)
  | _ => exact trivial

namespace Node

variable {n m : Node} {ns : List Node} {ts us : List Token} {a : Span}

/-- The span of a node covers its tokens. -/
theorem Spelled.covers (h : n.Spelled ts) (hts : Ascending ts) : Covers ts n.span := by
  cases h with
  | expr h => exact h.covered hts
  | stmt h => exact h.covered hts
  | block h => exact h.covered hts
  | name => exact Token.covers_singleton _

/-- The nodes stand inside the span, one behind another. -/
structure Nests (a : Span) (ns : List Node) : Prop where
  /-- They stand inside the span. -/
  inside : ∀ n ∈ ns, a.start ≤ n.span.start ∧ n.span.stop ≤ a.stop
  /-- Each ends before the later ones start. -/
  apart : ns.Pairwise fun n m => n.span.stop ≤ m.span.start

/-- Nodes that are spelled one after another stand one behind another. -/
theorem InOrder.apart (h : InOrder ns us) (hus : Ascending us) :
    ns.Pairwise fun n m => n.span.stop ≤ m.span.start := by
  induction h with
  | nil => exact .nil
  | @cons before after n ns ts us hn h hsplit ih =>
    have hafter : Ascending after := hus.middle (before ++ ts) [] (by simp [hsplit])
    refine .cons (fun m hm => ?_) (ih hafter)
    obtain ⟨first, vs, last, rfl, hspelled⟩ := h.of_mem hm
    have hts : Ascending ts := hus.middle before _ hsplit
    obtain ⟨_, y, _, hy, hspan⟩ := hn.covers hts
    obtain ⟨x, _, hx, _, hspan'⟩ := hspelled.covers (hafter.middle first last rfl)
    rw [hspan, hspan']
    rw [hsplit] at hus
    apply hus.stop_le_start
    · exact List.mem_append_right _ (List.mem_of_getLast? hy)
    · simp [List.mem_of_head? hx]

/-- A node that is spelled by some of the tokens stands inside a span that covers all. -/
theorem Spelled.inside {before after : List Token} (h : n.Spelled ts) (hus : Ascending us)
    (ha : Covers us a) (hsplit : us = before ++ ts ++ after) :
    a.start ≤ n.span.start ∧ n.span.stop ≤ a.stop := by
  obtain ⟨x, y, hx, hy, hspan⟩ := h.covers (hus.middle before after hsplit)
  obtain ⟨x', y', hx', hy', rfl⟩ := ha
  rw [hspan]
  have hmem {t : Token} (ht : t ∈ ts) : t ∈ us := by simp [hsplit, ht]
  exact ⟨hus.first_le hx' (hmem (List.mem_of_head? hx)),
    hus.le_last hy' (hmem (List.mem_of_getLast? hy))⟩

/-- The children of a node stand inside it, one behind another. -/
theorem Spelled.nests (h : n.Spelled ts) (hts : Ascending ts) : Nests n.span n.children where
  inside m hm := by
    obtain ⟨before, us, after, hsplit, hspelled⟩ := h.inOrder.of_mem hm
    exact hspelled.inside hts (h.covers hts) hsplit
  apart := h.inOrder.apart hts

end Node

end Descent
