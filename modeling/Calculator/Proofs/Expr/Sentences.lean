import Calculator.Proofs.Expr.Denotation

/-!
# Sentences and what they can begin with

A sentence is a complete expression followed by the end of the input. Token values are viable if
some sentence begins with them. Viability can be told from left to right: all that has to be kept
is what is due next and how many parentheses are open (`Progress`). Reading gets through exactly
the viable sequences (`viable_iff`), and through an expression with as many open parentheses at a
time as the expression is deep (`Progress.run_values`).
-/

namespace Calculator

/-! ### Sentences -/

/-- The token values of a complete expression, and the end of the input. -/
def Sentence (w : List Token.Value) : Prop := ∃ e : Expr .sum, w = e.values ++ [.eof]

/-- What some sentence begins with. -/
def Viable (w : List Token.Value) : Prop := ∃ s, Sentence s ∧ w <+: s

/-- What may come next in a sentence. -/
inductive Due where
  /-- An operand, perhaps with a sign. -/
  | operand
  /-- An operand whose sign was read. -/
  | primary
  /-- An operator, or the end of what is open. -/
  | operator
  | nothing
deriving DecidableEq

/-- How far the reading of a sentence has come: what is due, and how many parentheses are open. -/
structure Progress where
  due : Due := .operand
  depth : Nat := 0
deriving DecidableEq

namespace Progress

/-- An operand without a sign may come next. -/
def AtOperand (s : Progress) : Prop := s.due = .operand ∨ s.due = .primary

/-- Reading one token value, with no more than `bound` parentheses open at a time. -/
inductive Step (bound : Nat) : Progress → Token.Value → Progress → Prop
  | literal {s : Progress} (h : s.AtOperand) (n : UInt32) :
    Step bound s (.uint n) ⟨.operator, s.depth⟩
  | sign {d : Nat} {b : UInt8} (hb : b = UnOp.negate.byte) :
    Step bound ⟨.operand, d⟩ (.other b) ⟨.primary, d⟩
  | opening {s : Progress} {b : UInt8} (h : s.AtOperand) (hb : b = openParen)
    (hd : s.depth < bound) : Step bound s (.other b) ⟨.operand, s.depth + 1⟩
  | operator {d : Nat} {b : UInt8} {op : BinOp} (hb : b = op.byte) :
    Step bound ⟨.operator, d⟩ (.other b) ⟨.operand, d⟩
  | closing {d : Nat} {b : UInt8} (hb : b = closeParen) :
    Step bound ⟨.operator, d + 1⟩ (.other b) ⟨.operator, d⟩
  | eof : Step bound ⟨.operator, 0⟩ .eof ⟨.nothing, 0⟩

/-- Reading token values one after the other. -/
inductive Run (bound : Nat) : Progress → List Token.Value → Progress → Prop
  | nil {s : Progress} : Run bound s [] s
  | cons {s s' s'' : Progress} {v : Token.Value} {w : List Token.Value} :
    Step bound s v s' → Run bound s' w s'' → Run bound s (v :: w) s''

variable {bound bound' : Nat} {s s' s'' t : Progress} {v : Token.Value} {u w : List Token.Value}

theorem Step.mono (h : Step bound s v s') (hb : bound ≤ bound') : Step bound' s v s' := by
  cases h with
  | literal h n => exact .literal h n
  | sign h => exact .sign h
  | opening h ho hd => exact .opening h ho (Nat.lt_of_lt_of_le hd hb)
  | operator h => exact .operator h
  | closing h => exact .closing h
  | eof => exact .eof

theorem Step.unique (h : Step bound s v s') (h' : Step bound' s v t) : s' = t := by
  cases h <;> cases h' <;> simp_all [AtOperand]

theorem Run.mono (h : Run bound s w s') (hb : bound ≤ bound') : Run bound' s w s' := by
  induction h with
  | nil => exact .nil
  | cons h _ ih => exact .cons (h.mono hb) ih

theorem Run.unique (h : Run bound s w s') (h' : Run bound' s w t) : s' = t := by
  induction h generalizing t with
  | nil => cases h'; rfl
  | cons h _ ih =>
    cases h' with
    | cons h' hr =>
      cases h.unique h'
      exact ih hr

theorem Run.append (h : Run bound s u s') (h' : Run bound s' w s'') :
    Run bound s (u ++ w) s'' := by
  induction h with
  | nil => exact h'
  | cons h _ ih => exact .cons h (ih h')

theorem Run.concat (h : Run bound s u s') (h' : Step bound s' v s'') :
    Run bound s (u ++ [v]) s'' :=
  h.append (.cons h' .nil)

theorem Run.of_append (h : Run bound s (u ++ w) s'') :
    ∃ s', Run bound s u s' ∧ Run bound s' w s'' := by
  induction u generalizing s with
  | nil => exact ⟨s, .nil, h⟩
  | cons v u ih =>
    cases h with
    | cons h hr =>
      obtain ⟨s', hu, hw⟩ := ih hr
      exact ⟨s', .cons h hu, hw⟩

theorem Run.of_isPrefix (h : Run bound s w s') (hu : u <+: w) : ∃ t, Run bound s u t := by
  obtain ⟨x, rfl⟩ := hu
  obtain ⟨t, ht, -⟩ := h.of_append
  exact ⟨t, ht⟩

/-- What is read in full is read with one more value by a step. -/
theorem Run.of_concat (h : Run bound s (u ++ [v]) s'') (hu : Run bound' s u s') :
    Step bound s' v s'' := by
  obtain ⟨t, ht, hv⟩ := h.of_append
  cases ht.unique hu
  cases hv with
  | cons hv hn => cases hn; exact hv

theorem Run.eq_of_nothing {d : Nat} (h : Run bound ⟨.nothing, d⟩ w s') : s' = ⟨.nothing, d⟩ := by
  cases h with
  | nil => rfl
  | cons h => cases h <;> simp_all [AtOperand]

/-! ### Open parentheses -/

theorem Step.count (h : Step bound s v s') :
    [v].count (.other openParen) + s.depth = [v].count (.other closeParen) + s'.depth := by
  cases h <;> simp_all
  · omega
  · omega

/-- The depth counts the parentheses that were opened and not closed. -/
theorem Run.count (h : Run bound s w s') :
    w.count (.other openParen) + s.depth = w.count (.other closeParen) + s'.depth := by
  induction h with
  | nil => rfl
  | @cons s s' s'' v w h _ ih =>
    have hs := h.count
    rw [← List.singleton_append, List.count_append, List.count_append]
    omega

theorem Run.count_start (h : Run bound {} w s) :
    w.count (.other openParen) = w.count (.other closeParen) + s.depth := h.count

/-! ### Reading expressions -/

/-- An expression is read from where an operand is due to where an operator is due, with as many
more parentheses open at a time as it is deep. -/
theorem run_values {l : Level} (e : Expr l) {due : Due} {d : Nat}
    (hs : due = .operand ∨ l = .primary ∧ due = .primary) (hb : d + e.depth ≤ bound) :
    Run bound ⟨due, d⟩ e.values ⟨.operator, d⟩ := by
  induction e generalizing due d with
  | literal n => exact .cons (.literal (hs.imp_right And.right) n) .nil
  | paren _ body _ ih =>
    have hb : d + 1 + body.depth ≤ bound := by rw [Expr.depth] at hb; omega
    have ho : Step bound ⟨due, d⟩ (.other openParen) ⟨.operand, d + 1⟩ :=
      .opening (hs.imp_right And.right) rfl (by dsimp only; omega)
    rw [Expr.values_paren]
    exact .cons ho ((ih (.inl rfl) hb).concat (.closing rfl))
  | unsigned _ ih => exact ih (.inl (by simpa using hs)) hb
  | negated _ _ ih =>
    obtain rfl : due = .operand := by simpa using hs
    exact .cons (.sign rfl) (ih (.inr ⟨rfl, rfl⟩) hb)
  | factor _ ih | term _ ih => exact ih (.inl (by simpa using hs)) hb
  | product left op _ _ right ihl ihr | sum left op _ _ right ihl ihr =>
    obtain rfl : due = .operand := by simpa using hs
    obtain ⟨hl, hr⟩ : d + left.depth ≤ bound ∧ d + right.depth ≤ bound := by
      rw [Expr.depth] at hb; omega
    rw [Expr.values, Expr.tokens, List.map_append]
    exact (ihl (.inl rfl) hl).append (.cons (.operator rfl) (ihr (.inl rfl) hr))

end Progress

/-! ### What is read can be completed -/

/-- A sum is complete as soon as an operand stands behind `u`. -/
private def AwaitsOperand (u : List Token.Value) : Prop :=
  ∀ x : Expr .unary, ∃ e : Expr .sum, e.values = u ++ x.values

/-- A sum is complete as soon as an operand without a sign stands behind `u`. -/
private def AwaitsPrimary (u : List Token.Value) : Prop :=
  ∀ x : Expr .primary, ∃ e : Expr .sum, e.values = u ++ x.values

private theorem awaitsOperand_nil : AwaitsOperand [] := fun x => ⟨.term (.factor x), rfl⟩

private theorem AwaitsOperand.primary {u : List Token.Value} (h : AwaitsOperand u) :
    AwaitsPrimary u := fun x => h (.unsigned x)

private theorem AwaitsOperand.sign {u : List Token.Value} (h : AwaitsOperand u) :
    AwaitsPrimary (u ++ [.other UnOp.negate.byte]) := by
  intro x
  obtain ⟨e, he⟩ := h (.negated {} x)
  exact ⟨e, by simp [he]⟩

/-- An operator of either level can go on a sum: on its last product, or on the whole of it. -/
private theorem awaitsOperand_operator (e : Expr .sum) (op : BinOp) :
    AwaitsOperand (e.values ++ [.other op.byte]) := by
  intro x
  cases hop : op with
  | add | subtract =>
    exact ⟨.sum e op (by simp [hop, Level.operators]) {} (.factor x), by simp [hop]⟩
  | multiply | divide =>
    have hm : op ∈ Level.product.operators := by simp [hop, Level.operators]
    cases e with
    | term p => exact ⟨.term (.product p op hm {} x), by simp [hop]⟩
    | sum left op' h' sign p => exact ⟨.sum left op' h' sign (.product p op hm {} x), by simp [hop]⟩

/-- What ends with as many opening parentheses as the number says, apart from those that are
closed again, and is complete once the sum that has begun behind them is. -/
private inductive Opens : Nat → List Token.Value → Prop
  | none : Opens 0 []
  | paren {d : Nat} {c u : List Token.Value} :
    Opens d c → AwaitsPrimary u → Opens (d + 1) (c ++ (u ++ [.other openParen]))

theorem Viable.of_isPrefix {u w : List Token.Value} (h : Viable w) (hu : u <+: w) : Viable u := by
  obtain ⟨x, hx, hw⟩ := h
  exact ⟨x, hx, hu.trans hw⟩

private theorem Opens.viable {d : Nat} {c : List Token.Value} (h : Opens d c) (e : Expr .sum) :
    Viable (c ++ e.values) := by
  induction h generalizing e with
  | none => exact ⟨_, ⟨e, rfl⟩, _, rfl⟩
  | @paren d c u _ hu ih =>
    obtain ⟨e', he⟩ := hu (.paren {} e {})
    exact (ih e').of_isPrefix ⟨[.other closeParen], by simp [he]⟩

private theorem Opens.viable_awaiting {d : Nat} {c u : List Token.Value} (h : Opens d c)
    (hu : AwaitsPrimary u) : Viable (c ++ u) := by
  obtain ⟨e, he⟩ := hu (.literal 0 {})
  exact (h.viable e).of_isPrefix ⟨[.uint 0], by simp [he]⟩

/-- How what was read looks at each kind of progress. -/
private inductive Progress.Shape : Progress → List Token.Value → Prop
  | operand {d : Nat} {c u : List Token.Value} :
    Opens d c → AwaitsOperand u → Shape ⟨.operand, d⟩ (c ++ u)
  | primary {d : Nat} {c u : List Token.Value} :
    Opens d c → AwaitsPrimary u → Shape ⟨.primary, d⟩ (c ++ u)
  | operator {d : Nat} {c : List Token.Value} (e : Expr .sum) :
    Opens d c → Shape ⟨.operator, d⟩ (c ++ e.values)
  | nothing {d : Nat} (e : Expr .sum) : Shape ⟨.nothing, d⟩ (e.values ++ [.eof])

namespace Progress
variable {bound : Nat} {s s' : Progress} {v : Token.Value} {u w : List Token.Value}

private theorem Shape.atOperand (h : Shape s w) (hs : s.AtOperand) :
    ∃ c u, w = c ++ u ∧ Opens s.depth c ∧ AwaitsPrimary u := by
  cases h with
  | operand hc hu => exact ⟨_, _, rfl, hc, hu.primary⟩
  | primary hc hu => exact ⟨_, _, rfl, hc, hu⟩
  | operator | nothing => simp [AtOperand] at hs

private theorem Shape.step (h : Shape s w) (hv : Step bound s v s') : Shape s' (w ++ [v]) := by
  cases hv with
  | literal hs n =>
    obtain ⟨c, u, rfl, hc, hu⟩ := h.atOperand hs
    obtain ⟨e, he⟩ := hu (.literal n {})
    rw [List.append_assoc, ← Expr.values_literal n {}, ← he]
    exact .operator e hc
  | sign hb =>
    cases h with
    | operand hc hu =>
      rw [List.append_assoc, hb]
      exact .primary hc hu.sign
  | opening hs hb _ =>
    obtain ⟨c, u, rfl, hc, hu⟩ := h.atOperand hs
    have ho := Opens.paren hc hu
    rw [List.append_assoc, hb, ← List.append_nil (c ++ _)]
    exact .operand ho awaitsOperand_nil
  | operator hb =>
    cases h with
    | operator e hc =>
      rw [List.append_assoc, hb]
      exact .operand hc (awaitsOperand_operator e _)
  | closing hb =>
    cases h with
    | operator e hc =>
      cases hc with
      | @paren _ c u hc hu =>
        obtain ⟨e', he⟩ := hu (.paren {} e {})
        have hw : c ++ (u ++ [.other openParen]) ++ e.values ++ [.other closeParen] =
          c ++ e'.values := by simp [he]
        rw [hb, hw]
        exact .operator e' hc
  | eof =>
    cases h with
    | operator e hc =>
      cases hc
      exact .nothing e

private theorem Shape.run (h : Shape s u) (hr : Run bound s w s') : Shape s' (u ++ w) := by
  induction hr generalizing u with
  | nil => simpa using h
  | cons hv _ ih => simpa using ih (h.step hv)

private theorem Shape.viable (h : Shape s w) : Viable w := by
  cases h with
  | operand hc hu => exact hc.viable_awaiting hu.primary
  | primary hc hu => exact hc.viable_awaiting hu
  | operator e hc => exact hc.viable e
  | nothing e => exact ⟨_, ⟨e, rfl⟩, List.prefix_rfl⟩

end Progress

theorem Sentence.run {w : List Token.Value} (h : Sentence w) :
    ∃ bound, Progress.Run bound {} w ⟨.nothing, 0⟩ := by
  obtain ⟨e, rfl⟩ := h
  refine ⟨e.depth, (Progress.run_values e (.inl rfl) ?_).concat .eof⟩
  omega

/-- Behind an expression that it begins with, an expression goes on with an operator. -/
theorem Expr.exists_operator_of_values_eq {e e' : Expr .sum} {v : Token.Value}
    {w : List Token.Value} (he : e'.values = e.values ++ v :: w) :
    ∃ op : BinOp, v = .other op.byte := by
  have hr : Progress.Run e.depth {} e.values ⟨.operator, 0⟩ :=
    Progress.run_values e (.inl rfl) (by omega)
  have hr' : Progress.Run e'.depth {} e'.values ⟨.operator, 0⟩ :=
    Progress.run_values e' (.inl rfl) (by omega)
  rw [he] at hr'
  obtain ⟨s, hs, hv⟩ := hr'.of_append
  cases hs.unique hr
  cases hv with
  | cons hv hw =>
    cases hv with
    | operator hb => exact ⟨_, congrArg _ hb⟩
    | literal h | opening h => simp [Progress.AtOperand] at h
    | eof => cases hw.eq_of_nothing

/-- What sentences can begin with is what can be read. -/
theorem viable_iff {w : List Token.Value} :
    Viable w ↔ ∃ bound s, Progress.Run bound {} w s := by
  constructor
  · rintro ⟨x, hx, hw⟩
    obtain ⟨bound, hr⟩ := hx.run
    exact ⟨bound, hr.of_isPrefix hw⟩
  · rintro ⟨bound, s, hr⟩
    have h0 : Progress.Shape {} [] := .operand .none awaitsOperand_nil
    exact (h0.run hr).viable

end Calculator
