import Calculator.Parser

/-!
# The rules of the routines

The routines of the parser as rules that derive what a call comes to: a value (`Parser.Gives`) or
an error (`Parser.Fails`), with one rule for each way a call can go. Every call comes to exactly
what the rules derive for it (`Parser.outcome_eq_ok_iff`, `Parser.outcome_eq_error_iff`), so what
is true of all calls can be shown by induction over the rules.
-/

namespace Calculator

theorem Token.value_of_isEof {t : Token} (h : t.isEof = true) : t.value = .eof := by
  simpa [isEof] using h

namespace Parser

/-- A call of one of the routines. -/
inductive Call where
  | phrase (l : Level)
  | chain (l : Level) (start : Position) (lhs : Int32)

def Call.outcome : Call → Parser → Outcome Int32
  | .phrase l, p => p.phrase l
  | .chain l start lhs, p => p.chain l start lhs

/-- The parse one level of parentheses further in, behind the opening one. -/
def inner (p : Parser) (budget : Nat) : Parser := ({ p with budget } : Parser).advance

/-- A call gives a value and leaves the parse at another place. -/
inductive Gives : Call → Parser → Int32 → Parser → Prop
  | joined {l : Level} {p q r : Parser} {a v : Int32} (hl : l.operators ≠ []) :
    Gives (.phrase l.operand) p a q → Gives (.chain l p.token.span.start a) q v r →
    Gives (.phrase l) p v r
  | negated {p q : Parser} {v : Int32} (hs : p.token.value = .other UnOp.negate.byte) :
    Gives (.phrase .primary) p.advance v q → Gives (.phrase .unary) p (UnOp.negate.apply v) q
  | unsigned {p q : Parser} {v : Int32} (hs : p.token.value ≠ .other UnOp.negate.byte) :
    Gives (.phrase .primary) p v q → Gives (.phrase .unary) p v q
  | literal {p : Parser} {n : UInt32} (hu : p.token.value = .uint n) :
    Gives (.phrase .primary) p (literalValue n) p.advance
  | paren {p q : Parser} {budget : Nat} {v : Int32} (ho : p.token.value = .other openParen)
    (hb : p.budget = budget + 1) : Gives (.phrase .sum) (p.inner budget) v q →
    q.token.value = .other closeParen → Gives (.phrase .primary) p v q.advance.leave
  | done {l : Level} {start : Position} {a : Int32} {p : Parser} (ho : p.operator? l = none) :
    Gives (.chain l start a) p a p
  | link {l : Level} {start : Position} {a b c v : Int32} {p q r : Parser} {op : BinOp}
    (ho : p.operator? l = some op) : Gives (.phrase l.operand) p.advance b q →
    op.apply a b = .ok c → Gives (.chain l start c) q v r → Gives (.chain l start a) p v r

/-- A call fails with an error and leaves the parse where this came up. -/
inductive Fails : Call → Parser → EvalError → Parser → Prop
  | operand {l : Level} {p q : Parser} {e : EvalError} (hl : l.operators ≠ []) :
    Fails (.phrase l.operand) p e q → Fails (.phrase l) p e q
  | joined {l : Level} {p q r : Parser} {a : Int32} {e : EvalError} (hl : l.operators ≠ []) :
    Gives (.phrase l.operand) p a q → Fails (.chain l p.token.span.start a) q e r →
    Fails (.phrase l) p e r
  | negated {p q : Parser} {e : EvalError} (hs : p.token.value = .other UnOp.negate.byte) :
    Fails (.phrase .primary) p.advance e q → Fails (.phrase .unary) p e q
  | unsigned {p q : Parser} {e : EvalError} (hs : p.token.value ≠ .other UnOp.negate.byte) :
    Fails (.phrase .primary) p e q → Fails (.phrase .unary) p e q
  | noOperand {p : Parser} (hu : ∀ n, p.token.value ≠ .uint n)
    (ho : p.token.value ≠ .other openParen) :
    Fails (.phrase .primary) p (.unexpectedToken primaryStart.expected p.token) p
  | tooDeep {p : Parser} (ho : p.token.value = .other openParen) (hb : p.budget = 0) :
    Fails (.phrase .primary) p (.recursionLimit p.token.span) p
  | paren {p q : Parser} {budget : Nat} {e : EvalError} (ho : p.token.value = .other openParen)
    (hb : p.budget = budget + 1) : Fails (.phrase .sum) (p.inner budget) e q →
    Fails (.phrase .primary) p e q.leave
  | unclosed {p q : Parser} {budget : Nat} {v : Int32} (ho : p.token.value = .other openParen)
    (hb : p.budget = budget + 1) : Gives (.phrase .sum) (p.inner budget) v q →
    q.token.value ≠ .other closeParen →
    Fails (.phrase .primary) p (.unexpectedToken [.other closeParen] q.token) q.leave
  | linkOperand {l : Level} {start : Position} {a : Int32} {p q : Parser} {op : BinOp}
    {e : EvalError} (ho : p.operator? l = some op) : Fails (.phrase l.operand) p.advance e q →
    Fails (.chain l start a) p e q
  | zeroDivisor {l : Level} {start : Position} {a b : Int32} {p q : Parser} {op : BinOp}
    (ho : p.operator? l = some op) : Gives (.phrase l.operand) p.advance b q →
    op.apply a b = .error .divisionByZero →
    Fails (.chain l start a) p (.divisionByZero ⟨start, q.prevEnd⟩) q
  | link {l : Level} {start : Position} {a b c : Int32} {p q r : Parser} {op : BinOp}
    {e : EvalError} (ho : p.operator? l = some op) : Gives (.phrase l.operand) p.advance b q →
    op.apply a b = .ok c → Fails (.chain l start c) q e r → Fails (.chain l start a) p e r

/-! ### The ways of the routines -/

section
variable {l : Level} {p : Parser}

theorem phrase_joined (hl : l.operators ≠ []) :
    p.phrase l = (p.phrase l.operand).bind (chain l p.token.span.start) := by
  cases l with
  | sum => exact p.phrase_sum
  | product => exact p.phrase_product
  | unary | primary => exact absurd rfl hl

theorem phrase_negated (h : p.token.value = .other UnOp.negate.byte) :
    p.phrase .unary =
      (p.advance.phrase .primary).bind fun v q => ⟨.ok (UnOp.negate.apply v), q⟩ := by
  rw [phrase_unary, tryConsume, if_pos (Matcher.accepts_byte.mpr h)]

theorem phrase_unsigned (h : p.token.value ≠ .other UnOp.negate.byte) :
    p.phrase .unary = p.phrase .primary := by
  rw [phrase_unary, tryConsume, if_neg (mt Matcher.accepts_byte.mp h)]

theorem phrase_literal {n : UInt32} (h : p.token.value = .uint n) :
    p.phrase .primary = ⟨.ok (literalValue n), p.advance⟩ := by
  rw [phrase_primary, h]

theorem phrase_noOperand (hu : ∀ n, p.token.value ≠ .uint n)
    (ho : p.token.value ≠ .other openParen) :
    p.phrase .primary = ⟨.error (.unexpectedToken primaryStart.expected p.token), p⟩ := by
  rw [phrase_primary]
  split
  · next hv => exact absurd hv (hu _)
  · next hv => rw [if_neg fun hb => ho (by rw [hv, hb])]
  · rfl

theorem phrase_tooDeep (h : p.token.value = .other openParen) (hb : p.budget = 0) :
    p.phrase .primary = ⟨.error (.recursionLimit p.token.span), p⟩ := by
  rw [phrase_primary, h]
  simp only [if_true, bounded, enter, hb, Outcome.bind]

private theorem close_eq (v : Int32) (q : Parser) :
    q.close v = if q.token.value = .other closeParen then ⟨.ok v, q.advance⟩
      else ⟨.error (.unexpectedToken [.other closeParen] q.token), q⟩ := by
  rw [close, expect]
  split
  · next h => rw [if_pos (Matcher.accepts_byte.mp h)]; rfl
  · next h => rw [if_neg (mt Matcher.accepts_byte.mpr h)]; rfl

theorem phrase_paren {budget : Nat} (h : p.token.value = .other openParen)
    (hb : p.budget = budget + 1) :
    p.phrase .primary =
      match (p.inner budget).phrase .sum with
      | ⟨.error e, q⟩ => ⟨.error e, q.leave⟩
      | ⟨.ok v, q⟩ =>
        if q.token.value = .other closeParen then ⟨.ok v, q.advance.leave⟩
        else ⟨.error (.unexpectedToken [.other closeParen] q.token), q.leave⟩ := by
  have ha : (Matcher.byte openParen).accepts p.token = true := Matcher.accepts_byte.mpr h
  rw [phrase_primary, h]
  simp only [if_true, bounded, enter, hb, Outcome.bind, paren, expect, ha]
  change Outcome.mk (Outcome.bind ((p.inner budget).phrase .sum) close).result
    (Outcome.bind ((p.inner budget).phrase .sum) close).rest.leave = _
  rcases (p.inner budget).phrase .sum with ⟨_ | v, q⟩
  · rfl
  · simp only [Outcome.bind, close_eq]
    split <;> rfl

variable {start : Position} {lhs : Int32}

theorem chain_done (h : p.operator? l = none) : p.chain l start lhs = ⟨.ok lhs, p⟩ := by
  rw [chain_eq, h]

theorem chain_link {op : BinOp} (h : p.operator? l = some op) :
    p.chain l start lhs = (p.advance.phrase l.operand).bind fun rhs q =>
      match op.apply lhs rhs with
      | .ok v => q.chain l start v
      | .error .divisionByZero => ⟨.error (.divisionByZero ⟨start, q.prevEnd⟩), q⟩ := by
  have hc := p.chain_eq l start lhs
  rw [h] at hc
  exact hc

end

theorem operator?_eq_none {l : Level} {p : Parser}
    (h : ∀ op ∈ l.operators, p.token.value ≠ .other op.byte) : p.operator? l = none := by
  simpa [operator?] using h

theorem operator?_eq_some {l : Level} {p : Parser} {op : BinOp} (hm : op ∈ l.operators)
    (h : p.token.value = .other op.byte) : p.operator? l = some op := by
  rw [operator?, h]
  clear h
  revert hm
  cases l <;> cases op <;> decide

theorem isEof_of_uint {p : Parser} {n : UInt32} (h : p.token.value = .uint n) :
    p.token.isEof = false := by
  simp [Token.isEof, h]

theorem isEof_of_other {p : Parser} {b : UInt8} (h : p.token.value = .other b) :
    p.token.isEof = false := by
  simp [Token.isEof, h]

/-! ### Calls and rules -/

theorem Gives.outcome {c : Call} {p q : Parser} {v : Int32} (h : Gives c p v q) :
    c.outcome p = ⟨.ok v, q⟩ := by
  induction h with
  | joined hl _ _ ih ihc =>
    simp only [Call.outcome] at ih ihc
    simp only [Call.outcome, phrase_joined hl, ih, Outcome.bind, ihc]
  | negated hs _ ih =>
    simp only [Call.outcome] at ih
    simp only [Call.outcome, phrase_negated hs, ih, Outcome.bind]
  | unsigned hs _ ih => simpa only [Call.outcome, phrase_unsigned hs] using ih
  | literal hu => exact phrase_literal hu
  | paren ho hb _ hc ih =>
    simp only [Call.outcome] at ih
    simp only [Call.outcome, phrase_paren ho hb, ih, hc, if_true]
  | done ho => exact chain_done ho
  | link ho _ hv _ ih ihc =>
    simp only [Call.outcome] at ih ihc
    simp only [Call.outcome, chain_link ho, ih, Outcome.bind, hv, ihc]

theorem Fails.outcome {c : Call} {p q : Parser} {e : EvalError} (h : Fails c p e q) :
    c.outcome p = ⟨.error e, q⟩ := by
  induction h with
  | operand hl _ ih =>
    simp only [Call.outcome] at ih
    simp only [Call.outcome, phrase_joined hl, ih, Outcome.bind]
  | joined hl hg _ ihc =>
    have hg := hg.outcome
    simp only [Call.outcome] at hg ihc
    simp only [Call.outcome, phrase_joined hl, hg, Outcome.bind, ihc]
  | negated hs _ ih =>
    simp only [Call.outcome] at ih
    simp only [Call.outcome, phrase_negated hs, ih, Outcome.bind]
  | unsigned hs _ ih => simpa only [Call.outcome, phrase_unsigned hs] using ih
  | noOperand hu ho => exact phrase_noOperand hu ho
  | tooDeep ho hb => exact phrase_tooDeep ho hb
  | paren ho hb _ ih =>
    simp only [Call.outcome] at ih
    simp only [Call.outcome, phrase_paren ho hb, ih]
  | unclosed ho hb hg hc =>
    have hg := hg.outcome
    simp only [Call.outcome] at hg
    simp only [Call.outcome, phrase_paren ho hb, hg, hc, if_false]
  | linkOperand ho _ ih =>
    simp only [Call.outcome] at ih
    simp only [Call.outcome, chain_link ho, ih, Outcome.bind]
  | zeroDivisor ho hg hv =>
    have hg := hg.outcome
    simp only [Call.outcome] at hg
    simp only [Call.outcome, chain_link ho, hg, Outcome.bind, hv]
  | link ho hg hv _ ihc =>
    have hg := hg.outcome
    simp only [Call.outcome] at hg ihc
    simp only [Call.outcome, chain_link ho, hg, Outcome.bind, hv, ihc]

/-- What the rules derive for a call. -/
inductive Ends (c : Call) (p : Parser) : Prop
  | gives {v : Int32} {q : Parser} (h : Gives c p v q) : Ends c p
  | fails {e : EvalError} {q : Parser} (h : Fails c p e q) : Ends c p

private theorem Ends.primary {p : Parser}
    (h : ∀ budget, p.token.value = .other openParen → Ends (.phrase .sum) (p.inner budget)) :
    Ends (.phrase .primary) p := by
  by_cases hu : ∃ n, p.token.value = .uint n
  · exact .gives (.literal hu.choose_spec)
  by_cases ho : p.token.value = .other openParen
  · cases hb : p.budget with
    | zero => exact .fails (.tooDeep ho hb)
    | succ budget =>
      cases h budget ho with
      | @gives v q hg =>
        by_cases hc : q.token.value = .other closeParen
        · exact .gives (.paren ho hb hg hc)
        · exact .fails (.unclosed ho hb hg hc)
      | fails hf => exact .fails (.paren ho hb hf)
  · exact .fails (.noOperand (not_exists.mp hu) ho)

private theorem Ends.unary {p : Parser} (hp : Ends (.phrase .primary) p)
    (h : p.token.value = .other UnOp.negate.byte → Ends (.phrase .primary) p.advance) :
    Ends (.phrase .unary) p := by
  by_cases hs : p.token.value = .other UnOp.negate.byte
  · cases h hs with
    | gives hg => exact .gives (.negated hs hg)
    | fails hf => exact .fails (.negated hs hf)
  · cases hp with
    | gives hg => exact .gives (.unsigned hs hg)
    | fails hf => exact .fails (.unsigned hs hf)

private theorem Ends.joined {l : Level} {p : Parser} (hl : l.operators ≠ [])
    (ho : Ends (.phrase l.operand) p)
    (hc : ∀ a q, Gives (.phrase l.operand) p a q → Ends (.chain l p.token.span.start a) q) :
    Ends (.phrase l) p := by
  cases ho with
  | gives hg =>
    cases hc _ _ hg with
    | gives hc => exact .gives (.joined hl hg hc)
    | fails hc => exact .fails (.joined hl hg hc)
  | fails hf => exact .fails (.operand hl hf)

private theorem Ends.chain {l : Level} {start : Position} {a : Int32} {p : Parser}
    (ho : ∀ op, p.operator? l = some op → Ends (.phrase l.operand) p.advance)
    (hc : ∀ op b q, p.operator? l = some op → Gives (.phrase l.operand) p.advance b q →
      ∀ c, Ends (.chain l start c) q) : Ends (.chain l start a) p := by
  cases h : p.operator? l with
  | none => exact .gives (.done h)
  | some op =>
    cases ho op h with
    | fails hf => exact .fails (.linkOperand h hf)
    | @gives b q hg =>
      cases hv : op.apply a b with
      | error e => cases e; exact .fails (.zeroDivisor h hg hv)
      | ok c =>
        cases hc op b q h hg c with
        | gives hc => exact .gives (.link h hg hv hc)
        | fails hc => exact .fails (.link h hg hv hc)

theorem Gives.remaining_le {l : Level} {p q : Parser} {v : Int32}
    (h : Gives (.phrase l) p v q) : q.remaining ≤ p.remaining := by
  have hle := phrase_remaining_le l p
  rwa [show p.phrase l = _ from h.outcome] at hle

/-- The rules derive an end for every call. The induction is on the input that is left. -/
theorem ends (c : Call) (p : Parser) : Ends c p := by
  suffices main : ∀ n (p : Parser), p.remaining < n → ∀ c, Ends c p from
    main _ p (Nat.lt_succ_self _) c
  intro n
  induction n with
  | zero => exact fun p h => absurd h (Nat.not_lt_zero _)
  | succ n ih =>
    intro p hp
    -- A chain can start where its first operand ended, so it is shown for all parses this short.
    have chain {q : Parser} (hq : q.remaining ≤ p.remaining) (l : Level) (start : Position)
        (a : Int32) : Ends (.chain l start a) q := by
      have ha {op : BinOp} (h : q.operator? l = some op) : q.advance.remaining < q.remaining :=
        advance_remaining_lt (isEof_of_other (value_of_operator? h).2)
      refine .chain (fun op h => ih _ (by have := ha h; omega) _) fun op b r h hg c => ih _ ?_ _
      have := ha h
      have := hg.remaining_le
      omega
    have primary : Ends (.phrase .primary) p := .primary fun budget ho => by
      have ha : (p.inner budget).remaining < p.remaining :=
        advance_remaining_lt (p := p) (isEof_of_other ho)
      exact ih _ (by omega) _
    have unary : Ends (.phrase .unary) p := .unary primary fun hs => by
      have ha := advance_remaining_lt (isEof_of_other hs)
      exact ih _ (by omega) _
    have product : Ends (.phrase .product) p :=
      .joined (List.cons_ne_nil _ _) unary fun _ _ hg => chain hg.remaining_le _ _ _
    intro c
    match c with
    | .phrase .sum =>
      exact .joined (List.cons_ne_nil _ _) product fun _ _ hg => chain hg.remaining_le _ _ _
    | .phrase .product => exact product
    | .phrase .unary => exact unary
    | .phrase .primary => exact primary
    | .chain l start a => exact chain (Nat.le_refl _) l start a

theorem outcome_eq_ok_iff {c : Call} {p q : Parser} {v : Int32} :
    c.outcome p = ⟨.ok v, q⟩ ↔ Gives c p v q := by
  refine ⟨fun h => ?_, Gives.outcome⟩
  cases ends c p with
  | gives hg =>
    cases h.symm.trans hg.outcome
    exact hg
  | fails hf => cases h.symm.trans hf.outcome

theorem outcome_eq_error_iff {c : Call} {p q : Parser} {e : EvalError} :
    c.outcome p = ⟨.error e, q⟩ ↔ Fails c p e q := by
  refine ⟨fun h => ?_, Fails.outcome⟩
  cases ends c p with
  | gives hg => cases h.symm.trans hg.outcome
  | fails hf =>
    cases h.symm.trans hf.outcome
    exact hf

theorem phrase_eq_ok_iff {l : Level} {p q : Parser} {v : Int32} :
    p.phrase l = ⟨.ok v, q⟩ ↔ Gives (.phrase l) p v q := outcome_eq_ok_iff (c := .phrase l)

theorem phrase_eq_error_iff {l : Level} {p q : Parser} {e : EvalError} :
    p.phrase l = ⟨.error e, q⟩ ↔ Fails (.phrase l) p e q := outcome_eq_error_iff (c := .phrase l)

/-! ### The entry points -/

section
variable {p q : Parser} {v : Int32}

private theorem expect_eof (q : Parser) :
    q.expect (.kind .eof) = if q.token.isEof then ⟨.ok q.token, q.advance⟩
      else ⟨.error (.unexpectedToken [.eof] q.token), q⟩ := by
  have ha : (Matcher.kind .eof).accepts q.token = q.token.isEof := by
    simp only [Matcher.accepts, Matcher.kind, Token.kind, Token.isEof, List.mem_singleton]
    cases q.token.value <;> simp [Token.Value.kind]
  rw [expect, ha]
  rfl

theorem whole_of_eof (h : Gives (.phrase .sum) p v q) (ht : q.token.isEof = true) :
    p.whole = ⟨.ok v, q.advance⟩ := by
  rw [whole, show p.phrase .sum = _ from h.outcome]
  simp only [Outcome.bind, expect_eof, ht, if_true]

theorem whole_of_trailing (h : Gives (.phrase .sum) p v q) (ht : q.token.isEof = false) :
    p.whole = ⟨.error (.unexpectedToken [.eof] q.token), q⟩ := by
  rw [whole, show p.phrase .sum = _ from h.outcome]
  simp only [Outcome.bind, expect_eof, ht, Bool.false_eq_true, if_false]

theorem whole_of_fails {e : EvalError} (h : Fails (.phrase .sum) p e q) :
    p.whole = ⟨.error e, q⟩ := by
  rw [whole, show p.phrase .sum = _ from h.outcome]
  rfl

/-- How a parse of the whole input can go. -/
inductive Whole (p : Parser) : Outcome Int32 → Prop
  | ok {v : Int32} {q : Parser} (h : Gives (.phrase .sum) p v q) (ht : q.token.isEof = true) :
    Whole p ⟨.ok v, q.advance⟩
  | trailing {v : Int32} {q : Parser} (h : Gives (.phrase .sum) p v q)
    (ht : q.token.isEof = false) : Whole p ⟨.error (.unexpectedToken [.eof] q.token), q⟩
  | fails {e : EvalError} {q : Parser} (h : Fails (.phrase .sum) p e q) : Whole p ⟨.error e, q⟩

theorem whole_cases (p : Parser) : Whole p p.whole := by
  cases ends (.phrase .sum) p with
  | @gives v q h =>
    cases ht : q.token.isEof with
    | true => rw [whole_of_eof h ht]; exact .ok h ht
    | false => rw [whole_of_trailing h ht]; exact .trailing h ht
  | fails h => rw [whole_of_fails h]; exact .fails h

/-- How a parse of an expression at the beginning of the input can go. -/
inductive Leading (p : Parser) : Outcome (Int32 × Token) → Prop
  | ok {v : Int32} {q : Parser} (h : Gives (.phrase .sum) p v q) : Leading p ⟨.ok (v, q.token), q⟩
  | fails {e : EvalError} {q : Parser} (h : Fails (.phrase .sum) p e q) : Leading p ⟨.error e, q⟩

theorem leading_of_gives (h : Gives (.phrase .sum) p v q) :
    p.leading = ⟨.ok (v, q.token), q⟩ := by
  rw [leading, show p.phrase .sum = _ from h.outcome]
  rfl

theorem leading_of_fails {e : EvalError} (h : Fails (.phrase .sum) p e q) :
    p.leading = ⟨.error e, q⟩ := by
  rw [leading, show p.phrase .sum = _ from h.outcome]
  rfl

theorem leading_cases (p : Parser) : Leading p p.leading := by
  cases ends (.phrase .sum) p with
  | gives h => rw [leading_of_gives h]; exact .ok h
  | fails h => rw [leading_of_fails h]; exact .fails h

end

end Parser
end Calculator
