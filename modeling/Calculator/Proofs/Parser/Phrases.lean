import Calculator.Proofs.Expr.Denotation
import Calculator.Proofs.Parser.Consumption

/-!
# Phrases and the expressions they read

A call that gives a value has consumed the tokens of an expression with this value, nested no
deeper than its budget (`Parser.Gives.reads`). Conversely, in front of the tokens of an expression
that the budget allows, a call consumes all of them and gives the value of the expression, or
stops at the division that has none (`Parser.reaches`).
-/

namespace Calculator.Parser

theorem Consumes.extend {l : Level} {p q r : Parser} {e : Expr l} {k : Expr.Link l}
    (hl : Consumes p e.tokens q) (ht : q.token = .ofByte k.op.byte k.sign)
    (hr : Consumes q.advance k.operand.tokens r) : Consumes p (e.extend k).tokens r := by
  rw [Expr.tokens_extend, ← ht]
  exact hl.trans (.step (by rw [ht]; rfl) hr)

/-- From one parse to another over an expression, within the budget, to its value. -/
structure Reads {l : Level} (p : Parser) (e : Expr l) (v : Int32) (q : Parser) : Prop where
  consumes : Consumes p e.tokens q
  depth_le : e.depth ≤ p.budget
  evaluate_eq : e.evaluate = .ok v

namespace Reads
variable {l : Level} {p q r : Parser} {v : Int32}

theorem literal {n : UInt32} (h : p.token.value = .uint n) :
    Reads p (.literal n p.token.span) (literalValue n) p.advance where
  consumes := by
    have ht : ({ value := .uint n, span := p.token.span } : Token) = p.token := by rw [← h]
    rw [Expr.tokens, ht]
    exact .advance (isEof_of_uint h)
  depth_le := Nat.zero_le _
  evaluate_eq := rfl

theorem paren {budget : Nat} {body : Expr .sum} (h : p.token.value = .other openParen)
    (hb : p.budget = budget + 1) (hr : Reads (p.inner budget) body v q)
    (hc : q.token.value = .other closeParen) :
    Reads p (.paren p.token.span body q.token.span) v q.advance.leave where
  consumes := by
    rw [Expr.tokens, Token.ofByte_span h, Token.ofByte_span hc]
    exact (hr.consumes.leave (isEof_of_other h) hb).trans
      (.advance (p := q.leave) (isEof_of_other hc))
  depth_le := by
    rw [hb]
    exact Nat.succ_le_succ hr.depth_le
  evaluate_eq := hr.evaluate_eq

theorem negated {e : Expr .primary} (h : p.token.value = .other UnOp.negate.byte)
    (hr : Reads p.advance e v q) : Reads p (.negated p.token.span e) (UnOp.negate.apply v) q where
  consumes := by
    rw [Expr.tokens, Token.ofByte_span h]
    exact .step (isEof_of_other h) hr.consumes
  depth_le := hr.depth_le
  evaluate_eq := by rw [Expr.evaluate, hr.evaluate_eq]; rfl

theorem single {e : Expr l.operand} (hr : Reads p e v q) : Reads p (.single e : Expr l) v q where
  consumes := by
    rw [Expr.tokens_single]
    exact hr.consumes
  depth_le := by
    rw [Expr.depth_single]
    exact hr.depth_le
  evaluate_eq := by
    rw [Expr.evaluate_single]
    exact hr.evaluate_eq

theorem extend {e : Expr l} {k : Expr.Link l} {a b : Int32} (hl : Reads p e a q)
    (ht : q.token = .ofByte k.op.byte k.sign) (hr : Reads q.advance k.operand b r)
    (hv : k.op.apply a b = .ok v) : Reads p (e.extend k) v r where
  consumes := hl.consumes.extend ht hr.consumes
  depth_le := by
    rw [Expr.depth_extend]
    have hb : q.advance.budget = p.budget := hl.consumes.budget
    exact Nat.max_le.mpr ⟨hl.depth_le, hb ▸ hr.depth_le⟩
  evaluate_eq := (Expr.evaluate_extend_eq_ok_iff _ _).mpr ⟨a, b, hl.evaluate_eq, hr.evaluate_eq, hv⟩

end Reads

/-! ### Values come from expressions -/

/-- What a call that gives a value has done: a phrase has read an expression, and a chain has
made the expression before it longer. -/
def Call.Done : Call → Parser → Int32 → Parser → Prop
  | .phrase l, p, v, q => ∃ e : Expr l, Reads p e v q
  | .chain l _ a, p, v, q =>
    ∀ p₀ (e : Expr l), Reads p₀ e a p → ∃ e' : Expr l, Reads p₀ e' v q

theorem Gives.done_call {c : Call} {p q : Parser} {v : Int32} (h : Gives c p v q) :
    c.Done p v q := by
  induction h with
  | joined _ _ _ ih ihc =>
    obtain ⟨e, he⟩ := ih
    exact ihc _ _ he.single
  | negated hs _ ih =>
    obtain ⟨e, he⟩ := ih
    exact ⟨_, he.negated hs⟩
  | unsigned _ _ ih =>
    obtain ⟨e, he⟩ := ih
    exact ⟨_, he.single (l := .unary)⟩
  | literal hu => exact ⟨_, .literal hu⟩
  | paren ho hb _ hc ih =>
    obtain ⟨e, he⟩ := ih
    exact ⟨_, he.paren ho hb hc⟩
  | done => exact fun _ e he => ⟨e, he⟩
  | link ho _ hv _ ih ihc =>
    obtain ⟨right, hr⟩ := ih
    obtain ⟨hm, ht⟩ := value_of_operator? ho
    intro p₀ e he
    exact ihc p₀ _ (he.extend (k := ⟨_, hm, _, right⟩) (Token.ofByte_span ht).symm hr hv)

/-- A phrase that gives a value has read an expression. -/
theorem Gives.reads {l : Level} {p q : Parser} {v : Int32} (h : Gives (.phrase l) p v q) :
    ∃ e : Expr l, Reads p e v q := h.done_call

/-- No chain of the level, or of its operands, goes on with the next token. -/
def Settled (l : Level) (p : Parser) : Prop := p.operator? l = none ∧ p.operator? l.operand = none

def Call.Settles : Call → Parser → Parser → Prop
  | .phrase l, _, q => Settled l q
  | .chain l _ _, p, q => p.operator? l.operand = none → Settled l q

private theorem Gives.settles {c : Call} {p q : Parser} {v : Int32} (h : Gives c p v q) :
    c.Settles p q := by
  induction h with
  | joined _ _ _ ih ihc => exact ihc ih.1
  | negated _ _ ih | unsigned _ _ ih => exact ih
  | literal | paren => exact ⟨rfl, rfl⟩
  | done ho => exact fun h => ⟨ho, h⟩
  | link _ _ _ _ ih ihc => exact fun _ => ihc ih.1

theorem Gives.settled {l : Level} {p q : Parser} {v : Int32} (h : Gives (.phrase l) p v q) :
    Settled l q := h.settles

/-! ### Expressions give values -/

/-- A call reads an expression and goes on with what follows it as a chain, or stops at the
division in it that has no value. -/
structure Reaches {l : Level} (e : Expr l) (p : Parser) : Prop where
  value {v : Int32} (h : e.evaluate = .ok v) :
    ∃ q, Reads p e v q ∧ p.phrase l = q.chain l p.token.span.start v
  fault {span : Span} (h : e.evaluate = .error span) :
    ∃ q, Fails (.phrase l) p (.divisionByZero span) q

/-- No operator that would go on an operand of the level comes first. -/
def Detached (l : Level) (rest : List Token) : Prop :=
  ∀ op ∈ l.operand.operators, ∀ t ∈ rest.head?, t.value ≠ .other op.byte

theorem Consumes.upcoming_eq {p q : Parser} {ts rest : List Token} (h : Consumes p ts q)
    (hu : p.upcoming = ts ++ rest) : q.upcoming = rest :=
  List.append_cancel_left (h.upcoming.symm.trans hu)

theorem Consumes.detached {l : Level} {p q : Parser} {ts rest : List Token}
    (h : Consumes p ts q) (hu : p.upcoming = ts ++ rest) (hd : Detached l rest) :
    q.operator? l.operand = none := by
  refine operator?_eq_none fun op hop => hd op hop q.token ?_
  rw [← h.upcoming_eq hu]
  rfl

theorem start_eq {l : Level} {p : Parser} {e : Expr l} {rest : List Token}
    (h : p.upcoming = e.tokens ++ rest) : p.token.span.start = e.start := by
  obtain ⟨t, ht, hs⟩ := e.head?_tokens
  obtain ⟨ts, hts⟩ := List.head?_eq_some_iff.mp ht
  rw [hts, List.cons_append] at h
  rw [token_eq h, hs]

theorem Consumes.prevEnd_eq {l : Level} {p q : Parser} {e : Expr l} (h : Consumes p e.tokens q) :
    q.prevEnd = e.stop := by
  obtain ⟨t, ht, hs⟩ := e.getLast?_tokens
  rw [h.prevEnd, ht, ← hs]
  rfl

namespace Reaches
variable {l : Level} {p : Parser} {rest : List Token}

theorem single (hl : l.operators ≠ []) {e : Expr l.operand} (h : Reaches e p)
    (hu : p.upcoming = e.tokens ++ rest) (hd : Detached l rest) :
    Reaches (.single e : Expr l) p where
  value hv := by
    rw [Expr.evaluate_single] at hv
    obtain ⟨q, hr, hq⟩ := h.value hv
    refine ⟨q, hr.single, ?_⟩
    rw [phrase_joined hl, hq, chain_done (hr.consumes.detached hu hd)]
    rfl
  fault hs := by
    rw [Expr.evaluate_single] at hs
    obtain ⟨q, hf⟩ := h.fault hs
    exact ⟨q, .operand hl hf⟩

theorem extend {e : Expr l} {k : Expr.Link l} (h : Reaches e p)
    (hk : ∀ {q a}, Reads p e a q → Reaches k.operand q.advance)
    (hu : p.upcoming = (e.extend k).tokens ++ rest) (hd : Detached l rest) :
    Reaches (e.extend k) p := by
  have hu' : p.upcoming = e.tokens ++ (.ofByte k.op.byte k.sign :: (k.operand.tokens ++ rest)) := by
    rw [hu, Expr.tokens_extend, List.append_assoc, List.cons_append]
  -- Behind `e` the parse stands at the operator of the link, with its operand to follow.
  have sign {q : Parser} {a : Int32} (hr : Reads p e a q) : q.token = .ofByte k.op.byte k.sign :=
    token_eq (hr.consumes.upcoming_eq hu')
  have operator {q : Parser} {a : Int32} (hr : Reads p e a q) : q.operator? l = some k.op :=
    operator?_eq_some k.mem (by rw [sign hr]; rfl)
  have operand {q : Parser} {a b : Int32} (hr : Reads p e a q) (hb : k.operand.evaluate = .ok b) :
      ∃ r, Reads q.advance k.operand b r ∧ Gives (.phrase l.operand) q.advance b r := by
    obtain ⟨r, hr', hq⟩ := (hk hr).value hb
    have hn := (hr.consumes.extend (sign hr) hr'.consumes).detached hu hd
    exact ⟨r, hr', phrase_eq_ok_iff.mp (hq.trans (chain_done hn))⟩
  constructor
  · intro v hv
    obtain ⟨a, b, ha, hb, hv⟩ := (Expr.evaluate_extend_eq_ok_iff _ _).mp hv
    obtain ⟨q, hr, hq⟩ := h.value ha
    obtain ⟨r, hr', hg⟩ := operand hr hb
    refine ⟨r, hr.extend (sign hr) hr' hv, ?_⟩
    rw [hq, chain_link (operator hr), show q.advance.phrase l.operand = _ from hg.outcome]
    simp only [Outcome.bind, hv]
  · intro span hs
    rcases Expr.evaluate_extend_eq_error _ _ hs with he | ⟨a, ha, hb⟩ | ⟨a, b, ha, hb, hv, rfl⟩
    · exact h.fault he
    · obtain ⟨q, hr, hq⟩ := h.value ha
      obtain ⟨r, hf⟩ := (hk hr).fault hb
      have hc : Fails (.chain l p.token.span.start a) q _ r := .linkOperand (operator hr) hf
      exact ⟨r, phrase_eq_error_iff.mp (hq.trans hc.outcome)⟩
    · obtain ⟨q, hr, hq⟩ := h.value ha
      obtain ⟨r, hr', hg⟩ := operand hr hb
      have hc : Fails (.chain l p.token.span.start a) q _ r := .zeroDivisor (operator hr) hg hv
      rw [start_eq hu', hr'.consumes.prevEnd_eq] at hc
      rw [start_eq hu'] at hq
      exact ⟨r, phrase_eq_error_iff.mp (hq.trans hc.outcome)⟩

theorem literal {n : UInt32} {span : Span} (ht : p.token = { value := .uint n, span }) :
    Reaches (.literal n span) p := by
  have hn : p.token.value = .uint n := by rw [ht]
  have hr := Reads.literal hn
  rw [ht] at hr
  refine ⟨?_, nofun⟩
  rintro v ⟨⟩
  exact ⟨_, hr, (phrase_literal hn).trans (chain_done rfl).symm⟩

theorem paren {opening closing : Span} {body : Expr .sum} {budget : Nat}
    (ht : p.token = .ofByte openParen opening) (hb : p.budget = budget + 1)
    (h : Reaches body (p.inner budget))
    (hu : (p.inner budget).upcoming = body.tokens ++ (.ofByte closeParen closing :: rest)) :
    Reaches (.paren opening body closing) p := by
  have ho : p.token.value = .other openParen := by rw [ht]; rfl
  constructor
  · intro v he
    obtain ⟨q, hr, hq⟩ := h.value he
    have htq : q.token = .ofByte closeParen closing := token_eq (hr.consumes.upcoming_eq hu)
    have hc : q.token.value = .other closeParen := by rw [htq]; rfl
    have hn : q.operator? .sum = none := operator?_eq_none fun op _ h =>
      op.closeParen_ne_byte (Token.Value.other.inj (hc.symm.trans h))
    have hg : Gives (.phrase .primary) p v q.advance.leave :=
      .paren ho hb (phrase_eq_ok_iff.mp (hq.trans (chain_done hn))) hc
    have hp := hr.paren ho hb hc
    rw [ht, htq] at hp
    exact ⟨_, hp, hg.outcome.trans (chain_done rfl).symm⟩
  · intro span he
    obtain ⟨q, hf⟩ := h.fault he
    exact ⟨_, .paren ho hb hf⟩

theorem unsigned {e : Expr .primary} (hs : p.token.value ≠ .other UnOp.negate.byte)
    (h : Reaches e p) : Reaches (.unsigned e) p := by
  constructor
  · intro v he
    obtain ⟨q, hr, hq⟩ := h.value he
    have hg : Gives (.phrase .unary) p v q :=
      .unsigned hs (phrase_eq_ok_iff.mp (hq.trans (chain_done rfl)))
    exact ⟨q, hr.single (l := .unary), hg.outcome.trans (chain_done rfl).symm⟩
  · intro span he
    obtain ⟨q, hf⟩ := h.fault he
    exact ⟨q, .unsigned hs hf⟩

theorem negated {sign : Span} {e : Expr .primary}
    (ht : p.token = .ofByte UnOp.negate.byte sign) (h : Reaches e p.advance) :
    Reaches (.negated sign e) p := by
  have hs : p.token.value = .other UnOp.negate.byte := by rw [ht]; rfl
  constructor
  · intro v he
    cases ha : e.evaluate with
    | error => rw [Expr.evaluate, ha] at he; cases he
    | ok a =>
      rw [Expr.evaluate, ha] at he
      cases he
      obtain ⟨q, hr, hq⟩ := h.value ha
      have hg : Gives (.phrase .unary) p (UnOp.negate.apply a) q :=
        .negated hs (phrase_eq_ok_iff.mp (hq.trans (chain_done rfl)))
      have hp := hr.negated hs
      rw [ht] at hp
      exact ⟨q, hp, hg.outcome.trans (chain_done rfl).symm⟩
  · intro span he
    cases ha : e.evaluate with
    | ok => rw [Expr.evaluate, ha] at he; cases he
    | error =>
      rw [Expr.evaluate, ha] at he
      cases he
      obtain ⟨q, hf⟩ := h.fault ha
      exact ⟨q, .negated hs hf⟩

end Reaches

/-! ### Every expression is reached -/

private theorem token_ne_negate {e : Expr .primary} {p : Parser} {rest : List Token}
    (h : p.upcoming = e.tokens ++ rest) : p.token.value ≠ .other UnOp.negate.byte := by
  cases e with
  | literal =>
    rw [token_eq h]
    exact nofun
  | paren =>
    rw [token_eq h]
    exact fun h => UnOp.openParen_ne_negate_byte (Token.Value.other.inj h)

/-- The operands of operands are not chains. -/
private theorem detached_operand (l : Level) (rest : List Token) : Detached l.operand rest := by
  intro op hop
  cases l <;> cases hop

theorem detached_cons {l : Level} {t : Token} {rest : List Token}
    (h : ∀ op ∈ l.operand.operators, t.value ≠ .other op.byte) : Detached l (t :: rest) := by
  rintro op hop _ ⟨⟩
  exact h op hop

private theorem detached_ofByte {l : Level} {b : UInt8} {span : Span} {rest : List Token}
    (h : ∀ op ∈ l.operand.operators, b ≠ op.byte) : Detached l (.ofByte b span :: rest) :=
  detached_cons fun op hop heq => h op hop (Token.Value.other.inj heq)

private theorem reaches_extend {l : Level} {e : Expr l} {k : Expr.Link l} {p : Parser}
    {rest : List Token}
    (ihl : ∀ {p rest}, p.upcoming = e.tokens ++ rest → e.depth ≤ p.budget → Detached l rest →
      Reaches e p)
    (ihr : ∀ {p rest}, p.upcoming = k.operand.tokens ++ rest → k.operand.depth ≤ p.budget →
      Detached l.operand rest → Reaches k.operand p)
    (hu : p.upcoming = (e.extend k).tokens ++ rest) (hb : (e.extend k).depth ≤ p.budget)
    (hd : Detached l rest) : Reaches (e.extend k) p := by
  rw [Expr.depth_extend] at hb
  obtain ⟨hl, hr⟩ := Nat.max_le.mp hb
  have hu' : p.upcoming = e.tokens ++ (.ofByte k.op.byte k.sign :: (k.operand.tokens ++ rest)) := by
    rw [hu, Expr.tokens_extend, List.append_assoc, List.cons_append]
  refine (ihl hu' hl (detached_ofByte (BinOp.byte_ne_byte _ k.mem))).extend ?_ hu hd
  intro q a hq
  have hq' := advance_upcoming (hq.consumes.upcoming_eq hu') rfl
  refine ihr hq' ?_ (detached_operand l rest)
  rwa [show q.advance.budget = p.budget from hq.consumes.budget]

/-- In front of an expression within the budget, and something behind it that does not go on its
operands, a call reads the expression. -/
theorem reaches {l : Level} (e : Expr l) {p : Parser} {rest : List Token}
    (hu : p.upcoming = e.tokens ++ rest) (hb : e.depth ≤ p.budget) (hd : Detached l rest) :
    Reaches e p := by
  induction e generalizing p rest with
  | literal => exact .literal (token_eq hu)
  | paren opening body closing ih =>
    have ht : p.token = .ofByte openParen opening := token_eq hu
    obtain ⟨budget, hn⟩ := Nat.exists_eq_add_of_lt (Nat.lt_of_lt_of_le (Nat.succ_pos _) hb)
    rw [Nat.zero_add] at hn
    have hi : (p.inner budget).upcoming = body.tokens ++ (.ofByte closeParen closing :: rest) := by
      have h : p.advance.upcoming = body.tokens ++ [.ofByte closeParen closing] ++ rest :=
        advance_upcoming hu rfl
      rwa [List.append_assoc] at h
    have hdepth : body.depth ≤ budget := by
      rw [Expr.depth, hn] at hb
      exact Nat.le_of_succ_le_succ hb
    exact .paren ht hn (ih hi hdepth (detached_ofByte fun op _ => op.closeParen_ne_byte)) hi
  | unsigned e ih => exact .unsigned (token_ne_negate hu) (ih hu hb (detached_operand .unary rest))
  | negated sign e ih =>
    have ht : p.token = .ofByte UnOp.negate.byte sign := token_eq hu
    exact .negated ht (ih (advance_upcoming hu rfl) hb (detached_operand .unary rest))
  | factor e ih =>
    have hr := ih hu hb (detached_operand .product rest)
    exact hr.single (l := .product) (List.cons_ne_nil _ _) hu hd
  | term e ih =>
    have hr := ih hu hb (detached_operand .sum rest)
    exact hr.single (l := .sum) (List.cons_ne_nil _ _) hu hd
  | product left op h sign right ihl ihr =>
    exact reaches_extend (k := ⟨op, h, sign, right⟩) ihl ihr hu hb hd
  | sum left op h sign right ihl ihr =>
    exact reaches_extend (k := ⟨op, h, sign, right⟩) ihl ihr hu hb hd

/-- In front of a sum, a call reads exactly the sum, unless an operator comes behind it. -/
theorem Reaches.exists_reads {e : Expr .sum} {p : Parser} {t : Token} {rest : List Token}
    {v : Int32} (h : Reaches e p) (hu : p.upcoming = e.tokens ++ t :: rest)
    (ht : ∀ op : BinOp, t.value ≠ .other op.byte) (hv : e.evaluate = .ok v) :
    ∃ q, Reads p e v q ∧ Gives (.phrase .sum) p v q := by
  obtain ⟨q, hq, hc⟩ := h.value hv
  have htq : q.token = t := token_eq (hq.consumes.upcoming_eq hu)
  have hn : q.operator? .sum = none := operator?_eq_none fun op _ => htq ▸ ht op
  exact ⟨q, hq, phrase_eq_ok_iff.mp (hc.trans (chain_done hn))⟩

/-- In front of a sum, a call stops at the first token behind it, unless this is an operator. -/
theorem Reaches.gives {e : Expr .sum} {p : Parser} {t : Token} {rest : List Token} {v : Int32}
    (h : Reaches e p) (hu : p.upcoming = e.tokens ++ t :: rest)
    (ht : ∀ op : BinOp, t.value ≠ .other op.byte) (hv : e.evaluate = .ok v) :
    ∃ q, Gives (.phrase .sum) p v q ∧ q.token = t := by
  obtain ⟨q, hq, hg⟩ := h.exists_reads hu ht hv
  exact ⟨q, hg, token_eq (hq.consumes.upcoming_eq hu)⟩

end Calculator.Parser
