import Calculator.Proofs.Expr.Sentences
import Calculator.Proofs.Parser.Phrases

/-!
# Where calls fail

A call that fails has got as far through a sentence as its budget of parentheses goes, and its
error is explained by how far that is (`Parser.Fails.stops`): the next token cannot follow, though
all that the error expects could, or it is a parenthesis that opens one level too many.
-/

namespace Calculator.Parser

/-- How an error is explained by the progress that was made and by the next token. -/
def Explains (bound : Nat) (s : Progress) (t : Token) : EvalError → Prop
  | .unexpectedToken expected actual =>
    actual = t ∧ (∀ bound s', ¬ Progress.Step bound s t.value s') ∧
      ∀ v : Token.Value, v.kind ∈ expected → ∃ bound s', Progress.Step bound s v s'
  | .divisionByZero _ => True
  | .recursionLimit span =>
    span = t.span ∧ t.value = .other openParen ∧ s.AtOperand ∧ s.depth = bound

/-- From a parse, at some progress, tokens are consumed up to an error that is explained there. -/
def Stops (bound : Nat) (s : Progress) (p : Parser) (e : EvalError) (q : Parser) : Prop :=
  ∃ ts s', Consumes p ts q ∧ Progress.Run bound s (ts.map (·.value)) s' ∧
    Explains bound s' q.token e

theorem Stops.here {bound : Nat} {s : Progress} {p : Parser} {e : EvalError}
    (h : Explains bound s p.token e) : Stops bound s p e p := ⟨[], s, .refl p, .nil, h⟩

theorem Stops.after {bound : Nat} {s s' : Progress} {p q r : Parser} {ts : List Token}
    {e : EvalError} (hc : Consumes p ts q) (hr : Progress.Run bound s (ts.map (·.value)) s')
    (h : Stops bound s' q e r) : Stops bound s p e r := by
  obtain ⟨us, t, hc', hr', he⟩ := h
  refine ⟨ts ++ us, t, hc.trans hc', ?_, he⟩
  rw [List.map_append]
  exact hr.append hr'

theorem Stops.step {bound : Nat} {s s' : Progress} {p r : Parser} {e : EvalError}
    (ht : p.token.isEof = false) (hs : Progress.Step bound s p.token.value s')
    (h : Stops bound s' p.advance e r) : Stops bound s p e r :=
  h.after (.advance ht) (.cons hs .nil)

theorem Stops.leave {bound budget : Nat} {s s' : Progress} {p r : Parser} {e : EvalError}
    (ht : p.token.isEof = false) (hb : p.budget = budget + 1)
    (hs : Progress.Step bound s p.token.value s') (h : Stops bound s' (p.inner budget) e r) :
    Stops bound s p e r.leave := by
  obtain ⟨us, t, hc, hr, he⟩ := h
  exact ⟨_, t, hc.leave ht hb, .cons hs hr, he⟩

theorem Reads.run {l : Level} {p q : Parser} {e : Expr l} {v : Int32} (h : Reads p e v q)
    {due : Due} {d : Nat} (hs : due = .operand ∨ l = .primary ∧ due = .primary) :
    Progress.Run (d + p.budget) ⟨due, d⟩ (e.tokens.map (·.value)) ⟨.operator, d⟩ :=
  Progress.run_values e hs (Nat.add_le_add_left h.depth_le d)

theorem Reads.run_start {p q : Parser} {e : Expr .sum} {v : Int32} (h : Reads p e v q) :
    Progress.Run p.budget {} (e.tokens.map (·.value)) ⟨.operator, 0⟩ := by
  have hr := h.run (d := 0) (.inl rfl)
  rwa [Nat.zero_add] at hr

/-- The progress at which a phrase of a level is read. Where the sign of a primary has not come, it
does not come. -/
def Ready (l : Level) (s : Progress) (p : Parser) : Prop :=
  s.due = .operand ∧ (l = .primary → p.token.value ≠ .other UnOp.negate.byte) ∨
    l = .primary ∧ s.due = .primary

def Call.Stops : Call → Parser → EvalError → Parser → Prop
  | .phrase l, p, e, q => ∀ s, Ready l s p → Parser.Stops (s.depth + p.budget) s p e q
  | .chain _ _ _, p, e, q => ∀ d, Parser.Stops (d + p.budget) ⟨.operator, d⟩ p e q

private theorem Ready.atOperand {s : Progress} {p : Parser} (h : Ready .primary s p) :
    s.AtOperand := h.imp And.left And.right

private theorem Ready.operand {l : Level} {s : Progress} {p : Parser} (h : Ready l s p)
    (hl : l.operators ≠ []) : s = ⟨.operand, s.depth⟩ ∧ Ready l.operand s p := by
  rcases h with ⟨hs, -⟩ | ⟨rfl, -⟩
  · refine ⟨?_, .inl ⟨hs, ?_⟩⟩
    · rw [← hs]
    · cases l with
      | sum | product => exact nofun
      | unary | primary => exact absurd rfl hl
  · exact absurd rfl hl

private theorem ready_operand {l : Level} {p : Parser} (hl : l.operators ≠ []) (d : Nat) :
    Ready l.operand ⟨.operand, d⟩ p := by
  refine .inl ⟨rfl, ?_⟩
  cases l with
  | sum | product => exact nofun
  | unary | primary => exact absurd rfl hl

theorem Settled.ne_byte {q : Parser} (h : Settled .sum q) (op : BinOp) :
    q.token.value ≠ .other op.byte := by
  intro hv
  cases op with
  | add | subtract =>
    cases h.1.symm.trans (operator?_eq_some (l := .sum) (by simp [Level.operators]) hv)
  | multiply | divide =>
    cases h.2.symm.trans (operator?_eq_some (l := .product) (by simp [Level.operators]) hv)

/-- Nothing but the end of the input goes on a sentence behind a complete sum. -/
theorem Settled.not_step {q : Parser} (h : Settled .sum q) (ht : q.token.isEof = false)
    (bound : Nat) (s : Progress) : ¬ Progress.Step bound ⟨.operator, 0⟩ q.token.value s := by
  intro hs
  generalize hv : q.token.value = v at hs
  cases hs with
  | operator hb => exact h.ne_byte _ (hb ▸ hv)
  | eof => simp [Token.isEof, hv] at ht
  | literal h | opening h => simp [Progress.AtOperand] at h

/-- What primaries are expected to begin with can come where one is due. -/
private theorem step_of_primaryStart {s : Progress} (h : s.AtOperand) {v : Token.Value}
    (hv : v.kind ∈ primaryStart.expected) : ∃ bound s', Progress.Step bound s v s' := by
  cases v with
  | uint n => exact ⟨0, _, .literal h n⟩
  | other b =>
    have hb : b = openParen := by simpa [primaryStart_expected, Token.Value.kind] using hv
    exact ⟨s.depth + 1, _, .opening h hb (Nat.lt_succ_self _)⟩
  | ident | eof => simp [primaryStart_expected, Token.Value.kind] at hv

private theorem explains_noOperand {bound : Nat} {s : Progress} {p : Parser}
    (hr : Ready .primary s p) (hu : ∀ n, p.token.value ≠ .uint n)
    (ho : p.token.value ≠ .other openParen) :
    Explains bound s p.token (.unexpectedToken primaryStart.expected p.token) := by
  refine ⟨rfl, ?_, fun v => step_of_primaryStart hr.atOperand⟩
  intro bound s' h
  obtain ⟨due, d⟩ := s
  generalize hv : p.token.value = v at h
  cases h with
  | literal => exact hu _ hv
  | opening _ hb => exact ho (hb ▸ hv)
  | sign hb =>
    rcases hr with ⟨-, hne⟩ | ⟨-, hd⟩
    · exact hne rfl (hb ▸ hv)
    · cases hd
  | operator | closing | eof => exact absurd hr.atOperand (by simp [Progress.AtOperand])

private theorem explains_unclosed {bound d : Nat} {q : Parser} (hs : Settled .sum q)
    (hc : q.token.value ≠ .other closeParen) :
    Explains bound ⟨.operator, d + 1⟩ q.token
      (.unexpectedToken [.other closeParen] q.token) := by
  refine ⟨rfl, ?_, ?_⟩
  · intro bound s' h
    generalize hv : q.token.value = v at h
    cases h with
    | operator hb => exact hs.ne_byte _ (hb ▸ hv)
    | closing hb => exact hc (hb ▸ hv)
    | literal h | opening h => simp [Progress.AtOperand] at h
  · intro v hv
    cases v with
    | other b =>
      have hb : b = closeParen := by simpa [Token.Value.kind] using hv
      exact ⟨0, _, .closing hb⟩
    | uint | ident | eof => simp [Token.Value.kind] at hv

private theorem step_opening {s : Progress} {p : Parser} {budget : Nat} (hr : Ready .primary s p)
    (ho : p.token.value = .other openParen) (hb : p.budget = budget + 1) :
    Progress.Step (s.depth + p.budget) s p.token.value ⟨.operand, s.depth + 1⟩ := by
  rw [ho]
  exact .opening hr.atOperand rfl (by omega)

/-- What the budget loses behind a parenthesis is made up for by the depth. -/
private theorem bound_inner {p : Parser} {budget : Nat} (hb : p.budget = budget + 1) (d : Nat) :
    d + 1 + (p.inner budget).budget = d + p.budget := by
  rw [hb]
  exact Nat.add_right_comm _ _ _

private theorem step_operator {l : Level} {p : Parser} {op : BinOp}
    (ho : p.operator? l = some op) (bound d : Nat) :
    Progress.Step bound ⟨.operator, d⟩ p.token.value ⟨.operand, d⟩ := by
  rw [(value_of_operator? ho).2]
  exact .operator rfl

/-- A chain that has read a link goes on at the same progress. -/
private theorem Stops.link {l : Level} {p q r : Parser} {op : BinOp} {e : Expr l.operand}
    {b : Int32} {d : Nat} {x : EvalError} (ho : p.operator? l = some op)
    (hr : Reads p.advance e b q) (h : Stops (d + p.budget) ⟨.operator, d⟩ q x r) :
    Stops (d + p.budget) ⟨.operator, d⟩ p x r :=
  .step (isEof_of_other (value_of_operator? ho).2) (step_operator ho _ d)
    (h.after hr.consumes (hr.run (.inl rfl)))

/-- A call that fails stops at an error that is explained. -/
theorem Fails.stops {c : Call} {p q : Parser} {e : EvalError} (h : Fails c p e q) :
    c.Stops p e q := by
  induction h with
  | operand hl _ ih => exact fun s hs => ih s (hs.operand hl).2
  | joined hl hg _ ih =>
    intro s hs
    obtain ⟨e, he⟩ := hg.reads
    have hr := he.run (d := s.depth) (.inl rfl)
    rw [← (hs.operand hl).1] at hr
    have hq := ih s.depth
    rw [he.consumes.budget] at hq
    exact hq.after he.consumes hr
  | negated hs _ ih =>
    intro s hr
    rcases hr with ⟨hd, -⟩ | ⟨h, -⟩
    · obtain ⟨due, d⟩ := s
      cases hd
      exact (ih ⟨.primary, d⟩ (.inr ⟨rfl, rfl⟩)).step (isEof_of_other hs) (hs ▸ .sign rfl)
    · cases h
  | unsigned hs _ ih =>
    intro s hr
    rcases hr with ⟨hd, -⟩ | ⟨h, -⟩
    · exact ih s (.inl ⟨hd, fun _ => hs⟩)
    · cases h
  | noOperand hu ho => exact fun s hr => .here (explains_noOperand hr hu ho)
  | tooDeep ho hb => exact fun s hr => .here ⟨rfl, ho, hr.atOperand, by rw [hb, Nat.add_zero]⟩
  | paren ho hb _ ih =>
    intro s hr
    have hi := ih ⟨.operand, s.depth + 1⟩ (.inl ⟨rfl, nofun⟩)
    rw [bound_inner hb] at hi
    exact hi.leave (isEof_of_other ho) hb (step_opening hr ho hb)
  | @unclosed p q budget v ho hb hg hc =>
    intro s hr
    obtain ⟨e, he⟩ := hg.reads
    have hrun := he.run (d := s.depth + 1) (.inl rfl)
    rw [bound_inner hb] at hrun
    have hq : Parser.Stops (s.depth + p.budget) ⟨.operator, s.depth + 1⟩ q _ q :=
      .here (explains_unclosed hg.settled hc)
    exact (hq.after he.consumes hrun).leave (isEof_of_other ho) hb (step_opening hr ho hb)
  | linkOperand ho _ ih =>
    intro d
    have hl := List.ne_nil_of_mem (value_of_operator? ho).1
    exact (ih ⟨.operand, d⟩ (ready_operand hl d)).step
      (isEof_of_other (value_of_operator? ho).2) (step_operator ho _ d)
  | zeroDivisor ho hg =>
    intro d
    obtain ⟨e, he⟩ := hg.reads
    exact .link ho he (.here trivial)
  | @link l start a b c p q r op x ho hg _ _ ih =>
    intro d
    obtain ⟨e, he⟩ := hg.reads
    have hq := ih d
    rw [show q.budget = p.budget from he.consumes.budget] at hq
    exact .link ho he hq

/-- Where a sum at the beginning of a sentence fails, the error is explained. -/
theorem Fails.stops_start {p q : Parser} {e : EvalError} (h : Fails (.phrase .sum) p e q) :
    Stops p.budget {} p e q := by
  have hs := h.stops {} (.inl ⟨rfl, nofun⟩)
  rwa [Nat.zero_add] at hs

end Calculator.Parser
