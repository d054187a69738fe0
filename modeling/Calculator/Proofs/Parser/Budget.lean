import Calculator.Proofs.Parser.Consumption

/-!
# More budget

A parse with a larger budget goes the same way (`Parser.Gives.raise`, `Parser.Fails.raise`), up to
where the smaller budget is used up: there it gets past the parenthesis at which the other one
stops (`Parser.Fails.taken_lt_raise`).
-/

namespace Calculator

namespace Parser

/-- The same parse with a larger budget. -/
def raise (p : Parser) (n : Nat) : Parser := { p with budget := p.budget + n }

theorem raise_advance (p : Parser) (n : Nat) : (p.raise n).advance = p.advance.raise n := rfl

theorem raise_leave (p : Parser) (n : Nat) : (p.raise n).leave = p.leave.raise n := by
  simp only [leave, raise, Nat.add_right_comm]

theorem raise_budget {p : Parser} {budget : Nat} (h : p.budget = budget + 1) (n : Nat) :
    (p.raise n).budget = budget + n + 1 := by
  rw [raise, h, Nat.add_right_comm]

/-! ### The same way -/

theorem Gives.raise {c : Call} {p q : Parser} {v : Int32} (h : Gives c p v q) (n : Nat) :
    Gives c (p.raise n) v (q.raise n) := by
  induction h with
  | joined hl _ _ ih ihc => exact .joined hl ih ihc
  | negated hs _ ih => exact .negated hs ih
  | unsigned hs _ ih => exact .unsigned hs ih
  | literal hu => exact .literal hu
  | @paren p q budget v ho hb _ hc ih =>
    rw [← raise_leave]
    exact .paren (p := p.raise n) ho (raise_budget hb n) ih hc
  | done ho => exact .done ho
  | link ho _ hv _ ih ihc => exact .link ho ih hv ihc

theorem Fails.raise {c : Call} {p q : Parser} {e : EvalError} (h : Fails c p e q)
    (he : ∀ span, e ≠ .recursionLimit span) (n : Nat) : Fails c (p.raise n) e (q.raise n) := by
  induction h with
  | operand hl _ ih => exact .operand hl (ih he)
  | joined hl hg _ ih => exact .joined hl (hg.raise n) (ih he)
  | negated hs _ ih => exact .negated hs (ih he)
  | unsigned hs _ ih => exact .unsigned hs (ih he)
  | noOperand hu ho => exact .noOperand (p := Parser.raise _ n) hu ho
  | tooDeep => exact absurd rfl (he _)
  | paren ho hb _ ih =>
    rw [← raise_leave]
    exact .paren ho (raise_budget hb n) (ih he)
  | @unclosed p q budget v ho hb hg hc =>
    rw [← raise_leave]
    exact .unclosed (q := q.raise n) ho (raise_budget hb n) (hg.raise n) hc
  | linkOperand ho _ ih => exact .linkOperand ho (ih he)
  | @zeroDivisor l start a b p q op ho hg hv =>
    exact .zeroDivisor (q := q.raise n) ho (hg.raise n) hv
  | link ho hg hv _ ih => exact .link ho (hg.raise n) hv (ih he)

/-! ### Further on -/

theorem Gives.taken_le {c : Call} {p q : Parser} {v : Int32} (h : Gives c p v q) :
    p.taken ≤ q.taken := by
  induction h with
  | joined _ _ _ ih ihc => exact Nat.le_trans ih ihc
  | negated _ _ ih => exact Nat.le_of_succ_le ih
  | unsigned _ _ ih => exact ih
  | literal => exact Nat.le_succ _
  | paren _ _ _ _ ih => exact Nat.le_succ_of_le (Nat.le_of_succ_le ih)
  | done => exact Nat.le_refl _
  | link _ _ _ _ ih ihc => exact Nat.le_trans (Nat.le_of_succ_le ih) ihc

theorem Fails.taken_le {c : Call} {p q : Parser} {e : EvalError} (h : Fails c p e q) :
    p.taken ≤ q.taken := by
  induction h with
  | operand _ _ ih | unsigned _ _ ih => exact ih
  | joined _ hg _ ih => exact Nat.le_trans hg.taken_le ih
  | negated _ _ ih | paren _ _ _ ih | linkOperand _ _ ih => exact Nat.le_of_succ_le ih
  | noOperand | tooDeep => exact Nat.le_refl _
  | unclosed _ _ hg | zeroDivisor _ hg => exact Nat.le_of_succ_le hg.taken_le
  | link _ hg _ _ ih => exact Nat.le_trans (Nat.le_of_succ_le hg.taken_le) ih

theorem taken_le_outcome (c : Call) (p : Parser) : p.taken ≤ (c.outcome p).rest.taken := by
  cases ends c p with
  | gives h => rw [h.outcome]; exact h.taken_le
  | fails h => rw [h.outcome]; exact h.taken_le

theorem taken_le_bind {α β : Type} {next : α → Parser → Outcome β}
    (h : ∀ a q, q.taken ≤ (next a q).rest.taken) (o : Outcome α) :
    o.rest.taken ≤ (o.bind next).rest.taken := by
  rcases o with ⟨_ | a, q⟩
  · exact Nat.le_refl _
  · exact h a q

/-- Entering parentheses gets at least as far as what is inside them. -/
private theorem taken_le_paren {p : Parser} {budget : Nat} (ho : p.token.value = .other openParen)
    (hb : p.budget = budget + 1) :
    ((p.inner budget).phrase .sum).rest.taken ≤ (p.phrase .primary).rest.taken := by
  rw [phrase_paren ho hb]
  rcases (p.inner budget).phrase .sum with ⟨_ | v, q⟩
  · exact Nat.le_refl _
  · dsimp only
    split
    · exact Nat.le_succ _
    · exact Nat.le_refl _

/-- Behind its operand, a chain that has a link gets further. -/
private theorem taken_le_chain {l : Level} {p : Parser} {op : BinOp} (ho : p.operator? l = some op)
    (start : Position) (a : Int32) :
    (p.advance.phrase l.operand).rest.taken ≤ (p.chain l start a).rest.taken := by
  rw [chain_link ho]
  refine taken_le_bind (fun b q => ?_) _
  cases op.apply a b with
  | ok v => exact taken_le_outcome (.chain l start v) q
  | error e => cases e; exact Nat.le_refl _

/-- Where the budget was used up, a larger one gets further. -/
theorem Fails.taken_lt_raise {c : Call} {p q : Parser} {span : Span}
    (h : Fails c p (.recursionLimit span) q) (n : Nat) :
    q.taken < (c.outcome (p.raise (n + 1))).rest.taken := by
  generalize he : EvalError.recursionLimit span = e at h
  induction h with
  | operand hl _ ih =>
    refine Nat.lt_of_lt_of_le (ih he) ?_
    simp only [Call.outcome, phrase_joined hl]
    exact taken_le_bind (fun a q => taken_le_outcome (.chain _ _ a) q) _
  | @joined l p q r a e hl hg _ ih =>
    have hg := (hg.raise (n + 1)).outcome
    simp only [Call.outcome] at hg ih ⊢
    rw [phrase_joined hl, hg]
    exact ih he
  | @negated p q e hs _ ih =>
    refine Nat.lt_of_lt_of_le (ih he) ?_
    simp only [Call.outcome]
    rw [phrase_negated (p := p.raise (n + 1)) hs]
    exact taken_le_bind (fun v q => Nat.le_refl _) _
  | @unsigned p q e hs _ ih =>
    have ih := ih he
    simp only [Call.outcome] at ih ⊢
    rwa [phrase_unsigned (p := p.raise (n + 1)) hs]
  | noOperand | unclosed | zeroDivisor => cases he
  | @tooDeep p ho hb =>
    have hb' : (p.raise (n + 1)).budget = n + 1 := by rw [Parser.raise, hb, Nat.zero_add]
    have ht := taken_le_outcome (.phrase .sum) ((p.raise (n + 1)).inner n)
    exact Nat.lt_of_lt_of_le (Nat.lt_of_lt_of_le (Nat.lt_succ_self _) ht) (taken_le_paren ho hb')
  | @paren p q budget e ho hb _ ih =>
    exact Nat.lt_of_lt_of_le (ih he) (taken_le_paren (p := p.raise (n + 1)) ho (raise_budget hb _))
  | @linkOperand l start a p q op e ho _ ih =>
    exact Nat.lt_of_lt_of_le (ih he) (taken_le_chain (p := p.raise (n + 1)) ho start a)
  | @link l start a b c p q r op e ho hg hv _ ih =>
    have hg := (hg.raise (n + 1)).outcome
    have ih := ih he
    simp only [Call.outcome] at hg ih ⊢
    rw [chain_link (p := p.raise (n + 1)) ho, raise_advance, hg]
    simpa only [Outcome.bind, hv] using ih

end Parser
end Calculator
