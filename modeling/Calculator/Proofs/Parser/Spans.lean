import Calculator.Proofs.Parser.Twins

/-!
# The spans of errors

Every error is at tokens that were read (`Parser.Fails.spans`): at the unexpected one, at the
parenthesis that opens too deep, or from the first token of a division to the last one.
-/

namespace Calculator

/-- The span of an error is that of a token, or that of a division, from one token to a later
one. -/
inductive EvalError.Spans (ts : List Token) : EvalError → Prop
  | unexpectedToken {expected : List Token.Kind} {actual : Token} (h : actual ∈ ts) :
    Spans ts (.unexpectedToken expected actual)
  | recursionLimit {t : Token} (h : t ∈ ts) : Spans ts (.recursionLimit t.span)
  | divisionByZero {i j : Nat} {first last : Token} (hi : ts[i]? = some first)
    (hj : ts[j]? = some last) (hij : i < j) :
    Spans ts (.divisionByZero ⟨first.span.start, last.span.stop⟩)

namespace Parser
variable {ts : List Token} {p q : Parser} {e : EvalError} {v : Int32}

theorem At.token_mem (h : At ts p) : p.token ∈ ts := List.mem_of_getElem? h.getElem?_taken

theorem At.advance (h : At ts p) (ht : p.token.isEof = false) : At ts p.advance :=
  h.consumes (.advance ht)

theorem At.inner (h : At ts p) (ht : p.token.isEof = false) (budget : Nat) :
    At ts (p.inner budget) :=
  At.advance ⟨h.upcoming_eq⟩ ht

theorem At.advance_operator {l : Level} {op : BinOp} (h : At ts p) (ho : p.operator? l = some op) :
    At ts p.advance :=
  h.advance (isEof_of_other (value_of_operator? ho).2)

theorem Gives.at {l : Level} (h : Gives (.phrase l) p v q) (ha : At ts p) : At ts q := by
  obtain ⟨e, he⟩ := h.reads
  exact ha.consumes he.consumes

/-- A phrase that gives a value has consumed a token. -/
theorem Gives.taken_lt_of_phrase {l : Level} (h : Gives (.phrase l) p v q) : p.taken < q.taken := by
  obtain ⟨e, he⟩ := h.reads
  obtain ⟨t, ht, -⟩ := e.head?_tokens
  obtain ⟨us, hus⟩ := List.head?_eq_some_iff.mp ht
  rw [he.consumes.taken, hus]
  exact Nat.lt_add_of_pos_right (Nat.succ_pos _)

/-- A chain starts at a token that was consumed before. -/
def Call.StartsAt (ts : List Token) : Call → Parser → Prop
  | .phrase _, _ => True
  | .chain _ start _, p => ∃ i < p.taken, ts[i]?.map (·.span.start) = some start

theorem Gives.startsAt {l l' : Level} {a : Int32} (h : Gives (.phrase l) p v q) (ha : At ts p) :
    Call.StartsAt ts (.chain l' p.token.span.start a) q :=
  ⟨p.taken, h.taken_lt_of_phrase, by rw [ha.getElem?_taken]; rfl⟩

/-- A chain that goes on behind a link has the same start. -/
theorem Call.StartsAt.link {l l' : Level} {start : Position} {a c : Int32}
    (h : StartsAt ts (.chain l start a) p) (hg : Gives (.phrase l') p.advance v q) :
    StartsAt ts (.chain l start c) q := by
  obtain ⟨i, hi, hs⟩ := h
  exact ⟨i, Nat.lt_of_lt_of_le hi (Nat.le_of_succ_le hg.taken_le), hs⟩

/-- A division extends from where its chain starts to the end of the divisor, which comes later. -/
theorem Call.StartsAt.divisionByZero {l l' : Level} {start : Position} {a : Int32}
    (h : StartsAt ts (.chain l start a) p) (hg : Gives (.phrase l') p.advance v q)
    (ha : At ts p.advance) : EvalError.Spans ts (.divisionByZero ⟨start, q.prevEnd⟩) := by
  obtain ⟨i, hi, hs⟩ := h
  obtain ⟨first, hfirst, rfl⟩ := Option.map_eq_some_iff.mp hs
  obtain ⟨last, hlast, hstop⟩ := Option.map_eq_some_iff.mp (ha.map_stop hg)
  rw [← hstop]
  have hle : p.taken + 1 < q.taken := hg.taken_lt_of_phrase
  exact .divisionByZero hfirst hlast (by omega)

/-- A call that fails does so at tokens that it was given. The induction follows the parse, and
where the call goes on with a chain, this starts at a token. -/
theorem Fails.spans {c : Call} (h : Fails c p e q) (ha : At ts p) (hc : c.StartsAt ts p) :
    e.Spans ts := by
  induction h with
  | operand _ _ ih | unsigned _ _ ih => exact ih ha trivial
  | joined _ hg _ ih => exact ih (hg.at ha) (hg.startsAt ha)
  | negated hs _ ih => exact ih (ha.advance (isEof_of_other hs)) trivial
  | noOperand => exact .unexpectedToken ha.token_mem
  | tooDeep => exact .recursionLimit ha.token_mem
  | paren ho _ _ ih => exact ih (ha.inner (isEof_of_other ho) _) trivial
  | unclosed ho _ hg => exact .unexpectedToken (hg.at (ha.inner (isEof_of_other ho) _)).token_mem
  | linkOperand ho _ ih => exact ih (ha.advance_operator ho) trivial
  | zeroDivisor ho hg => exact hc.divisionByZero hg (ha.advance_operator ho)
  | link ho hg _ _ ih => exact ih (hg.at (ha.advance_operator ho)) (hc.link hg)

theorem whole_spans (ha : At ts p) (h : p.whole.result = .error e) : e.Spans ts := by
  have hw := p.whole_cases
  generalize p.whole = o at h hw
  cases hw with
  | ok => cases h
  | trailing hg =>
    cases h
    exact .unexpectedToken (hg.at ha).token_mem
  | fails hf =>
    cases h
    exact hf.spans ha trivial

theorem leading_spans (ha : At ts p) (h : p.leading.result = .error e) : e.Spans ts := by
  have hl := p.leading_cases
  generalize p.leading = o at h hl
  cases hl with
  | ok => cases h
  | fails hf =>
    cases h
    exact hf.spans ha trivial

end Parser
end Calculator
