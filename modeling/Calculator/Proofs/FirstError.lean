import Mathlib.Control.Monad.Basic
import Calculator.Evaluate
import Calculator.Proofs.Lexer.Partition
import Calculator.Proofs.Parser.Failures
import Calculator.Proofs.Relocation

/-!
# Nothing behind the first error matters

An evaluation that fails blames a token (`EvalError.Blames`), and on all inputs that agree up to
this token it fails with the same error (`Lexer.evaluate_error_stable`).
-/

namespace Calculator

namespace EvalError

/-- An error is about the token at an index: the unexpected one, the parenthesis that opens too
deep, or one that ends where a division by zero does. -/
def Blames (ts : List Token) (i : Nat) : EvalError → Prop
  | .unexpectedToken _ actual => ts[i]? = some actual
  | .recursionLimit span => ts[i]? = some (.ofByte openParen span)
  | .divisionByZero span => ts[i]?.map (·.span.stop) = some span.stop

instance (ts : List Token) (i : Nat) : (x : EvalError) → Decidable (x.Blames ts i)
  | .unexpectedToken _ actual => inferInstanceAs (Decidable (ts[i]? = some actual))
  | .recursionLimit span => inferInstanceAs (Decidable (ts[i]? = some (.ofByte openParen span)))
  | .divisionByZero span =>
    inferInstanceAs (Decidable (ts[i]?.map (·.span.stop) = some span.stop))

/-- No token before a blamed one is blamed, too, except that a division by zero can blame both its
divisor and the end of the input right behind this. -/
theorem Blames.le {bytes : Bytes} {ts : List Token} {x : EvalError} {i j : Nat}
    (hp : Partition bytes ts) (hi : x.Blames ts i) (hj : x.Blames ts j)
    (hlt : j + 1 < ts.length + x.lookahead) : j ≤ i := by
  refine Nat.le_of_not_lt fun hij => ?_
  cases x with
  | unexpectedToken | recursionLimit =>
    obtain ⟨h, h'⟩ := hp.apart hi hj hij
    exact absurd h (Nat.not_lt_of_le h')
  | divisionByZero =>
    obtain ⟨s, hs, hi⟩ := Option.map_eq_some_iff.mp hi
    obtain ⟨t, ht, hj⟩ := Option.map_eq_some_iff.mp hj
    have hst := (hp.apart hs ht hij).2
    have hne := (hp.written (List.mem_of_getElem? ht) (hp.isEof_eq_false ht hlt)).1
    rw [hi, ← hj] at hst
    exact absurd hne (Nat.not_lt_of_le hst)

/-- Errors that tell the same about the same tokens of one list are the same. -/
theorem Twin.eq {ts : List Token} {x y : EvalError} (h : x.Twin ts ts y) : x = y := by
  have he := h.mapPlaces_eq (f := id) (g := id) rfl
  rwa [mapPlaces_id] at he

end EvalError

namespace Parser
variable {ts us : List Token} {p q r : Parser} {x : EvalError}

/-- A division by zero extends up to the end of the divisor. -/
theorem Fails.stop_eq {c : Call} {s : Span} (h : Fails c p (.divisionByZero s) q) :
    s.stop = q.prevEnd := by
  generalize hx : EvalError.divisionByZero s = x at h
  induction h with
  | operand _ _ ih | joined _ _ _ ih | negated _ _ ih | unsigned _ _ ih | paren _ _ _ ih
  | linkOperand _ _ ih | link _ _ _ _ ih => exact ih hx
  | zeroDivisor =>
    cases hx
    rfl
  | noOperand | tooDeep | unclosed => cases hx

theorem At.taken_lt (h : At ts p) : p.taken < ts.length :=
  (List.getElem?_eq_some_iff.mp h.getElem?_taken).1

/-- Where a sum fails, the error blames the next token, or the last one that was consumed. -/
theorem Fails.blames (h : Fails (.phrase .sum) p x q) (ha : At ts p) :
    ∃ i, q.taken + x.lookahead = i + 1 ∧ i + 1 < ts.length + x.lookahead ∧ x.Blames ts i := by
  obtain ⟨ws, s, hc, -, hx⟩ := h.stops_start
  have hq := ha.consumes hc
  have ht := hq.getElem?_taken
  have hlt := hq.taken_lt
  cases x with
  | unexpectedToken expected actual =>
    obtain ⟨rfl, -⟩ := hx
    exact ⟨_, rfl, Nat.succ_lt_succ hlt, ht⟩
  | recursionLimit span =>
    obtain ⟨rfl, ho, -⟩ := hx
    exact ⟨_, rfl, Nat.succ_lt_succ hlt, by rw [EvalError.Blames, ht, Token.ofByte_span ho]⟩
  | divisionByZero span =>
    have hpos : p.taken < q.taken := h.taken_lt
    obtain ⟨i, hi⟩ := Nat.exists_eq_add_one_of_ne_zero (Nat.ne_zero_of_lt hpos)
    rcases ws.eq_nil_or_concat with rfl | ⟨ws, t, rfl⟩
    · exact absurd hc.taken (Nat.ne_of_gt hpos)
    · rw [List.concat_eq_append] at hc
      have hstop := ha.map_stop_of_consumes hc
      rw [← h.stop_eq, hi] at hstop
      exact ⟨i, hi, hi ▸ hlt, hstop⟩

/-- A parse of the same tokens fails with the same error. -/
theorem Fails.agrees {n : Nat} (h : Fails (.phrase .sum) p x r) (ha : Aligned n ts us p q)
    (ht : us.take n = ts.take n) (hn : r.taken + x.lookahead ≤ n) :
    ∃ r', Fails (.phrase .sum) q x r' := by
  obtain ⟨y, r', hf, hy⟩ := h.aligned (.phrase _) ha hn
  rw [ht] at hy
  exact ⟨r', hy.eq ▸ hf⟩

/-- A parse of the same tokens up to the next one behind a sum reads the sum and has the same token
next. -/
theorem Gives.agrees {v : Int32} (h : Gives (.phrase .sum) p v r)
    (ha : Aligned (r.taken + 1) ts us p q) (ht : us.take (r.taken + 1) = ts.take (r.taken + 1)) :
    ∃ r', Gives (.phrase .sum) q v r' ∧ r'.token = r.token := by
  have hlt := Nat.lt_succ_self r.taken
  obtain ⟨r', hg, hr⟩ := h.aligned (.phrase _) ha (Nat.le_refl _)
  refine ⟨r', hg, Option.some.inj ?_⟩
  rw [← hr.getElem?_left hlt, ← hr.getElem?_right hlt, ht]

/-- Where the whole input does not parse, the error blames a token up to which all inputs do not
parse either, nor does what they begin with unless the error is about what comes behind. -/
theorem whole_agrees (ha : At ts p) (hx : p.whole.result = .error x) :
    ∃ i, i + 1 < ts.length + x.lookahead ∧ x.Blames ts i ∧
      ∀ us q, Aligned (i + 1) ts us p q → us.take (i + 1) = ts.take (i + 1) →
        q.whole.result = .error x ∧
          ((∀ actual, x ≠ .unexpectedToken [.eof] actual) → q.leading.result = .error x) := by
  have hw := p.whole_cases
  generalize p.whole = o at hx hw
  cases hw with
  | ok => cases hx
  | @trailing v r hg ht =>
    cases hx
    obtain ⟨e, he⟩ := hg.reads
    have hr := ha.consumes he.consumes
    refine ⟨r.taken, Nat.succ_lt_succ hr.taken_lt, hr.getElem?_taken, fun us q hq hu => ?_⟩
    obtain ⟨r', hg', hr'⟩ := hg.agrees hq hu
    rw [whole_of_trailing hg' (hr' ▸ ht), hr']
    exact ⟨rfl, fun hne => absurd rfl (hne _)⟩
  | @fails y r hf =>
    cases hx
    obtain ⟨i, hi, hlt, hb⟩ := hf.blames ha
    refine ⟨i, hlt, hb, fun us q hq hu => ?_⟩
    obtain ⟨r', hf'⟩ := hf.agrees hq hu (Nat.le_of_eq hi)
    rw [whole_of_fails hf', leading_of_fails hf']
    exact ⟨rfl, fun _ => rfl⟩

end Parser

namespace Lexer

/-- An evaluation that fails blames a token, and with the tokens up to this one, whatever comes
behind them, every evaluation with the same limit fails with the same error. Where the error is not
that something comes behind the expression, this holds of what an input begins with, too. -/
theorem evaluate_error_stable (bytes : Bytes) (source : Option SourceId) (limit : Nat)
    (x : EvalError) (h : (ofBytes bytes source).evaluate limit = .error x) :
    (∃ i, x.Blames (ofBytes bytes source).tokens i) ∧
      ∀ i, x.Blames (ofBytes bytes source).tokens i → ∀ bytes' source',
        (ofBytes bytes' source').tokens.take (i + 1) = (ofBytes bytes source).tokens.take (i + 1) →
        (ofBytes bytes' source').evaluate limit = .error x ∧
          ((∀ actual, x ≠ .unexpectedToken [.eof] actual) →
            (ofBytes bytes' source').evaluateLeading limit = .error x) := by
  have hp := tokens_partition bytes source
  simp only [tokens_ofBytes] at hp ⊢
  have ha := Parser.At.ofLexer (ofBytes bytes source) limit
  obtain ⟨i, hlt, hi, hs⟩ := Parser.whole_agrees ha h
  refine ⟨⟨i, hi⟩, fun j hj bytes' source' ht => ?_⟩
  have ht' : (ofBytes bytes' source').ahead.take (i + 1) =
      (ofBytes bytes source).ahead.take (i + 1) := by
    have hle := Nat.succ_le_succ (hj.le hp hi hlt)
    have hmin := congrArg (List.take (i + 1)) ht
    rwa [List.take_take, List.take_take, Nat.min_eq_left hle] at hmin
  refine hs _ (.ofLexer (ofBytes bytes' source') limit) ?_ ht'
  exact ⟨by rw [ht'], ha, .ofLexer _ _, rfl, rfl⟩

/-- In `1/0)2`, the division by zero comes before the parenthesis that `1/0` does not have. -/
theorem evaluate_error_before_parenthesis :
    (ofBytes [0x31, 0x2f, 0x30, 0x29, 0x32]).evaluate 0 =
        .error (.divisionByZero ⟨⟨none, 0, 1, 1⟩, ⟨none, 3, 1, 4⟩⟩) ∧
      (ofBytes [0x31, 0x2f, 0x30, 0x29, 0x32]).evaluateLeading 0 =
        .error (.divisionByZero ⟨⟨none, 0, 1, 1⟩, ⟨none, 3, 1, 4⟩⟩) := by
  have h := (evaluate_error_stable [0x31, 0x2f, 0x30] none 0
    (.divisionByZero ⟨⟨none, 0, 1, 1⟩, ⟨none, 3, 1, 4⟩⟩) (by decide +kernel)).2
  obtain ⟨hw, hl⟩ := h 2 (by decide +kernel) [0x31, 0x2f, 0x30, 0x29, 0x32] none (by decide +kernel)
  exact ⟨hw, hl nofun⟩

end Lexer
end Calculator
