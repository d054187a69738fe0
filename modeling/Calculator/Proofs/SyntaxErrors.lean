import Mathlib.Control.Monad.Basic
import Calculator.Evaluate
import Calculator.Proofs.Parser.Failures

/-!
# Where syntax errors come up

A token is unexpected exactly where the input stops being the beginning of a sentence, and all
that is expected in its place would go on with one (`Lexer.unexpectedToken_earliest`).
-/

namespace Calculator

namespace Parser

private theorem explains_trailing {bound : Nat} {q : Parser} (hs : Settled .sum q)
    (ht : q.token.isEof = false) :
    Explains bound ⟨.operator, 0⟩ q.token (.unexpectedToken [.eof] q.token) := by
  refine ⟨rfl, hs.not_step ht, ?_⟩
  intro v hv
  cases v with
  | eof => exact ⟨0, _, .eof⟩
  | uint | ident | other => simp [Token.Value.kind] at hv

/-- Where a parse of the whole input fails, the error is explained. -/
theorem whole_stops {p : Parser} {e : EvalError} (h : p.whole.result = .error e) :
    Stops p.budget {} p e p.whole.rest := by
  have hw := p.whole_cases
  generalize p.whole = o at h hw
  cases hw with
  | ok => cases h
  | trailing hg ht =>
    cases h
    obtain ⟨x, hx⟩ := hg.reads
    exact .after hx.consumes hx.run_start (.here (explains_trailing hg.settled ht))
  | fails hf =>
    cases h
    exact hf.stops_start

end Parser

/-- Tokens up to an unexpected one begin no sentence, though those before it do, also with any
token behind them that is expected. -/
theorem Parser.Stops.unexpectedToken {bound : Nat} {p q : Parser} {expected : List Token.Kind}
    {actual : Token} (h : Stops bound {} p (.unexpectedToken expected actual) q) :
    ∃ i, p.upcoming[i]? = some actual ∧ Viable ((p.upcoming.take i).map (·.value)) ∧
      ¬ Viable ((p.upcoming.take (i + 1)).map (·.value)) ∧
      (∀ v : Token.Value, v.kind ∈ expected →
        Viable ((p.upcoming.take i).map (·.value) ++ [v])) ∧
      actual.kind ∉ expected := by
  obtain ⟨ts, s, hc, hr, rfl, hno, hexp⟩ := h
  have hi := hc.take_upcoming
  refine ⟨ts.length, hc.getElem?_upcoming, ?_, ?_, ?_, ?_⟩
  · rw [hi]
    exact viable_iff.mpr ⟨_, _, hr⟩
  · rw [List.take_add_one, hi, hc.getElem?_upcoming, List.map_append, viable_iff]
    rintro ⟨b, s', h⟩
    exact hno b s' (h.of_concat hr)
  · intro v hv
    obtain ⟨b, s', hs⟩ := hexp v hv
    rw [hi, viable_iff]
    exact ⟨max bound b, s', (hr.mono (Nat.le_max_left _ _)).concat (hs.mono (Nat.le_max_right _ _))⟩
  · intro hmem
    obtain ⟨b, s', hs⟩ := hexp q.token.value hmem
    exact hno b s' hs

namespace Lexer

/-- Where evaluation meets an unexpected token, the tokens before it begin a sentence, those up to
it do not, and each kind of token that was expected would go on with a sentence. -/
theorem unexpectedToken_earliest (bytes : Bytes) (source : Option SourceId) (limit : Nat)
    (expected : List Token.Kind) (actual : Token)
    (h : (ofBytes bytes source).evaluate limit = .error (.unexpectedToken expected actual)) :
    ∃ i, (ofBytes bytes source).tokens[i]? = some actual ∧
      Viable (((ofBytes bytes source).tokens.take i).map (·.value)) ∧
      ¬ Viable (((ofBytes bytes source).tokens.take (i + 1)).map (·.value)) ∧
      (∀ v : Token.Value, v.kind ∈ expected →
        Viable (((ofBytes bytes source).tokens.take i).map (·.value) ++ [v])) ∧
      actual.kind ∉ expected := by
  rw [tokens_ofBytes, ← Parser.upcoming_ofLexer _ limit]
  exact (Parser.whole_stops h).unexpectedToken

/-- In `(1 2)`, the second number cannot go on the sentence that `(1` begins. -/
theorem unexpectedToken_second_number :
    ∃ i, (ofBytes [0x28, 0x31, 0x20, 0x32, 0x29]).tokens[i]? =
        some ⟨.uint 2, ⟨⟨none, 3, 1, 4⟩, ⟨none, 4, 1, 5⟩⟩⟩ ∧
      Viable (((ofBytes [0x28, 0x31, 0x20, 0x32, 0x29]).tokens.take i).map (·.value)) ∧
      ¬ Viable (((ofBytes [0x28, 0x31, 0x20, 0x32, 0x29]).tokens.take (i + 1)).map (·.value)) := by
  obtain ⟨i, hi, hv, hn, -⟩ := unexpectedToken_earliest [0x28, 0x31, 0x20, 0x32, 0x29] none 1
    [.other closeParen] ⟨.uint 2, ⟨⟨none, 3, 1, 4⟩, ⟨none, 4, 1, 5⟩⟩⟩ (by decide +kernel)
  exact ⟨i, hi, hv, hn⟩

end Lexer
end Calculator
