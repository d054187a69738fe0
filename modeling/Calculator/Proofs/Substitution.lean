import Mathlib.Control.Monad.Basic
import Calculator.Proofs.Evaluation
import Calculator.Proofs.Lexer.Concatenation
import Calculator.Proofs.Numerals
import Calculator.Proofs.Parser.Replacement
import Calculator.Proofs.RecursionLimit

/-!
# A value in place of what it is computed from

In any input, well-formed or not, a part in parentheses that has a value can be replaced by this
value, unless the recursion limit is reached (`Lexer.evaluate_inParens`).
-/

namespace Calculator

def Bytes.inParens (bytes : Bytes) : Bytes := openParen :: (bytes ++ [closeParen])

namespace Parser.Parallel

theorem whole {p q : Parser} (h : Parallel p q) :
    p.whole.result.mapError EvalError.unplaced = q.whole.result.mapError EvalError.unplaced := by
  have hp := p.whole_cases
  generalize p.whole = o at hp
  cases hp with
  | ok hg ht =>
    obtain ⟨s, hg', hs⟩ := hg.replaced (.phrase _) h
    rw [whole_of_eof hg' (hs.isEof_eq.trans ht)]
  | trailing hg ht =>
    obtain ⟨s, hg', hs⟩ := hg.replaced (.phrase _) h
    rw [whole_of_trailing hg' (hs.isEof_eq.trans ht)]
    simp only [Except.mapError, EvalError.unplaced, hs.value_eq]
  | fails hf =>
    obtain ⟨e', s, hf', he⟩ := hf.replaced (.phrase _) h
    rw [whole_of_fails hf']
    exact congrArg Except.error he.symm

end Parser.Parallel

namespace Lexer

/-- Inputs that are the same apart from sums in parentheses that denote the same come to the same,
unless one of them reaches the limit. -/
theorem evaluate_replaced {l m : Lexer} {limit : Nat}
    (h : Replaced (l.ahead.map (·.value)) (m.ahead.map (·.value)))
    (hl : WithinLimit (l.evaluate limit)) (hm : WithinLimit (m.evaluate limit)) :
    (l.evaluate limit).mapError EvalError.unplaced =
      (m.evaluate limit).mapError EvalError.unplaced := by
  -- With a limit that no part of the inputs can reach, neither does worse than with the given one.
  have stable {l : Lexer} (hl : WithinLimit (l.evaluate limit)) {n : Nat} (hn : limit ≤ n) :
      l.evaluate n = l.evaluate limit :=
    (Parser.entryPoint_whole.law l (Nat.le_refl _) limit).stable hl hn
  let n := limit + (l.ahead.length + m.ahead.length)
  have hn : limit ≤ n := Nat.le_add_right _ _
  have hp : Parser.Parallel (.ofLexer l n) (.ofLexer m n) := by
    refine ⟨by rwa [Parser.upcoming_ofLexer, Parser.upcoming_ofLexer], ?_, ?_⟩
    · rw [Parser.upcoming_ofLexer]
      exact Nat.le_add_left_of_le (Nat.le_add_right _ _)
    · rw [Parser.upcoming_ofLexer]
      exact Nat.le_add_left_of_le (Nat.le_add_left _ _)
  rw [← stable hl hn, ← stable hm hn]
  exact hp.whole

theorem written_openParen : (Token.Value.other openParen).Written [openParen] :=
  .other (by decide) (by decide) (by decide) (by decide)

theorem written_closeParen : (Token.Value.other closeParen).Written [closeParen] :=
  .other (by decide) (by decide) (by decide) (by decide)

/-- The tokens of an expression in parentheses stand between those before it and those behind it. -/
theorem values_ahead_inParens {pre e post : Bytes} {source : Option SourceId} {x : Expr .sum}
    (hpre : 0 ∉ pre) (he : 0 ∉ e)
    (hx : (ofBytes e source).ahead.map (·.value) = x.values ++ [.eof]) :
    (ofBytes (pre ++ e.inParens ++ post) source).ahead.map (·.value) =
      ((ofBytes pre source).ahead.map (·.value)).dropLast ++
        .other openParen :: (x.values ++ .other closeParen ::
          (ofBytes post source).ahead.map (·.value)) := by
  have hbytes : pre ++ e.inParens ++ post = pre ++ openParen :: (e ++ closeParen :: post) := by
    simp [Bytes.inParens]
  rw [hbytes, values_ahead_join written_openParen hpre, values_ahead_join written_closeParen he,
    hx, List.dropLast_concat]

/-- A part of an input that stands in parentheses can be replaced by its value: the input has the
same value as before, or an error that tells the same, unless the limit is reached before or after
the replacement. -/
theorem evaluate_inParens (pre e post : Bytes) (source : Option SourceId) (limit : Nat)
    (v : Int32) (hz : 0 ∉ e) (he : (ofBytes e source).evaluate limit = .ok v)
    (hl : WithinLimit ((ofBytes (pre ++ e.inParens ++ post) source).evaluate limit))
    (hm : WithinLimit
      ((ofBytes (pre ++ (Decimal.ofInt v.toInt).inParens ++ post) source).evaluate limit)) :
    ((ofBytes (pre ++ e.inParens ++ post) source).evaluate limit).mapError EvalError.unplaced =
      ((ofBytes (pre ++ (Decimal.ofInt v.toInt).inParens ++ post) source).evaluate limit).mapError
        EvalError.unplaced := by
  refine evaluate_replaced ?_ hl hm
  by_cases hpre : 0 ∈ pre
  · rw [List.append_assoc, List.append_assoc, values_ahead_append_of_mem hpre,
      values_ahead_append_of_mem hpre]
    exact .refl _
  · obtain ⟨x, t, hx, ht, -, hv⟩ := exists_expr_of_evaluate he
    have hx : (ofBytes e source).ahead.map (·.value) = x.values ++ [.eof] := by
      rw [hx, List.map_append, List.map_singleton, Token.value_of_isEof ht, Expr.values]
    rw [values_ahead_inParens hpre hz hx,
      values_ahead_inParens hpre (Decimal.zero_notMem_ofInt _) (values_ahead_numeral v source)]
    exact .append (.paren (x.evaluate_eq_ok_iff.mp hv) (Expr.denote_numeral v) (.refl _)) _

/-- In `-(1-4))`, which has a parenthesis too many, the difference can be replaced by `-3`. -/
theorem evaluate_inParens_difference :
    ((ofBytes ([0x2d] ++ Bytes.inParens [0x31, 0x2d, 0x34] ++ [0x29])).evaluate 1).mapError
        EvalError.unplaced =
      ((ofBytes ([0x2d] ++ Bytes.inParens [0x2d, 0x33] ++ [0x29])).evaluate 1).mapError
        EvalError.unplaced := by
  have ht : Decimal.ofInt (Int32.toInt (-3)) = [0x2d, 0x33] := by decide +kernel
  have hl : (ofBytes ([0x2d] ++ Bytes.inParens [0x31, 0x2d, 0x34] ++ [0x29])).evaluate 1 =
      .error (.unexpectedToken [.eof] ⟨.other 0x29, ⟨⟨none, 6, 1, 7⟩, ⟨none, 7, 1, 8⟩⟩⟩) := by
    decide +kernel
  have hm : (ofBytes ([0x2d] ++ Bytes.inParens [0x2d, 0x33] ++ [0x29])).evaluate 1 =
      .error (.unexpectedToken [.eof] ⟨.other 0x29, ⟨⟨none, 5, 1, 6⟩, ⟨none, 6, 1, 7⟩⟩⟩) := by
    decide +kernel
  have h := evaluate_inParens [0x2d] [0x31, 0x2d, 0x34] [0x29] none 1 (-3) (by decide +kernel)
    (by decide +kernel)
  rw [ht, hl, hm] at h
  rw [hl, hm]
  exact h nofun nofun

end Lexer
end Calculator
