import Mathlib.Control.Monad.Basic
import Calculator.Evaluate
import Calculator.Proofs.Parser.Phrases

/-!
# What evaluation computes

An input has a value exactly if its tokens are those of an expression that the limit allows and
that denotes this value (`Lexer.evaluate_eq_ok_iff_denote`). On the tokens of an expression that
the limit allows, evaluation is what the expression laid over these tokens evaluates to, value or
place of the division by zero (`Lexer.evaluate_eq_evaluate_placed`).
-/

namespace Calculator

namespace Lexer

/-- On the tokens of an expression that the limit allows, evaluation comes to what the expression
comes to. -/
theorem evaluate_of_ahead {l : Lexer} {limit : Nat} {e : Expr .sum} {t : Token}
    (h : l.ahead = e.tokens ++ [t]) (ht : t.isEof = true) (hd : e.depth ≤ limit) :
    l.evaluate limit = e.evaluate.mapError .divisionByZero := by
  have hu : (Parser.ofLexer l limit).upcoming = e.tokens ++ [t] := by
    rw [Parser.upcoming_ofLexer, h]
  have hne (op : BinOp) : t.value ≠ .other op.byte := by
    rw [Token.value_of_isEof ht]
    exact nofun
  have hr := Parser.reaches e hu hd (Parser.detached_cons fun op _ => hne op)
  rw [evaluate]
  cases he : e.evaluate with
  | ok v =>
    obtain ⟨q, hg, htq⟩ := hr.gives hu hne he
    rw [Parser.whole_of_eof hg (htq ▸ ht)]
    rfl
  | error span =>
    obtain ⟨q, hf⟩ := hr.fault he
    rw [Parser.whole_of_fails hf]
    rfl

theorem exists_expr_of_evaluate {l : Lexer} {limit : Nat} {v : Int32}
    (h : l.evaluate limit = .ok v) :
    ∃ (e : Expr .sum) (t : Token), l.ahead = e.tokens ++ [t] ∧ t.isEof = true ∧
      e.depth ≤ limit ∧ e.evaluate = .ok v := by
  rw [evaluate] at h
  have hw := (Parser.ofLexer l limit).whole_cases
  generalize (Parser.ofLexer l limit).whole = o at h hw
  cases hw with
  | @ok v q hg ht =>
    cases h
    obtain ⟨e, he⟩ := hg.reads
    refine ⟨e, q.token, ?_, ht, he.depth_le, he.evaluate_eq⟩
    rw [← Parser.upcoming_of_eof ht, ← he.consumes.upcoming, Parser.upcoming_ofLexer]
  | trailing | fails => cases h

/-- The tokens of an input that begins with an expression and ends behind it. -/
theorem ahead_of_values {l : Lexer} {e : Expr .sum}
    (h : l.ahead.map (·.value) = e.values ++ [.eof]) :
    ∃ t, t.isEof = true ∧ l.ahead = (e.placed (l.ahead.map (·.span))).tokens ++ [t] := by
  obtain ⟨ts, us, hts, hv, h⟩ := List.map_eq_append_iff.mp h
  obtain ⟨t, rfl, ht⟩ := List.map_eq_singleton_iff.mp h
  refine ⟨t, by simp [Token.isEof, ht], ?_⟩
  rw [hts, e.tokens_placed hv [t]]

/-- An input has a value exactly if its tokens up to the end are those of an expression that nests
parentheses no deeper than the limit and denotes the value. -/
theorem evaluate_eq_ok_iff_denote (bytes : Bytes) (source : Option SourceId) (limit : Nat)
    (v : Int32) :
    (ofBytes bytes source).evaluate limit = .ok v ↔
      ∃ e : Expr .sum, (ofBytes bytes source).tokens.map (·.value) = e.values ++ [.eof] ∧
        e.depth ≤ limit ∧ e.denote = some v := by
  rw [tokens_ofBytes]
  constructor
  · intro h
    obtain ⟨e, t, hl, ht, hd, he⟩ := exists_expr_of_evaluate h
    refine ⟨e, ?_, hd, e.evaluate_eq_ok_iff.mp he⟩
    rw [hl, List.map_append, List.map_singleton, Token.value_of_isEof ht, Expr.values]
  · rintro ⟨e, h, hd, he⟩
    obtain ⟨t, ht, hl⟩ := ahead_of_values h
    have hp : (ofBytes bytes source).evaluate limit = _ :=
      evaluate_of_ahead hl ht (by rwa [e.depth_placed])
    rw [← e.denote_placed ((ofBytes bytes source).ahead.map (·.span)),
      ← Expr.evaluate_eq_ok_iff] at he
    rw [hp, he]
    rfl

/-- Where the tokens of an input are those of an expression that the limit allows, evaluation
comes to what the expression comes to over the places of these tokens. -/
theorem evaluate_eq_evaluate_placed (e : Expr .sum) (bytes : Bytes) (source : Option SourceId)
    (limit : Nat) (h : (ofBytes bytes source).tokens.map (·.value) = e.values ++ [.eof])
    (hd : e.depth ≤ limit) :
    (e.placed ((ofBytes bytes source).tokens.map (·.span))).tokens =
        (ofBytes bytes source).tokens.dropLast ∧
      (ofBytes bytes source).evaluate limit =
        (e.placed ((ofBytes bytes source).tokens.map (·.span))).evaluate.mapError
          .divisionByZero := by
  rw [tokens_ofBytes] at h ⊢
  obtain ⟨t, ht, hl⟩ := ahead_of_values h
  refine ⟨?_, evaluate_of_ahead hl ht (by rwa [e.depth_placed])⟩
  exact ((congrArg List.dropLast hl).trans List.dropLast_concat).symm

/-- The division by the difference in `8 /(2-2)` spans all of it. -/
theorem evaluate_zero_difference :
    (ofBytes [0x38, 0x20, 0x2f, 0x28, 0x32, 0x2d, 0x32, 0x29]).evaluate 1 =
      .error (.divisionByZero ⟨⟨none, 0, 1, 1⟩, ⟨none, 8, 1, 9⟩⟩) := by
  let difference : Expr .sum :=
    .sum (.term (.factor (.unsigned (.literal 2 {})))) .subtract (by decide) {}
      (.factor (.unsigned (.literal 2 {})))
  let e : Expr .sum :=
    .term (.product (.factor (.unsigned (.literal 8 {}))) .divide (by decide) {}
      (.unsigned (.paren {} difference {})))
  refine (evaluate_eq_evaluate_placed e _ none 1 ?_ (by decide)).2.trans ?_
  · decide +kernel
  · decide +kernel

end Lexer
end Calculator
