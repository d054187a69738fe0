import Mathlib.Data.Int.ModEq
import Calculator.Proofs.Evaluation
import Calculator.Proofs.Expr.Integers

/-!
# Evaluation and exact arithmetic

Without divisions, an input has the value that its exact value leaves modulo 2^32, however large
the numbers in it are (`Lexer.evaluate_modEq_exact`). With divisions too, evaluation comes to
exactly the same as exact arithmetic as long as this stays in the range of 32 bits
(`Lexer.evaluate_eq_exact`).
-/

namespace Calculator

/-- The 32 bits of an integer are the only ones that are congruent to it. -/
theorem eq_ofInt_iff_modEq {v : Int32} {x : Int} :
    v = .ofInt x ↔ v.toInt ≡ x [ZMOD UInt32.size] := by
  have hx : (Int32.ofInt x).toInt ≡ x [ZMOD UInt32.size] := by
    rw [Int32.toInt_ofInt]
    exact Int.bmod_emod
  constructor
  · rintro rfl
    exact hx
  · intro h
    have hb : v.toInt.bmod UInt32.size = (Int32.ofInt x).toInt.bmod UInt32.size := by
      rw [← Int.emod_bmod, h.trans hx.symm, Int.emod_bmod]
    apply Int32.toInt.inj
    rwa [← Int32.toInt_bmod_size v, ← Int32.toInt_bmod_size (.ofInt x)]

namespace Lexer

private theorem evaluate_of_tokens {bytes : Bytes} {source : Option SourceId} {limit : Nat}
    {e : Expr .sum} (h : (ofBytes bytes source).tokens.dropLast = e.tokens)
    (hd : e.depth ≤ limit) :
    (ofBytes bytes source).evaluate limit = e.evaluate.mapError .divisionByZero ∧
      ∀ t ∈ e.tokens, t.Spelled bytes := by
  rw [tokens_ofBytes] at h
  have hl := (ofBytes bytes source).lexes_ahead
  obtain ⟨ts, p, hts, -, -⟩ := hl.ended
  rw [hts, List.dropLast_concat] at h
  subst h
  exact ⟨evaluate_of_ahead hts rfl hd, fun t ht => hl.spelled (hts ▸ List.mem_append_left _ ht)⟩

/-- The value of an input without divisions is the one number of 32 bits that is congruent to its
exact value modulo 2^32. -/
theorem evaluate_modEq_exact (bytes : Bytes) (source : Option SourceId) (limit : Nat)
    (e : Expr .sum) (h : (ofBytes bytes source).tokens.dropLast = e.tokens)
    (hl : e.depth ≤ limit) (hd : .other BinOp.divide.byte ∉ e.values) :
    ∃ x v, e.exact bytes = .ok x ∧ (ofBytes bytes source).evaluate limit = .ok v ∧
      v.toInt ≡ x [ZMOD UInt32.size] ∧ ∀ w : Int32, w.toInt ≡ x [ZMOD UInt32.size] → w = v := by
  obtain ⟨he, hs⟩ := evaluate_of_tokens h hl
  obtain ⟨⟨x, hx⟩, hv⟩ := e.evaluate_of_divisionFree hs hd
  refine ⟨x, .ofInt x, hx, ?_, eq_ofInt_iff_modEq.mp rfl, fun w => eq_ofInt_iff_modEq.mpr⟩
  rw [he, hv, hx]
  rfl

/-- In `99999999999*-3`, the literal is not cut off before the product is reduced. -/
theorem evaluate_long_literal :
    ∃ v, (ofBytes [0x39, 0x39, 0x39, 0x39, 0x39, 0x39, 0x39, 0x39, 0x39, 0x39, 0x39, 0x2a, 0x2d,
      0x33]).evaluate 0 = .ok v ∧ v.toInt ≡ -299999999997 [ZMOD UInt32.size] := by
  let long : Expr .primary := .literal 1215752191 ⟨⟨none, 0, 1, 1⟩, ⟨none, 11, 1, 12⟩⟩
  let three : Expr .primary := .literal 3 ⟨⟨none, 13, 1, 14⟩, ⟨none, 14, 1, 15⟩⟩
  let e : Expr .sum :=
    .term (.product (.factor (.unsigned long)) .multiply (by decide)
      ⟨⟨none, 11, 1, 12⟩, ⟨none, 12, 1, 13⟩⟩ (.negated ⟨⟨none, 12, 1, 13⟩, ⟨none, 13, 1, 14⟩⟩ three))
  obtain ⟨x, v, hx, hv, hm, -⟩ := evaluate_modEq_exact
    [0x39, 0x39, 0x39, 0x39, 0x39, 0x39, 0x39, 0x39, 0x39, 0x39, 0x39, 0x2a, 0x2d, 0x33] none 0 e
    (by decide +kernel) (by decide) (by decide)
  have hx' : e.exact [0x39, 0x39, 0x39, 0x39, 0x39, 0x39, 0x39, 0x39, 0x39, 0x39, 0x39, 0x2a, 0x2d,
      0x33] = .ok (-299999999997) := rfl
  cases hx.symm.trans hx'
  exact ⟨v, hv, hm⟩

/-- Where no value that comes up in exact arithmetic leaves the range of 32 bits, evaluation comes
to what exact arithmetic comes to: to the same value, or to the first division by zero. -/
theorem evaluate_eq_exact (bytes : Bytes) (source : Option SourceId) (limit : Nat)
    (e : Expr .sum) (h : (ofBytes bytes source).tokens.dropLast = e.tokens)
    (hl : e.depth ≤ limit) (hf : e.Fits bytes) :
    ((ofBytes bytes source).evaluate limit).map Int32.toInt =
      (e.exact bytes).mapError .divisionByZero := by
  obtain ⟨he, hs⟩ := evaluate_of_tokens h hl
  rw [he, hf.evaluate_eq hs]
  cases hx : e.exact bytes with
  | error => rfl
  | ok x => exact congrArg Except.ok (hf.inRange hx).toInt_ofInt

/-- The least number can be written, and `-2147483648/2` is its exact half. -/
theorem evaluate_least_number :
    ((ofBytes [0x2d, 0x32, 0x31, 0x34, 0x37, 0x34, 0x38, 0x33, 0x36, 0x34, 0x38, 0x2f,
      0x32]).evaluate 0).map Int32.toInt = .ok (-1073741824) := by
  let least : Expr .unary :=
    .negated ⟨⟨none, 0, 1, 1⟩, ⟨none, 1, 1, 2⟩⟩
      (.literal 2147483648 ⟨⟨none, 1, 1, 2⟩, ⟨none, 11, 1, 12⟩⟩)
  let two : Expr .unary := .unsigned (.literal 2 ⟨⟨none, 12, 1, 13⟩, ⟨none, 13, 1, 14⟩⟩)
  let e : Expr .sum :=
    .term (.product (.factor least) .divide (by decide) ⟨⟨none, 11, 1, 12⟩, ⟨none, 12, 1, 13⟩⟩ two)
  refine (evaluate_eq_exact _ none 0 e (by decide +kernel) (by decide) ?_).trans (by decide +kernel)
  refine ⟨⟨.inr ⟨_, _, rfl, by decide +kernel⟩, ?_⟩, ?_⟩
  · rintro x ⟨⟩
    decide +kernel
  · rintro x ⟨⟩
    refine ⟨(by decide : InRange 2), ?_⟩
    rintro y ⟨⟩ z ⟨⟩
    decide +kernel

end Lexer
end Calculator
