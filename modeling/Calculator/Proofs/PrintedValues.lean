import Calculator.CommandLine.Run
import Calculator.Proofs.ExactArithmetic
import Calculator.Proofs.Numerals

/-!
# Printed values

Numbers are read back as they are printed, also the least one, whose digits alone are out of range.
A run of digits has the value that its numeral leaves modulo 2^32, however long it is. So to print a
value, evaluate the text and print again changes nothing (`Lexer.evaluate_printed`).
-/

namespace Calculator

theorem Expr.depth_numeral (v : Int32) : (numeral v).depth = 0 := by
  rw [numeral]
  split <;> rfl

namespace Lexer
variable {l : Lexer} {limit : Nat} {v : Int32}

/-- Where the tokens are those of an expression that the limit allows, its value is the result. -/
theorem evaluate_of_values {e : Expr .sum} (h : l.ahead.map (·.value) = e.values ++ [.eof])
    (hd : e.depth ≤ limit) (hv : e.evaluate = .ok v) : l.evaluate limit = .ok v := by
  obtain ⟨t, ht, hl⟩ := ahead_of_values h
  rw [Expr.evaluate_eq_ok_iff, ← e.denote_placed (l.ahead.map (·.span)),
    ← Expr.evaluate_eq_ok_iff] at hv
  rw [evaluate_of_ahead hl ht (by rwa [e.depth_placed]), hv]
  rfl

/-- A number is read back from its text, and blanks behind it do no harm. -/
theorem evaluate_ofInt_append (v : Int32) {blanks : Bytes}
    (hb : ∀ b ∈ blanks, Ascii.isBlank b = true) (source : Option SourceId) (limit : Nat) :
    (ofBytes (Decimal.ofInt v.toInt ++ blanks) source).evaluate limit = .ok v := by
  let r : Rendering := { Rendering.numeral v with blanks, blank := hb }
  have hr : r.bytes = Decimal.ofInt v.toInt ++ blanks := by
    have hn : (Rendering.numeral v).blanks = [] := by
      rw [Rendering.numeral]
      split <;> rfl
    rw [← Rendering.bytes_numeral, Rendering.bytes, Rendering.bytes, hn, List.append_nil]
  rw [← hr]
  refine evaluate_of_values (e := .numeral v) ?_ ?_ (Expr.evaluate_numeral v)
  · rw [values_ahead_rendering, ← Rendering.values_numeral]
    rfl
  · rw [Expr.depth_numeral]
    exact Nat.zero_le _

/-- The value of a run of digits is what its numeral leaves modulo 2^32. -/
theorem evaluate_digits {digits : Bytes} (hne : digits ≠ [])
    (hd : ∀ b ∈ digits, Ascii.isDigit b = true) (source : Option SourceId) (limit : Nat) :
    (ofBytes digits source).evaluate limit = .ok (.ofInt (Decimal.value digits)) := by
  let r : Rendering := { lexemes := [.run digits hne hd], separated := .singleton _ }
  let e : Expr .sum := .term (.factor (.unsigned (.literal (numeral digits) {})))
  have hr : r.bytes = digits := by simp [r, Rendering.bytes, Lexeme.bytes, Lexeme.run]
  rw [← hr]
  refine evaluate_of_values (e := e) (values_ahead_rendering r source) (Nat.zero_le _) ?_
  rw [hr]
  exact congrArg Except.ok (literalValue_eq_ofInt (numeral_toNat digits))

/-- The text that the value of an input is printed as. -/
def printed (l : Lexer) (limit : Nat) : Except EvalError Bytes :=
  (l.evaluate limit).map fun v => Decimal.ofInt v.toInt

/-- What is printed of a value, on its own or as a line, is evaluated to this value again. The value
of digits is the one number of 32 bits that is congruent to their numeral modulo 2^32. Of a text that
was printed, the same text is printed again. -/
theorem evaluate_printed (source : Option SourceId) (limit : Nat) :
    (∀ v : Int32, (ofBytes (Decimal.ofInt v.toInt) source).evaluate limit = .ok v ∧
      ∀ sources id, (ofBytes (CommandLine.Session.resultLine sources .plain (id, v))
        source).evaluate limit = .ok v) ∧
    (∀ digits : Bytes, digits ≠ [] → (∀ b ∈ digits, Ascii.isDigit b = true) →
      ∃ v, (ofBytes digits source).evaluate limit = .ok v ∧
        v.toInt ≡ Decimal.value digits [ZMOD UInt32.size] ∧
        ∀ w : Int32, w.toInt ≡ Decimal.value digits [ZMOD UInt32.size] → w = v) ∧
    ∀ (l : Lexer) (limit' : Nat) (text : Bytes), l.printed limit' = .ok text →
      (ofBytes text source).printed limit = .ok text := by
  have read_back (v : Int32) : (ofBytes (Decimal.ofInt v.toInt) source).evaluate limit = .ok v := by
    have h : (ofBytes (Decimal.ofInt v.toInt ++ []) source).evaluate limit = .ok v :=
      evaluate_ofInt_append v (by simp) source limit
    rwa [List.append_nil] at h
  refine ⟨fun v => ⟨read_back v, fun sources id => ?_⟩, fun digits hne hd => ?_, ?_⟩
  · exact evaluate_ofInt_append v (by decide +kernel) source limit
  · exact ⟨_, evaluate_digits hne hd source limit, eq_ofInt_iff_modEq.mp rfl,
      fun w => eq_ofInt_iff_modEq.mpr⟩
  · intro l limit' text h
    rw [printed] at h
    cases hv : l.evaluate limit' with
    | error e => rw [hv] at h; cases h
    | ok v =>
      rw [hv] at h
      cases h
      rw [printed, read_back]
      rfl

/-- `-2147483648` is read back, `4294967295` is `-1`, and `7-8` is printed as a text that stays the
same. -/
theorem evaluate_printed_least :
    (ofBytes [0x2d, 0x32, 0x31, 0x34, 0x37, 0x34, 0x38, 0x33, 0x36, 0x34, 0x38]).evaluate 0 =
        .ok (-2147483648) ∧
      (∃ v, (ofBytes [0x34, 0x32, 0x39, 0x34, 0x39, 0x36, 0x37, 0x32, 0x39, 0x35]).evaluate 0 =
        .ok v ∧ v.toInt ≡ 4294967295 [ZMOD UInt32.size]) ∧
      (ofBytes [0x37, 0x2d, 0x38]).printed 0 = .ok [0x2d, 0x31] ∧
      (ofBytes [0x2d, 0x31]).printed 0 = .ok [0x2d, 0x31] := by
  obtain ⟨hp, hd, hf⟩ := evaluate_printed none 0
  have hl : Decimal.ofInt (Int32.toInt (-2147483648)) =
      [0x2d, 0x32, 0x31, 0x34, 0x37, 0x34, 0x38, 0x33, 0x36, 0x34, 0x38] := by decide +kernel
  have hn : Decimal.value [0x34, 0x32, 0x39, 0x34, 0x39, 0x36, 0x37, 0x32, 0x39, 0x35] =
      4294967295 := by decide +kernel
  have ht : (ofBytes [0x37, 0x2d, 0x38]).printed 0 = .ok [0x2d, 0x31] := by decide +kernel
  obtain ⟨v, hv, hm, -⟩ := hd [0x34, 0x32, 0x39, 0x34, 0x39, 0x36, 0x37, 0x32, 0x39, 0x35]
    (List.cons_ne_nil _ _) (by decide +kernel)
  rw [hn] at hm
  exact ⟨hl ▸ (hp _).1, ⟨v, hv, hm⟩, ht, hf _ 0 _ ht⟩

end Lexer
end Calculator
