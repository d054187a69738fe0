import Calculator.Proofs.Expr.Integers
import Calculator.Proofs.Lexer.Rendering

/-!
# Numbers as they are printed

The text that a number is printed as, digits and a minus sign in front of them if it is negative,
has the tokens of an expression without parentheses (`Lexer.values_ahead_numeral`), and this
denotes the number (`Expr.denote_numeral`).
-/

namespace Calculator

namespace Expr

/-- The expression that a number is printed as. -/
def numeral (v : Int32) : Expr .sum :=
  match v.toInt with
  | .ofNat n => .term (.factor (.unsigned (.literal (.ofNat n) {})))
  | .negSucc n => .term (.factor (.negated {} (.literal (.ofNat (n + 1)) {})))

private theorem literalValue_ofNat (n : Nat) : literalValue (.ofNat n) = .ofInt n :=
  literalValue_eq_ofInt UInt32.toNat_ofNat'

/-- The least number is printed as a literal that is out of range without its sign. -/
theorem evaluate_numeral (v : Int32) : (numeral v).evaluate = .ok v := by
  have hv : Int32.ofInt v.toInt = v := Int32.ofInt_toInt v
  rw [numeral]
  split
  · next n hn =>
    rw [hn] at hv
    exact congrArg Except.ok ((literalValue_ofNat n).trans hv)
  · next n hn =>
    rw [hn, Int.negSucc_eq, Int32.ofInt_neg] at hv
    have hn : literalValue (.ofNat (n + 1)) = .ofInt (n + 1 : Nat) := literalValue_ofNat (n + 1)
    exact congrArg Except.ok ((congrArg UnOp.negate.apply hn).trans hv)

theorem denote_numeral (v : Int32) : (numeral v).denote = some v :=
  (numeral v).evaluate_eq_ok_iff.mp (evaluate_numeral v)

end Expr

/-! ### The texts of numbers -/

namespace Lexeme

/-- The digits of a number. -/
def digits (n : Nat) : Lexeme where
  value := .uint (.ofNat n)
  text := Decimal.ofNat n
  written := by
    refine .uint (Decimal.ofNat_ne_nil n) (fun _ => Decimal.isDigit_of_mem_ofNat) ?_
    rw [Decimal.value_ofNat, UInt32.toNat_ofNat']

/-- The sign of a negative number. -/
def minus : Lexeme where
  value := .other UnOp.negate.byte
  text := [UnOp.negate.byte]
  written := .other (by decide) (by decide) (by decide) (by decide)

/-- Any digits, also with zeros in front. -/
def run (digits : Bytes) (hne : digits ≠ []) (hd : ∀ b ∈ digits, Ascii.isDigit b = true) :
    Lexeme where
  value := .uint (Lexer.numeral digits)
  text := digits
  written := .uint hne hd (Lexer.numeral_toNat digits)

end Lexeme

namespace Rendering

/-- The sign and the digits of a number, without blanks. -/
def numeral (v : Int32) : Rendering :=
  match v.toInt with
  | .ofNat n => { lexemes := [.digits n], separated := .singleton _ }
  | .negSucc n =>
    { lexemes := [.minus, .digits (n + 1)]
      separated := .cons_cons (fun h => absurd h Bool.false_ne_true) (.singleton _) }

theorem bytes_numeral (v : Int32) : (numeral v).bytes = Decimal.ofInt v.toInt := by
  rw [numeral]
  split <;> next n hn =>
    simp [hn, Decimal.ofInt, bytes, Lexeme.bytes, Lexeme.digits, Lexeme.minus, UnOp.byte]

theorem values_numeral (v : Int32) : (numeral v).values = (Expr.numeral v).values := by
  rw [numeral, Expr.numeral]
  cases v.toInt <;> rfl

end Rendering

theorem Decimal.zero_notMem_ofInt (v : Int32) : 0 ∉ ofInt v.toInt := by
  rw [← Rendering.bytes_numeral]
  exact (Rendering.numeral v).zero_notMem_bytes

/-- A number is printed as the tokens of the expression that denotes it. -/
theorem Lexer.values_ahead_numeral (v : Int32) (source : Option SourceId) :
    (ofBytes (Decimal.ofInt v.toInt) source).ahead.map (·.value) =
      (Expr.numeral v).values ++ [.eof] := by
  rw [← Rendering.bytes_numeral, values_ahead_rendering, Rendering.values_numeral]

end Calculator
