import Calculator.Proofs.Expr.Denotation
import Calculator.Proofs.Lexer.Partition

/-!
# Expressions over the integers

The value of an expression by arithmetic on integers without bounds, with each literal taken as the
whole numeral that stands in the input (`Expr.exact`). Where there is no division, the 32 bits of
this value are what `Expr.evaluate` computes (`Expr.evaluate_of_divisionFree`). With divisions they
are, too, as long as no value on the way leaves the range of 32 bits (`Expr.Fits.evaluate_eq`).
-/

namespace Calculator

/-! ### Numbers and 32 bits -/

/-- The integers that 32 bits can hold. -/
def InRange (x : Int) : Prop := -2147483648 ≤ x ∧ x ≤ 2147483647

instance (x : Int) : Decidable (InRange x) := inferInstanceAs (Decidable (_ ∧ _))

theorem InRange.toInt_ofInt {x : Int} (h : InRange x) : (Int32.ofInt x).toInt = x :=
  Int32.toInt_ofInt_of_le h.1 (Int.lt_of_le_of_lt h.2 (by decide))

/-- The number that the digits of a stretch stand for, however many they are. -/
def Span.numeral (s : Span) (bytes : Bytes) : Nat := Decimal.value (s.slice bytes)

/-- The value of a literal is the numeral of its digits modulo 2^32. -/
def Token.Spelled (bytes : Bytes) (t : Token) : Prop :=
  ∀ n, t.value = .uint n → n.toNat = t.span.numeral bytes % UInt32.size

/-- The tokens of an input are spelled in it. -/
theorem Lexes.spelled {bytes : Bytes} {ts : List Token} (h : Lexes 0 bytes ts) {t : Token}
    (ht : t ∈ ts) : t.Spelled bytes := by
  intro n hn
  obtain ⟨-, -, hw, -⟩ := h.partition.written ht (by simp [Token.isEof, hn])
  rw [hn] at hw
  cases hw with
  | uint _ _ hv => exact hv

theorem literalValue_eq_ofInt {n : UInt32} {m : Nat} (h : n.toNat = m % UInt32.size) :
    literalValue n = .ofInt m := by
  apply Int32.toInt.inj
  rw [literalValue_eq, Int32.toInt_ofInt, Int32.toInt_ofInt, h]
  exact Int.emod_bmod m UInt32.size

namespace BinOp

/-- The result of an operation on integers. Quotients are rounded towards zero, and there is none
by zero. -/
def exact : BinOp → Int → Int → Except ArithError Int
  | .add, x, y => .ok (x + y)
  | .subtract, x, y => .ok (x - y)
  | .multiply, x, y => .ok (x * y)
  | .divide, x, y => if y = 0 then .error .divisionByZero else .ok (x.tdiv y)

theorem exists_exact {op : BinOp} (h : op ≠ .divide) (x y : Int) : ∃ z, op.exact x y = .ok z := by
  cases op with
  | add | subtract | multiply => exact ⟨_, rfl⟩
  | divide => exact absurd rfl h

/-- Operations respect the reduction to 32 bits. Of a division, the operands have to be in range. -/
theorem apply_ofInt {op : BinOp} {x y : Int} (h : op = .divide → InRange x ∧ InRange y) :
    op.apply (.ofInt x) (.ofInt y) = (op.exact x y).map .ofInt := by
  cases op with
  | add => rw [exact, Except.map, Int32.ofInt_add, apply]
  | subtract => rw [exact, Except.map, Int32.ofInt_sub, apply]
  | multiply => rw [exact, Except.map, Int32.ofInt_mul, apply]
  | divide =>
    obtain ⟨hx, hy⟩ := h rfl
    have hz : Int32.ofInt y = 0 ↔ y = 0 := by
      rw [← Int32.toInt_inj, hy.toInt_ofInt, Int32.toInt_zero]
    by_cases h0 : y = 0
    · rw [exact, apply, if_pos h0, if_pos (hz.mpr h0), Except.map]
    · rw [exact, apply, if_neg h0, if_neg (mt hz.mp h0), Except.map,
        Int32.ofInt_tdiv hx.1 hx.2 hy.1 hy.2]

end BinOp

namespace Expr

/-! ### Exact values -/

/-- The value of an expression over the integers: operands from left to right, then the operation,
up to the first division by zero. -/
def exact (bytes : Bytes) {l : Level} : Expr l → Except Span Int
  | .literal _ span => .ok (span.numeral bytes)
  | .paren _ e _ | .unsigned e | .factor e | .term e => e.exact bytes
  | .negated _ e => (e.exact bytes).map fun x => -x
  | .product left op _ _ right | .sum left op _ _ right => do
    let x ← left.exact bytes
    let y ← right.exact bytes
    match op.exact x y with
    | .ok z => .ok z
    | .error .divisionByZero => .error ⟨left.start, right.stop⟩

/-- Every value that comes up in the exact computation is in range. A literal behind a sign may also
be the one number above the range that the sign takes back into it. -/
def Fits (bytes : Bytes) {l : Level} : Expr l → Prop
  | .literal _ span => InRange (span.numeral bytes)
  | .paren _ e _ | .unsigned e | .factor e | .term e => e.Fits bytes
  | .negated _ e =>
    (e.Fits bytes ∨ ∃ n span, e = .literal n span ∧ span.numeral bytes = 2147483648) ∧
      ∀ x, e.exact bytes = .ok x → InRange (-x)
  | .product left op _ _ right | .sum left op _ _ right =>
    left.Fits bytes ∧ ∀ x, left.exact bytes = .ok x →
      right.Fits bytes ∧ ∀ y, right.exact bytes = .ok y →
        ∀ z, op.exact x y = .ok z → InRange z

section
variable {bytes : Bytes} {l : Level}

theorem exact_extend (e : Expr l) (k : Link l) :
    (e.extend k).exact bytes = (do
      let x ← e.exact bytes
      let y ← k.operand.exact bytes
      match k.op.exact x y with
      | .ok z => .ok z
      | .error .divisionByZero => .error ⟨e.start, k.operand.stop⟩) := by
  cases l with
  | sum | product => rfl
  | unary | primary => exact absurd k.mem List.not_mem_nil

theorem exact_extend_eq_ok {e : Expr l} {k : Link l} {z : Int}
    (h : (e.extend k).exact bytes = .ok z) :
    ∃ x y, e.exact bytes = .ok x ∧ k.operand.exact bytes = .ok y ∧ k.op.exact x y = .ok z := by
  rw [exact_extend] at h
  cases hx : e.exact bytes with
  | error => simp_all [bind, Except.bind]
  | ok x =>
    cases hy : k.operand.exact bytes with
    | error => simp_all [bind, Except.bind]
    | ok y => cases hz : k.op.exact x y <;> simp_all [bind, Except.bind]

theorem evaluate_literal {n : UInt32} {span : Span}
    (h : Token.Spelled bytes { value := .uint n, span }) :
    (literal n span).evaluate = ((literal n span).exact bytes).map .ofInt := by
  rw [evaluate, literalValue_eq_ofInt (h n rfl)]
  rfl

theorem evaluate_negated {sign : Span} {e : Expr .primary}
    (h : e.evaluate = (e.exact bytes).map .ofInt) :
    (negated sign e).evaluate = ((negated sign e).exact bytes).map .ofInt := by
  rw [evaluate, exact, h]
  cases e.exact bytes with
  | error => rfl
  | ok x => rw [Except.map, Except.map, Except.map, Except.map, Int32.ofInt_neg, UnOp.apply]

/-- A link keeps a chain to the exact value if its operation does. -/
theorem evaluate_extend_of_exact {e : Expr l} {k : Link l}
    (he : e.evaluate = (e.exact bytes).map .ofInt)
    (hk : ∀ x, e.exact bytes = .ok x →
      k.operand.evaluate = (k.operand.exact bytes).map .ofInt ∧
        ∀ y, k.operand.exact bytes = .ok y → k.op = .divide → InRange x ∧ InRange y) :
    (e.extend k).evaluate = ((e.extend k).exact bytes).map .ofInt := by
  rw [evaluate_extend, exact_extend, he]
  cases hx : e.exact bytes with
  | error => rfl
  | ok x =>
    obtain ⟨ho, hr⟩ := hk x hx
    rw [ho]
    cases hy : k.operand.exact bytes with
    | error => rfl
    | ok y =>
      simp only [Except.map, bind, Except.bind, BinOp.apply_ofInt (hr y hy)]
      cases k.op.exact x y with
      | error err => cases err; rfl
      | ok z => rfl

/-! ### Without divisions -/

/-- An expression without divisions has an exact value, and the 32 bits of it are its value. -/
theorem evaluate_of_divisionFree (e : Expr l) (hs : ∀ t ∈ e.tokens, t.Spelled bytes)
    (hd : .other BinOp.divide.byte ∉ e.values) :
    (∃ x, e.exact bytes = .ok x) ∧ e.evaluate = (e.exact bytes).map .ofInt := by
  induction e with
  | literal => exact ⟨⟨_, rfl⟩, evaluate_literal (hs _ (List.mem_singleton_self _))⟩
  | paren _ e _ ih => exact ih (fun t ht => hs t (by simp [tokens, ht])) fun h => hd (by simp [h])
  | unsigned _ ih | factor _ ih | term _ ih => exact ih hs hd
  | negated sign e ih =>
    obtain ⟨⟨x, hx⟩, he⟩ :=
      ih (fun t ht => hs t (List.mem_cons_of_mem _ ht)) fun h => hd (by simp [h])
    refine ⟨⟨-x, ?_⟩, evaluate_negated he⟩
    rw [exact, hx]
    rfl
  | product left op h sign right ihl ihr | sum left op h sign right ihl ihr =>
    obtain ⟨⟨x, hx⟩, hl⟩ := ihl (fun t ht => hs t (by simp [tokens, ht])) fun h => hd (by simp [h])
    obtain ⟨⟨y, hy⟩, hr⟩ := ihr (fun t ht => hs t (by simp [tokens, ht])) fun h => hd (by simp [h])
    have hop : op ≠ .divide := by
      rintro rfl
      exact hd (by simp)
    obtain ⟨z, hz⟩ := BinOp.exists_exact hop x y
    refine ⟨⟨z, ?_⟩, ?_⟩
    · simp only [exact, hx, hy, hz, bind, Except.bind]
    · refine evaluate_extend_of_exact (k := ⟨op, h, sign, right⟩) hl fun _ _ => ⟨hr, ?_⟩
      exact fun _ _ h => absurd h hop

/-! ### Within the range -/

namespace Fits
variable {e : Expr l}

theorem inRange (h : e.Fits bytes) {x : Int} (hx : e.exact bytes = .ok x) : InRange x := by
  induction e generalizing x with
  | literal =>
    cases hx
    exact h
  | paren _ _ _ ih | unsigned _ ih | factor _ ih | term _ ih => exact ih h hx
  | negated _ e =>
    rw [exact] at hx
    cases ha : e.exact bytes with
    | error => rw [ha] at hx; cases hx
    | ok a =>
      rw [ha] at hx
      cases hx
      exact h.2 a ha
  | product left op hm sign right | sum left op hm sign right =>
    obtain ⟨a, b, ha, hb, hx⟩ := exact_extend_eq_ok (k := ⟨op, hm, sign, right⟩) hx
    exact (h.2 a ha).2 b hb x hx

/-- Where everything is in range, the value is the exact one. -/
theorem evaluate_eq (h : e.Fits bytes) (hs : ∀ t ∈ e.tokens, t.Spelled bytes) :
    e.evaluate = (e.exact bytes).map .ofInt := by
  induction e with
  | literal => exact evaluate_literal (hs _ (List.mem_singleton_self _))
  | paren _ e _ ih => exact ih h fun t ht => hs t (by simp [tokens, ht])
  | unsigned _ ih | factor _ ih | term _ ih => exact ih h hs
  | negated sign e ih =>
    have hs : ∀ t ∈ e.tokens, t.Spelled bytes := fun t ht => hs t (List.mem_cons_of_mem _ ht)
    rcases h.1 with h | ⟨n, span, rfl, -⟩
    · exact evaluate_negated (ih h hs)
    · exact evaluate_negated (evaluate_literal (hs _ (List.mem_singleton_self _)))
  | product left op hm sign right ihl ihr | sum left op hm sign right ihl ihr =>
    have hl := ihl h.1 fun t ht => hs t (by simp [tokens, ht])
    refine evaluate_extend_of_exact (k := ⟨op, hm, sign, right⟩) hl fun x hx => ?_
    obtain ⟨hr, -⟩ := h.2 x hx
    refine ⟨ihr hr fun t ht => hs t (by simp [tokens, ht]), fun y hy _ => ?_⟩
    exact ⟨h.1.inRange hx, hr.inRange hy⟩

end Fits

end

end Expr
end Calculator
