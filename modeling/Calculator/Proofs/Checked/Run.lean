import Calculator.Arith

/-!
# Runs that can break off

Arithmetic on machine words that says when a result is none, for a reading of the program in which
every operation with a precondition checks it. What such a reading comes to is said by
`Checked.Answers`: it ends, it does not break off, and its answer is the one of the program.
-/

namespace Calculator.Checked

/-- Why a run breaks off. -/
inductive Fault where
  /-- A result is no machine word, or less than zero. -/
  | overflow
  /-- A stretch of a buffer ends before it starts, or behind the buffer. -/
  | outOfBounds
  /-- The number of the bytes that may go on a character is none of 1, 2 and 3. -/
  | badCount
  | divisionByZero
  /-- A case that is taken for impossible. -/
  | unreachable
deriving DecidableEq

/-- A run that may break off, or not be done with the depth of calls that it is given. -/
abbrev Run (α : Type) := ExceptT Fault Option α

/-- More depth of calls is needed than there is. -/
def unfinished {α : Type} : Run α := (none : Option _)

def word (n : Nat) : Run Nat := if n < UInt64.size then pure n else throw .overflow

def add (a b : Nat) : Run Nat := word (a + b)

def sub (a b : Nat) : Run Nat := if b ≤ a then pure (a - b) else throw .overflow

def subByte (a b : UInt8) : Run UInt8 := if b ≤ a then pure (a - b) else throw .overflow

def quotient (a b : Int32) : Run Int32 := if b = 0 then throw .divisionByZero else pure (a / b)

/-- The bytes of a buffer between two places. -/
def slice (buffer : Bytes) (start stop : Nat) : Run Bytes :=
  if start ≤ stop ∧ stop ≤ buffer.length then pure ((buffer.drop start).take (stop - start))
  else throw .outOfBounds

theorem word_of_lt {n : Nat} (h : n < UInt64.size) : word n = pure n := if_pos h

theorem add_of_lt {a b : Nat} (h : a + b < UInt64.size) : add a b = pure (a + b) := if_pos h

theorem sub_of_le {a b : Nat} (h : b ≤ a) : sub a b = pure (a - b) := if_pos h

theorem subByte_of_le {a b : UInt8} (h : b ≤ a) : subByte a b = pure (a - b) := if_pos h

theorem quotient_of_ne_zero {a b : Int32} (h : b ≠ 0) : quotient a b = pure (a / b) := if_neg h

theorem slice_of_le {buffer : Bytes} {start stop : Nat} (h : start ≤ stop)
    (hs : stop ≤ buffer.length) :
    slice buffer start stop = pure ((buffer.drop start).take (stop - start)) := if_pos ⟨h, hs⟩

/-- A run comes to an answer and a state, of which the state stands in a relation to another. -/
def Answers {α σ τ : Type} (T : σ → τ → Prop) (x : Run (α × σ)) (a : α) (t : τ) : Prop :=
  ∃ s, x = pure (a, s) ∧ T s t

namespace Answers
variable {α β σ τ υ ω : Type} {T : σ → τ → Prop} {U : υ → ω → Prop} {x : Run (α × σ)} {a : α}
  {b : β} {s : σ} {t : τ} {u : ω} {f : α × σ → Run (β × υ)}

protected theorem pure (h : T s t) : Answers T (pure (a, s)) a t := ⟨s, rfl, h⟩

/-- What goes on from an answer can rely on the state that it came with. -/
theorem bind (h : Answers T x a t) (hf : ∀ s, T s t → Answers U (f (a, s)) b u) :
    Answers U (x >>= f) b u := by
  obtain ⟨s, rfl, hs⟩ := h
  rw [pure_bind]
  exact hf s hs

end Answers

/-! ### Operators -/

/-- An operator that divides only where that is defined. -/
def apply : BinOp → Int32 → Int32 → Run (Except ArithError Int32)
  | .add, a, b => pure (.ok (a + b))
  | .subtract, a, b => pure (.ok (a - b))
  | .multiply, a, b => pure (.ok (a * b))
  | .divide, a, b =>
    if b = 0 then pure (.error .divisionByZero)
    else do
      let q ← quotient a b
      pure (.ok q)

/-- The test for zero comes before the division. -/
theorem apply_eq (op : BinOp) (a b : Int32) : apply op a b = pure (op.apply a b) := by
  cases op with
  | add | subtract | multiply => rfl
  | divide =>
    by_cases h : b = 0
    · simp only [apply, BinOp.apply, if_pos h]
    · simp only [apply, BinOp.apply, if_neg h, quotient_of_ne_zero h, pure_bind]

end Calculator.Checked
