import Calculator.Text.Ascii

/-! The operators and what they do to 32-bit integers. Everything wraps around at 2^32, and a
quotient is rounded towards zero. -/

namespace Calculator

inductive BinOp where
  | add
  | subtract
  | multiply
  | divide
deriving DecidableEq

inductive UnOp where
  | negate
deriving DecidableEq

inductive ArithError where
  | divisionByZero
deriving DecidableEq

def ArithError.message : ArithError → String
  | .divisionByZero => "attempted to divide by zero"

namespace BinOp

def byte : BinOp → UInt8
  | .add => 0x2b
  | .subtract => 0x2d
  | .multiply => 0x2a
  | .divide => 0x2f

def ofByte? : UInt8 → Option BinOp
  | 0x2b => some .add
  | 0x2d => some .subtract
  | 0x2a => some .multiply
  | 0x2f => some .divide
  | _ => none

theorem ofByte?_eq_some_iff {b : UInt8} {op : BinOp} : ofByte? b = some op ↔ b = op.byte := by
  constructor
  · unfold ofByte?
    split <;> intro h <;> cases h <;> rfl
  · rintro rfl
    cases op <;> rfl

/-- Division alone can fail. The least number divided by -1 is itself again. -/
def apply : BinOp → Int32 → Int32 → Except ArithError Int32
  | .add, a, b => .ok (a + b)
  | .subtract, a, b => .ok (a - b)
  | .multiply, a, b => .ok (a * b)
  | .divide, a, b => if b = 0 then .error .divisionByZero else .ok (a / b)

end BinOp

namespace UnOp

def byte : UnOp → UInt8
  | .negate => 0x2d

def apply : UnOp → Int32 → Int32
  | .negate, a => -a

end UnOp

/-- The value of a literal: its 32 bits read in two's complement. -/
def literalValue (n : UInt32) : Int32 := n.toInt32

end Calculator
