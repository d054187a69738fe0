import Calculator.Arith

/-! The grammar of expressions:

    sum     = product { ("+" | "-") product }
    product = unary { ("*" | "/") unary }
    unary   = ["-"] primary
    primary = UINT | "(" sum ")"

where chains of operators are read from the left. -/

namespace Calculator

/-- The levels of the grammar, from the one that binds loosest: a sum of products of signed
primaries. -/
inductive Level where
  | sum
  | product
  | unary
  | primary
deriving DecidableEq

/-- The level of the parts of a phrase. -/
def Level.operand : Level → Level
  | .sum => .product
  | .product => .unary
  | .unary => .primary
  | .primary => .primary

/-- The operators that join the parts of a phrase into a chain. -/
def Level.operators : Level → List BinOp
  | .sum => [.add, .subtract]
  | .product => [.multiply, .divide]
  | .unary | .primary => []

def openParen : UInt8 := 0x28

def closeParen : UInt8 := 0x29

end Calculator
