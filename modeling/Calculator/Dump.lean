import Calculator.Sources
import Calculator.Text.Decimal

/-! Lists of tokens as text. -/

namespace Calculator

inductive OutputFormat where
  /-- Short and easy to cut apart. -/
  | plain
  /-- With all details. -/
  | debug
deriving DecidableEq

namespace Token

/-- What a plain dump says of a token. The bytes of a name are written as they are. -/
def Value.dump : Value → Bytes
  | .uint n => .ofString "TOKEN_UINT: " ++ Decimal.ofNat n.toNat
  | .ident name => .ofString "TOKEN_NAME: " ++ name
  | .other b => .ofString ("TOKEN: " ++ Ascii.text b)
  | .eof => .ofString "TOKEN_EOF"

/-- The line of a plain dump for a token. -/
def dumpLine (t : Token) : Bytes :=
  .ofString "#" ++ Decimal.ofNat t.span.start.line ++ .ofString " " ++ t.value.dump ++
    .ofString "\n"

/-- The pieces in which the dump of tokens, all of the same input, is written. A plain one begins
with the name of the input and goes on token by token. -/
def dumpPieces (sources : Sources) (tokens : List Token) : OutputFormat → List Bytes
  | .plain =>
    .ofString ("#name " ++ sources.nameOf (tokens.head?.bind (·.span.start.source)) ++ "\n") ::
      tokens.map dumpLine
  | .debug => [.ofString ((Outline.list (tokens.map outline)).indented "" ++ "\n")]

def dump (sources : Sources) (tokens : List Token) (format : OutputFormat) : Bytes :=
  (dumpPieces sources tokens format).flatten

end Token
end Calculator
