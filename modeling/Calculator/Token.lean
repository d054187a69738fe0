import Calculator.Position
import Calculator.Text.Utf8

/-! Tokens, their kinds, and the texts that name them in messages. -/

namespace Calculator

inductive Token.Value where
  /-- A run of digits, as its numeral modulo 2^32. -/
  | uint (n : UInt32)
  | ident (name : Bytes)
  /-- Any other byte that is no blank. -/
  | other (b : UInt8)
  | eof
deriving DecidableEq

/-- What tokens are told apart by when the grammar asks for one. -/
inductive Token.Kind where
  | uint
  | ident
  | other (b : UInt8)
  | eof
deriving DecidableEq

structure Token where
  value : Token.Value
  span : Span := {}
deriving DecidableEq

instance : Inhabited Token := ⟨{ value := .eof }⟩

namespace Token

def ofByte (b : UInt8) (span : Span) : Token := { value := .other b, span }

def Value.kind : Value → Kind
  | .uint _ => .uint
  | .ident _ => .ident
  | .other b => .other b
  | .eof => .eof

def kind (t : Token) : Kind := t.value.kind

def isEof (t : Token) : Bool := t.value = .eof

namespace Kind

/-- Kinds are in the order of the constructors, single bytes among each other by their value. -/
def rank : Kind → Nat
  | .uint => 0
  | .ident => 1
  | .other b => b.toNat + 2
  | .eof => 258

instance : Ord Kind := ⟨fun a b => compare a.rank b.rank⟩

/-- Puts a kind into its place in an ascending list, unless it is there already. -/
def insert (k : Kind) : List Kind → List Kind
  | [] => [k]
  | x :: rest =>
    match compare k x with
    | .lt => k :: x :: rest
    | .eq => x :: rest
    | .gt => x :: insert k rest

/-- The distinct kinds of a list, ascending. -/
def ascending (kinds : List Kind) : List Kind := kinds.foldr insert []

def text : Kind → String
  | .uint => "an integer literal"
  | .ident => "an identifier"
  | .other b => "'" ++ Ascii.text b ++ "'"
  | .eof => "end of input"

/-- A choice of kinds: `a`, `a or b`, `a, b or c`, and so on. -/
def choiceText : List Kind → String
  | [] => ""
  | [k] => k.text
  | [k, last] => k.text ++ " or " ++ last.text
  | k :: rest => k.text ++ ", " ++ choiceText rest

end Kind

/-- How a message names a token. The bytes of a name are shown as the text they encode. -/
def text (t : Token) : String :=
  match t.value with
  | .uint n => "integer literal " ++ toString n.toNat
  | .ident name => "identifier `" ++ Utf8.decode name ++ "`"
  | .other b => "'" ++ Ascii.text b ++ "'"
  | .eof => "end of input"

def Value.outline : Value → Outline
  | .uint n => .tuple "Uint" [.nat n.toNat]
  | .ident name => .tuple "Ident" [.atom (Ascii.stringLiteral name)]
  | .other b => .tuple "Other" [.atom (Ascii.literal b)]
  | .eof => .atom "Eof"

def outline (t : Token) : Outline :=
  .record "Token" [("span", t.span.outline), ("value", t.value.outline)]

end Token
end Calculator
