/-! Byte strings, the byte classes of the expression language, and the texts that stand for
single bytes and byte strings in messages. -/

namespace Calculator

/-- Input and output are byte strings; nothing requires them to be UTF-8. -/
abbrev Bytes := List UInt8

/-- The UTF-8 bytes of a text. -/
def Bytes.ofString (text : String) : Bytes := text.toList.flatMap String.utf8EncodeChar

theorem Bytes.ofString_append (s t : String) : ofString (s ++ t) = ofString s ++ ofString t := by
  simp only [ofString, String.toList_append, List.flatMap_append]

namespace Ascii

/-- Space, tab, line feed, vertical tab, form feed and carriage return. -/
def isBlank (b : UInt8) : Bool := b == 0x20 || (0x09 ≤ b && b ≤ 0x0d)

def isDigit (b : UInt8) : Bool := 0x30 ≤ b && b ≤ 0x39

def isLetter (b : UInt8) : Bool := (0x41 ≤ b && b ≤ 0x5a) || (0x61 ≤ b && b ≤ 0x7a)

/-- A name starts with a letter or an underscore. -/
def isNameStart (b : UInt8) : Bool := isLetter b || b == 0x5f

/-- A name goes on with letters, digits and underscores. -/
def isNamePart (b : UInt8) : Bool := isNameStart b || isDigit b

/-- The visible characters, without the space. -/
def isGraphic (b : UInt8) : Bool := 0x21 ≤ b && b ≤ 0x7e

def char (b : UInt8) : Char := Char.ofNat b.toNat

def hexEscape (b : UInt8) : String :=
  String.ofList ['\\', 'x', Nat.digitChar (b.toNat / 16), Nat.digitChar (b.toNat % 16)]

/-- A graphic byte stands for itself, any other byte for its hexadecimal escape. -/
def text (b : UInt8) : String :=
  if isGraphic b then String.singleton (char b) else hexEscape b

/-- A byte as a literal: its text between single quotes, marked with a `b`. -/
def literal (b : UInt8) : String := "b'" ++ text b ++ "'"

/-- A byte inside a string literal. Quotes and the backslash take a backslash, tab, line feed
and carriage return have escapes of their own, and the space stands for itself. -/
def stringEscape (b : UInt8) : String :=
  if b = 0x22 then "\\\""
  else if b = 0x27 then "\\'"
  else if b = 0x5c then "\\\\"
  else if b = 0x09 then "\\t"
  else if b = 0x0a then "\\n"
  else if b = 0x0d then "\\r"
  else if b = 0x20 || isGraphic b then String.singleton (char b)
  else hexEscape b

/-- A byte string as a literal between double quotes, marked with a `b`. -/
def stringLiteral (bytes : Bytes) : String :=
  "b\"" ++ String.join (bytes.map stringEscape) ++ "\""

end Ascii
end Calculator
