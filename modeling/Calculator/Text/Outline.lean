/-! Values laid out as text, indented and with a line for every part. -/

namespace Calculator

inductive Outline where
  | atom (text : String)
  | record (name : String) (fields : List (String × Outline))
  | tuple (name : String) (items : List Outline)
  | list (items : List Outline)

namespace Outline

def indentStep : String := "    "

mutual
/-- The text with every part on a line of its own, one step further in than `margin` and
followed by a comma. The first line is not indented. -/
def indented (margin : String) : Outline → String
  | .atom text => text
  | .record name fields =>
    name ++ " \x7b\n" ++ indentedFields (margin ++ indentStep) fields ++ margin ++ "\x7d"
  | .tuple name items =>
    name ++ "(\n" ++ indentedItems (margin ++ indentStep) items ++ margin ++ ")"
  | .list [] => "[]"
  | .list items => "[\n" ++ indentedItems (margin ++ indentStep) items ++ margin ++ "]"

def indentedFields (margin : String) : List (String × Outline) → String
  | [] => ""
  | (name, value) :: rest =>
    margin ++ name ++ ": " ++ indented margin value ++ ",\n" ++ indentedFields margin rest

def indentedItems (margin : String) : List Outline → String
  | [] => ""
  | value :: rest =>
    margin ++ indented margin value ++ ",\n" ++ indentedItems margin rest
end

def nat (n : Nat) : Outline := .atom (toString n)

/-- An optional part: `None`, or `Some` around it. -/
def option : Option Outline → Outline
  | none => .atom "None"
  | some value => .tuple "Some" [value]

end Outline
end Calculator
