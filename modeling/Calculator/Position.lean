import Calculator.Text.Outline

/-! Places in an input, and the stretches between two of them. -/

namespace Calculator

/-- The name of a loaded input. Ids are given out in the order of loading and print from 1. -/
structure SourceId where
  /-- How many inputs were loaded before this one. -/
  index : Nat
deriving DecidableEq

def SourceId.number (id : SourceId) : Nat := id.index + 1

def SourceId.outline (id : SourceId) : Outline := .tuple "SourceId" [.nat id.number]

/-- A place in an input: how many bytes come before it, and its line and column, both counted
from 1. A column is one character wide, whatever its number of bytes. -/
structure Position where
  source : Option SourceId := none
  byte : Nat := 0
  line : Nat := 1
  col : Nat := 1
deriving DecidableEq

namespace Position

def startOf (source : Option SourceId) : Position := { source }

def text (p : Position) : String := toString p.line ++ ":" ++ toString p.col

def outline (p : Position) : Outline :=
  .record "Position" [
    ("src", .option (p.source.map SourceId.outline)),
    ("byte", .nat p.byte), ("line", .nat p.line), ("col", .nat p.col)]

end Position

/-- A stretch of an input, from `start` up to but without `stop`. -/
structure Span where
  start : Position := {}
  stop : Position := {}
deriving DecidableEq

namespace Span

def length (s : Span) : Nat := s.stop.byte - s.start.byte

def outline (s : Span) : Outline :=
  .record "Span" [("start", s.start.outline), ("end", s.stop.outline)]

end Span
end Calculator
