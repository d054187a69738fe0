import Calculator.Token

/-! What the next token may be. -/

namespace Calculator

/-- A choice of token kinds that the next token is held against. -/
structure Matcher where
  /-- The kinds in the order in which messages list them. -/
  expected : List Token.Kind

namespace Matcher

def kind (k : Token.Kind) : Matcher := ⟨[k]⟩

def byte (b : UInt8) : Matcher := .kind (.other b)

def anyOf (bytes : List UInt8) : Matcher := ⟨bytes.map .other⟩

/-- Any one of several choices. Messages list the kinds of all of them in ascending order. -/
def select (choices : List Matcher) : Matcher := ⟨Token.Kind.ascending (choices.flatMap expected)⟩

def accepts (m : Matcher) (t : Token) : Bool := t.kind ∈ m.expected

theorem accepts_byte {b : UInt8} {t : Token} : (byte b).accepts t = true ↔ t.value = .other b := by
  simp only [accepts, byte, kind, Token.kind, List.mem_singleton, decide_eq_true_eq]
  cases t.value <;> simp [Token.Value.kind]

end Matcher
end Calculator
