import Mathlib.Control.Monad.Basic
import Calculator.Evaluate
import Calculator.Proofs.Parser.Twins

/-!
# Layout has no meaning

Inputs with the same token values come to the same, however their tokens are laid out: to the same
value, or to errors that tell the same about the same tokens (`Lexer.evaluate_alike`).
-/

namespace Calculator

/-- Results that are the same apart from places: successes that are alike as `same` says, or errors
that tell the same and extend from the same token to the same token. -/
inductive Alike {α : Type} (same : α → α → Prop) (ts us : List Token) :
    Except EvalError α → Except EvalError α → Prop
  | ok {a b : α} (h : same a b) : Alike same ts us (.ok a) (.ok b)
  | error {e e' : EvalError} (h : e.Twin ts us e') : Alike same ts us (.error e) (.error e')

/-- The same value, and the same token behind the expression. -/
def SameLeading (ts us : List Token) (a b : Int32 × Token) : Prop :=
  a.1 = b.1 ∧ a.2.value = b.2.value ∧ ∃ i : Nat, ts[i]? = some a.2 ∧ us[i]? = some b.2

namespace Parser.Twin
variable {ts us : List Token} {p q : Parser}

theorem ofLexer {l m : Lexer} (h : l.ahead.map (·.value) = m.ahead.map (·.value)) (limit : Nat) :
    Twin l.ahead m.ahead (ofLexer l limit) (ofLexer m limit) where
  values_eq := h
  left := .ofLexer l limit
  right := .ofLexer m limit
  taken_eq := rfl
  budget_eq := rfl

theorem whole (h : Twin ts us p q) : Alike Eq ts us p.whole.result q.whole.result := by
  have hp := p.whole_cases
  generalize p.whole = o at hp
  cases hp with
  | ok hg ht =>
    obtain ⟨r, hg', hr⟩ := hg.twin (.phrase _) h
    rw [whole_of_eof hg' (hr.isEof_eq.trans ht)]
    exact .ok rfl
  | trailing hg ht =>
    obtain ⟨r, hg', hr⟩ := hg.twin (.phrase _) h
    rw [whole_of_trailing hg' (hr.isEof_eq.trans ht)]
    exact .error (.unexpectedToken hr.left.getElem?_taken hr.getElem?_right hr.value_eq _)
  | fails hf =>
    obtain ⟨e', r, hf', he⟩ := hf.twin (.phrase _) h
    rw [whole_of_fails hf']
    exact .error he

theorem leading (h : Twin ts us p q) :
    Alike (SameLeading ts us) ts us p.leading.result q.leading.result := by
  have hp := p.leading_cases
  generalize p.leading = o at hp
  cases hp with
  | ok hg =>
    obtain ⟨r, hg', hr⟩ := hg.twin (.phrase _) h
    rw [leading_of_gives hg']
    exact .ok ⟨rfl, hr.value_eq.symm, _, hr.left.getElem?_taken, hr.getElem?_right⟩
  | fails hf =>
    obtain ⟨e', r, hf', he⟩ := hf.twin (.phrase _) h
    rw [leading_of_fails hf']
    exact .error he

end Parser.Twin

namespace Lexer

/-- Inputs with the same token values have the same value, or errors that tell the same and extend
from the same token to the same token, and likewise for what they begin with. -/
theorem evaluate_alike (left right : Bytes) (source source' : Option SourceId) (limit : Nat)
    (h : (ofBytes left source).tokens.map (·.value) =
      (ofBytes right source').tokens.map (·.value)) :
    Alike Eq (ofBytes left source).tokens (ofBytes right source').tokens
        ((ofBytes left source).evaluate limit) ((ofBytes right source').evaluate limit) ∧
      Alike (SameLeading (ofBytes left source).tokens (ofBytes right source').tokens)
        (ofBytes left source).tokens (ofBytes right source').tokens
        ((ofBytes left source).evaluateLeading limit)
        ((ofBytes right source').evaluateLeading limit) := by
  simp only [tokens_ofBytes] at h ⊢
  exact ⟨(Parser.Twin.ofLexer h limit).whole, (Parser.Twin.ofLexer h limit).leading⟩

/-- The divisions by zero in `1/0` and in ` 1 / 0` are the same. -/
theorem evaluate_alike_zero_divisor :
    (ofBytes [0x31, 0x2f, 0x30]).tokens.map (·.value) =
        (ofBytes [0x20, 0x31, 0x20, 0x2f, 0x20, 0x30]).tokens.map (·.value) ∧
      Alike (@Eq Int32) (ofBytes [0x31, 0x2f, 0x30]).tokens
        (ofBytes [0x20, 0x31, 0x20, 0x2f, 0x20, 0x30]).tokens
        (.error (.divisionByZero ⟨⟨none, 0, 1, 1⟩, ⟨none, 3, 1, 4⟩⟩))
        (.error (.divisionByZero ⟨⟨none, 1, 1, 2⟩, ⟨none, 6, 1, 7⟩⟩)) := by
  have ht : (ofBytes [0x31, 0x2f, 0x30]).tokens.map (·.value) =
      (ofBytes [0x20, 0x31, 0x20, 0x2f, 0x20, 0x30]).tokens.map (·.value) := by decide +kernel
  have hl : (ofBytes [0x31, 0x2f, 0x30]).evaluate 0 =
      .error (.divisionByZero ⟨⟨none, 0, 1, 1⟩, ⟨none, 3, 1, 4⟩⟩) := by decide +kernel
  have hr : (ofBytes [0x20, 0x31, 0x20, 0x2f, 0x20, 0x30]).evaluate 0 =
      .error (.divisionByZero ⟨⟨none, 1, 1, 2⟩, ⟨none, 6, 1, 7⟩⟩) := by decide +kernel
  have h := (evaluate_alike _ _ none none 0 ht).1
  rw [hl, hr] at h
  exact ⟨ht, h⟩

end Lexer
end Calculator
