import Calculator.Proofs.Lexer.Stream
import Calculator.Proofs.Parser.Rules

/-!
# Consuming tokens

The tokens that a parse still has before it (`Parser.upcoming`), the parse after some of them
were consumed (`Parser.Consumes`).
-/

namespace Calculator

namespace Parser

/-- The tokens from the next one on. -/
def upcoming (p : Parser) : List Token := p.token :: if p.token.isEof then [] else p.lexer.ahead

theorem upcoming_ofLexer (l : Lexer) (limit : Nat) : (ofLexer l limit).upcoming = l.ahead :=
  l.ahead_eq.symm

theorem ofLexer_remaining_le (l : Lexer) (limit : Nat) :
    (ofLexer l limit).remaining ≤ l.cursor.rest.length := l.advance_rest_le

theorem upcoming_eq_cons {p : Parser} (h : p.token.isEof = false) :
    p.upcoming = p.token :: p.advance.upcoming := by
  rw [upcoming, h, p.lexer.ahead_eq]
  rfl

theorem token_eq {p : Parser} {t : Token} {ts : List Token} (h : p.upcoming = t :: ts) :
    p.token = t := (List.cons.inj h).1

theorem advance_upcoming {p : Parser} {t : Token} {ts : List Token} (h : p.upcoming = t :: ts)
    (ht : t.isEof = false) : p.advance.upcoming = ts := by
  rw [← token_eq h] at ht
  exact (List.cons.inj ((upcoming_eq_cons ht).symm.trans h)).2

theorem upcoming_of_eof {p : Parser} (h : p.token.isEof = true) : p.upcoming = [p.token] := by
  rw [upcoming, h]
  rfl

/-- From one parse to another by consuming tokens, none of them the end. -/
inductive Consumes : Parser → List Token → Parser → Prop
  | refl (p : Parser) : Consumes p [] p
  | step {p q : Parser} {ts : List Token} :
    p.token.isEof = false → Consumes p.advance ts q → Consumes p (p.token :: ts) q

namespace Consumes
variable {p q r : Parser} {ts us : List Token}

theorem trans (h : Consumes p ts q) (h' : Consumes q us r) : Consumes p (ts ++ us) r := by
  induction h with
  | refl => exact h'
  | step ht _ ih => exact .step ht (ih h')

theorem advance (h : p.token.isEof = false) : Consumes p [p.token] p.advance := .step h (.refl _)

theorem upcoming (h : Consumes p ts q) : p.upcoming = ts ++ q.upcoming := by
  induction h with
  | refl => rfl
  | step ht _ ih => rw [upcoming_eq_cons ht, ih, List.cons_append]

theorem budget (h : Consumes p ts q) : q.budget = p.budget := by
  induction h with
  | refl => rfl
  | step _ _ ih => exact ih

theorem taken (h : Consumes p ts q) : q.taken = p.taken + ts.length := by
  induction h with
  | refl => rfl
  | @step p _ ts _ _ ih =>
    have ha : p.advance.taken = p.taken + 1 := rfl
    rw [ih, ha, List.length_cons]
    omega

theorem getElem?_upcoming (h : Consumes p ts q) : p.upcoming[ts.length]? = some q.token := by
  rw [h.upcoming, List.getElem?_append_right (Nat.le_refl _), Nat.sub_self]
  rfl

theorem take_upcoming (h : Consumes p ts q) : p.upcoming.take ts.length = ts := by
  rw [h.upcoming, List.take_left]

theorem remaining_le (h : Consumes p ts q) : q.remaining + ts.length ≤ p.remaining := by
  induction h with
  | refl => exact Nat.le_refl _
  | step ht _ ih => exact Nat.le_trans (Nat.succ_le_succ ih) (advance_remaining_lt ht)

/-- The end of the last token is kept. -/
theorem prevEnd (h : Consumes p ts q) : q.prevEnd = (ts.getLast?.elim p.prevEnd (·.span.stop)) := by
  induction h with
  | refl => rfl
  | step _ _ ih => rw [ih, List.getLast?_cons]; cases List.getLast? _ <;> rfl

/-- The budget has no part in consuming tokens. -/
theorem withBudget (h : Consumes p ts q) (budget : Nat) :
    Consumes { p with budget } ts { q with budget } := by
  induction h with
  | refl => exact .refl _
  | step ht _ ih => exact .step ht ih

/-- Consuming tokens one level of parentheses further in. -/
theorem leave {budget : Nat} (ht : p.token.isEof = false) (hb : p.budget = budget + 1)
    (h : Consumes (p.inner budget) ts q) :
    Consumes p (p.token :: ts) q.leave := by
  have hq : q.leave = { q with budget := budget + 1 } := by rw [Parser.leave, h.budget]; rfl
  have h := h.withBudget (budget + 1)
  rw [← hq, ← hb] at h
  exact .step ht h

end Consumes

end Parser
end Calculator
