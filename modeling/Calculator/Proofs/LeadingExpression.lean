import Mathlib.Order.Bounds.Basic
import Calculator.Evaluate
import Calculator.Proofs.Parser.Failures

/-!
# The expression that an input begins with

An input begins with a value exactly if its first tokens are those of an expression that the limit
allows and that denotes this value, and no operator comes next; the token shown is the one that
comes next (`Lexer.evaluateLeading_eq_ok_iff`). No longer part of the input is an expression.
-/

namespace Calculator

/-- The tokens before the index `i` are those of a sum, and the token `t` at this index does not go
on with it. -/
structure Leads (tokens : List Token) (i : Nat) (e : Expr .sum) (t : Token) : Prop where
  values_eq : (tokens.take i).map (·.value) = e.values
  getElem?_eq : tokens[i]? = some t
  not_operator (op : BinOp) : t.value ≠ .other op.byte

namespace Leads
variable {tokens : List Token} {i : Nat} {e : Expr .sum} {t : Token}

theorem tokens_eq (h : Leads tokens i e t) :
    tokens = tokens.take i ++ t :: tokens.drop (i + 1) := by
  obtain ⟨hi, rfl⟩ := List.getElem?_eq_some_iff.mp h.getElem?_eq
  rw [← List.drop_eq_getElem_cons hi, List.take_append_drop]

/-- What goes further than the sum is no expression. -/
theorem isGreatest (h : Leads tokens i e t) :
    IsGreatest {j | ∃ e : Expr .sum, (tokens.take j).map (·.value) = e.values} i := by
  refine ⟨⟨e, h.values_eq⟩, fun j ⟨e', he'⟩ => Nat.le_of_not_lt fun hij => ?_⟩
  obtain ⟨n, rfl⟩ := Nat.exists_eq_add_of_lt hij
  have hd : tokens.drop i = t :: tokens.drop (i + 1) :=
    List.append_cancel_left ((List.take_append_drop i tokens).trans h.tokens_eq)
  rw [Nat.add_assoc, List.take_add, hd, List.take_succ_cons, List.map_append, h.values_eq,
    List.map_cons] at he'
  obtain ⟨op, hop⟩ := Expr.exists_operator_of_values_eq he'.symm
  exact h.not_operator op hop

end Leads

/-- Where a sum has a value, it leads, and what comes next is the next token. -/
theorem Parser.Gives.leads {p q : Parser} {v : Int32} (h : Gives (.phrase .sum) p v q) :
    ∃ i e, Leads p.upcoming i e q.token ∧ e.depth ≤ p.budget ∧ e.denote = some v := by
  obtain ⟨e, he⟩ := h.reads
  refine ⟨e.tokens.length, e, ⟨?_, he.consumes.getElem?_upcoming, h.settled.ne_byte⟩, he.depth_le,
    e.evaluate_eq_ok_iff.mp he.evaluate_eq⟩
  rw [he.consumes.take_upcoming]
  rfl

/-- A sum that leads is read, with the value that it denotes. -/
theorem Leads.gives {p : Parser} {i : Nat} {e : Expr .sum} {t : Token} {v : Int32}
    (h : Leads p.upcoming i e t) (hd : e.depth ≤ p.budget) (hv : e.denote = some v) :
    ∃ q, Parser.Gives (.phrase .sum) p v q ∧ q.token = t := by
  -- The expression over the places of its tokens in the input has exactly these tokens.
  have ht := e.tokens_placed h.values_eq (t :: p.upcoming.drop (i + 1))
  rw [← h.tokens_eq] at ht
  generalize hx : e.placed (p.upcoming.map (·.span)) = x at ht
  have hu : p.upcoming = x.tokens ++ t :: p.upcoming.drop (i + 1) := by rw [ht, ← h.tokens_eq]
  have hb : x.depth ≤ p.budget := by rwa [← hx, e.depth_placed]
  have hr := Parser.reaches x hu hb (Parser.detached_cons fun op _ => h.not_operator op)
  refine hr.gives hu h.not_operator (x.evaluate_eq_ok_iff.mpr ?_)
  rw [← hx, e.denote_placed, hv]

namespace Lexer

/-- An input begins with a value, and a token comes next, exactly if the tokens before this one are
those of an expression that nests parentheses no deeper than the limit and denotes the value, and
the token is no operator. The token is the end if nothing is left of the input, and what goes
further is no expression. -/
theorem evaluateLeading_eq_ok_iff (bytes : Bytes) (source : Option SourceId) (limit : Nat)
    (v : Int32) (t : Token) :
    ((ofBytes bytes source).evaluateLeading limit = .ok (v, t) ↔
      ∃ i e, Leads (ofBytes bytes source).tokens i e t ∧ e.depth ≤ limit ∧ e.denote = some v) ∧
    ∀ i e, Leads (ofBytes bytes source).tokens i e t →
      (t.isEof = true ↔ i + 1 = (ofBytes bytes source).tokens.length) ∧
      IsGreatest {j | ∃ e : Expr .sum,
        ((ofBytes bytes source).tokens.take j).map (·.value) = e.values} i := by
  rw [tokens_ofBytes]
  refine ⟨?_, fun i e h => ⟨isEof_iff_of_getElem?_ahead h.getElem?_eq, h.isGreatest⟩⟩
  rw [← Parser.upcoming_ofLexer _ limit, evaluateLeading]
  constructor
  · intro h
    have hl := (Parser.ofLexer (ofBytes bytes source) limit).leading_cases
    generalize (Parser.ofLexer (ofBytes bytes source) limit).leading = o at h hl
    cases hl with
    | ok hg =>
      cases h
      exact hg.leads
    | fails => cases h
  · rintro ⟨i, e, h, hd, hv⟩
    obtain ⟨q, hg, rfl⟩ := h.gives hd hv
    rw [Parser.leading_of_gives hg]

/-- Of `1+2)` the sum leads, up to the parenthesis. -/
theorem evaluateLeading_sum_before_parenthesis :
    (ofBytes [0x31, 0x2b, 0x32, 0x29]).evaluateLeading 0 =
        .ok (3, ⟨.other 0x29, ⟨⟨none, 3, 1, 4⟩, ⟨none, 4, 1, 5⟩⟩⟩) ∧
      IsGreatest {j | ∃ e : Expr .sum,
        ((ofBytes [0x31, 0x2b, 0x32, 0x29]).tokens.take j).map (·.value) = e.values} 3 := by
  let e : Expr .sum :=
    .sum (.term (.factor (.unsigned (.literal 1 {})))) .add (by decide) {}
      (.factor (.unsigned (.literal 2 {})))
  let t : Token := ⟨.other 0x29, ⟨⟨none, 3, 1, 4⟩, ⟨none, 4, 1, 5⟩⟩⟩
  have he : Leads (ofBytes [0x31, 0x2b, 0x32, 0x29]).tokens 3 e t := by
    refine ⟨by decide +kernel, by decide +kernel, fun op => ?_⟩
    cases op <;> decide
  have h := evaluateLeading_eq_ok_iff [0x31, 0x2b, 0x32, 0x29] none 0 3 t
  exact ⟨h.1.mpr ⟨3, e, he, by decide, by decide +kernel⟩, (h.2 3 e he).2⟩

end Lexer
end Calculator
