import Calculator.Proofs.Lexer.Simulation

/-!
# Registered inputs

The id that an input is registered under shows in places and nowhere else: the tokens, the value
and the error of a registered input are those of its bytes on their own, with the id in each of
their places (`Lexer.ahead_inSource`, `Lexer.evaluate_ofBytes_eq`,
`Lexer.evaluateLeading_ofBytes_eq`).
-/

namespace Calculator

section
variable {α ε δ : Type} {r : Except ε α} {f : ε → δ}

theorem mapError_eq_ok_iff {a : α} : r.mapError f = .ok a ↔ r = .ok a := by
  cases r <;> simp [Except.mapError]

theorem mapError_eq_error_iff {d : δ} :
    r.mapError f = .error d ↔ ∃ e, r = .error e ∧ d = f e := by
  cases r <;> simp [Except.mapError, eq_comm]

end

variable (source : Option SourceId)

/-- The place with the same numbers in another input. -/
def Position.inSource (p : Position) : Position := { p with source }

def Span.inSource : Span → Span := mapPlaces (Position.inSource source)

def Token.inSource : Token → Token := mapPlaces (Position.inSource source)

def Cursor.inSource (c : Cursor) : Cursor := { c with pos := c.pos.inSource source }

def Lexer.inSource (l : Lexer) : Lexer := { l with cursor := l.cursor.inSource source }

/-- The same error about another input. -/
def EvalError.inSource : EvalError → EvalError := mapPlaces (Position.inSource source)

/-! ### What does not depend on the input -/

@[simp] theorem Token.isEof_inSource (t : Token) : (t.inSource source).isEof = t.isEof := rfl

@[simp] theorem EvalError.message_inSource (e : EvalError) :
    (e.inSource source).message = e.message := by
  cases e <;> rfl

@[simp] theorem EvalError.span_inSource (e : EvalError) :
    (e.inSource source).span = e.span.inSource source :=
  e.span_mapPlaces _

/-! ### Reading -/

namespace Cursor

theorem startWith_inSource (b : UInt8) (rest : Bytes) (pos : Position) :
    startWith b rest (pos.inSource source) = (startWith b rest pos).inSource source := by
  unfold startWith
  split
  · rfl
  · split <;> rfl

theorem next?_inSource (c : Cursor) :
    (c.inSource source).next? = c.next?.map fun (b, d) => (b, d.inSource source) := by
  unfold next?
  cases h : c.rest with
  | nil => simp only [inSource, h, Option.map_none]
  | cons b rest =>
    simp only [inSource, h]
    split
    · rfl
    · rw [startWith_inSource]
      rfl

end Cursor

namespace Lexer

/-- The id has no influence on how an input is read. -/
theorem simulation_inSource :
    Simulation (Position.inSource source) id fun c d => d = c.inSource source where
  pos_eq := by
    rintro c _ rfl
    rfl
  beside := by
    rintro c _ rfl
    have hd := c.next?_inSource source
    cases hc : c.next? with
    | none =>
      rw [hc] at hd
      exact .ended (Cursor.ended_of_next?_eq_none hc) (Cursor.ended_of_next?_eq_none hd)
    | some p =>
      rw [hc] at hd
      exact .byte hc hd rfl

private theorem map_ahead_inSource (l : Lexer) :
    l.ahead.map (Token.mapPlaces (Position.inSource source)) =
      (l.inSource source).ahead.map (Token.mapPlaces id) :=
  (simulation_inSource source).map_ahead_eq rfl

/-- The tokens of a registered input are those of its bytes. -/
theorem ahead_inSource (l : Lexer) :
    (l.inSource source).ahead = l.ahead.map (Token.inSource source) := by
  have h := l.map_ahead_inSource source
  rw [Token.mapPlaces_id, List.map_id] at h
  exact h.symm

end Lexer

/-! ### Evaluating -/

namespace Lexer

theorem evaluate_inSource (l : Lexer) (limit : Nat) :
    (l.inSource source).evaluate limit =
      (l.evaluate limit).mapError (EvalError.inSource source) := by
  have h := evaluate_mapPlaces (l.map_ahead_inSource source) limit
  rw [EvalError.mapPlaces_id, mapError_id] at h
  exact h.symm

theorem evaluateLeading_inSource (l : Lexer) (limit : Nat) :
    (l.inSource source).evaluateLeading limit =
      ((l.evaluateLeading limit).map fun (v, t) => (v, t.inSource source)).mapError
        (EvalError.inSource source) := by
  have h := evaluateLeading_mapPlaces (l.map_ahead_inSource source) limit
  rw [mapLeading_id] at h
  exact h.symm

/-- A registered input has the value of its bytes, or their error with its places in the input. -/
theorem evaluate_ofBytes_eq (bytes : Bytes) (limit : Nat) :
    (ofBytes bytes source).evaluate limit =
      ((ofBytes bytes).evaluate limit).mapError (EvalError.inSource source) :=
  (ofBytes bytes).evaluate_inSource source limit

theorem evaluateLeading_ofBytes_eq (bytes : Bytes) (limit : Nat) :
    (ofBytes bytes source).evaluateLeading limit =
      (((ofBytes bytes).evaluateLeading limit).map fun (v, t) => (v, t.inSource source)).mapError
        (EvalError.inSource source) :=
  (ofBytes bytes).evaluateLeading_inSource source limit

end Lexer
end Calculator
