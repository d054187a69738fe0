import Calculator.Proofs.Layout

/-!
# Tokens at other places

Inputs whose tokens are the same but for a change of places come to the same value, or to the same
error but for this change (`Lexer.evaluate_mapPlaces`, `Lexer.evaluateLeading_mapPlaces`).
-/

namespace Calculator

section
variable (f : Position → Position)

/-- The span between the changed places. -/
def Span.mapPlaces (s : Span) : Span := ⟨f s.start, f s.stop⟩

def Token.mapPlaces (t : Token) : Token := { t with span := t.span.mapPlaces f }

def EvalError.mapPlaces : EvalError → EvalError
  | .unexpectedToken expected actual => .unexpectedToken expected (actual.mapPlaces f)
  | .divisionByZero span => .divisionByZero (span.mapPlaces f)
  | .recursionLimit span => .recursionLimit (span.mapPlaces f)

/-- What the beginning of an input comes to, at changed places. -/
def mapLeading (r : Except EvalError (Int32 × Token)) : Except EvalError (Int32 × Token) :=
  (r.map fun (v, t) => (v, t.mapPlaces f)).mapError (EvalError.mapPlaces f)

@[simp] theorem Token.isEof_mapPlaces (t : Token) : (t.mapPlaces f).isEof = t.isEof := rfl

@[simp] theorem EvalError.span_mapPlaces (e : EvalError) :
    (e.mapPlaces f).span = e.span.mapPlaces f := by
  cases e <;> rfl

@[simp] theorem EvalError.unplaced_mapPlaces (e : EvalError) :
    (e.mapPlaces f).unplaced = e.unplaced := by
  cases e <;> rfl

end

/-! ### Places as they are -/

@[simp] theorem Token.mapPlaces_id : Token.mapPlaces id = id := rfl

@[simp] theorem EvalError.mapPlaces_id : EvalError.mapPlaces id = id := by
  funext e
  cases e <;> rfl

@[simp] theorem mapError_id {ε α : Type} (r : Except ε α) : r.mapError id = r := by
  cases r <;> rfl

@[simp] theorem mapLeading_id (r : Except EvalError (Int32 × Token)) : mapLeading id r = r := by
  cases r <;> simp [mapLeading, Except.map]

/-! ### Errors and results -/

/-- An error is what it tells apart from places, and where it is. -/
theorem EvalError.eq_of_unplaced_eq {e e' : EvalError} (h : e.unplaced = e'.unplaced)
    (hs : e.span = e'.span) : e = e' := by
  rcases e with ⟨expected, v, s⟩ | s | s <;> rcases e' with ⟨expected', v', s'⟩ | s' | s' <;>
    cases h <;> cases hs <;> rfl

section
variable {f g : Position → Position} {ts us : List Token}

theorem Span.Joins.mapPlaces {s : Span} {i j : Nat} (h : s.Joins ts i j) (f : Position → Position) :
    (s.mapPlaces f).Joins (ts.map (Token.mapPlaces f)) i j := by
  have hstart := congrArg (Option.map f) h.start_eq
  have hstop := congrArg (Option.map f) h.stop_eq
  rw [Option.map_map] at hstart hstop
  constructor
  · rw [List.getElem?_map, Option.map_map]
    exact hstart
  · rw [List.getElem?_map, Option.map_map]
    exact hstop

theorem Span.Joins.unique {s s' : Span} {i j : Nat} (h : s.Joins ts i j) (h' : s'.Joins ts i j) :
    s = s' := by
  obtain ⟨start, stop⟩ := s
  obtain ⟨start', stop'⟩ := s'
  cases h.start_eq.symm.trans h'.start_eq
  cases h.stop_eq.symm.trans h'.stop_eq
  rfl

/-- Errors that tell the same and are at the same tokens are the same but for the change of the
places of these tokens. -/
theorem EvalError.Twin.mapPlaces_eq {e e' : EvalError} (h : e.Twin ts us e')
    (ht : ts.map (Token.mapPlaces f) = us.map (Token.mapPlaces g)) :
    e.mapPlaces f = e'.mapPlaces g := by
  obtain ⟨hu, i, j, hj, hj'⟩ := h
  refine eq_of_unplaced_eq ?_ ?_
  · rw [unplaced_mapPlaces, unplaced_mapPlaces, hu]
  · have hs := hj'.mapPlaces g
    rw [← ht] at hs
    rw [span_mapPlaces, span_mapPlaces]
    exact (hj.mapPlaces f).unique hs

theorem Alike.mapPlaces_eq {r r' : Except EvalError Int32} (h : Alike Eq ts us r r')
    (ht : ts.map (Token.mapPlaces f) = us.map (Token.mapPlaces g)) :
    r.mapError (EvalError.mapPlaces f) = r'.mapError (EvalError.mapPlaces g) := by
  cases h with
  | ok h =>
    rw [h]
    rfl
  | error h => exact congrArg Except.error (h.mapPlaces_eq ht)

theorem SameLeading.mapPlaces_eq {a b : Int32 × Token} (h : SameLeading ts us a b)
    (ht : ts.map (Token.mapPlaces f) = us.map (Token.mapPlaces g)) :
    (a.1, a.2.mapPlaces f) = (b.1, b.2.mapPlaces g) := by
  obtain ⟨hv, -, i, ha, hb⟩ := h
  have hi := congrArg (·[i]?) ht
  simp only [List.getElem?_map, ha, hb, Option.map_some, Option.some.injEq] at hi
  rw [hv, hi]

theorem Alike.mapLeading_eq {r r' : Except EvalError (Int32 × Token)}
    (h : Alike (SameLeading ts us) ts us r r')
    (ht : ts.map (Token.mapPlaces f) = us.map (Token.mapPlaces g)) :
    mapLeading f r = mapLeading g r' := by
  cases h with
  | ok h => exact congrArg Except.ok (h.mapPlaces_eq ht)
  | error h => exact congrArg Except.error (h.mapPlaces_eq ht)

end

/-! ### Evaluating -/

namespace Lexer
variable {f g : Position → Position} {l m : Lexer}

theorem map_value_eq (h : l.ahead.map (Token.mapPlaces f) = m.ahead.map (Token.mapPlaces g)) :
    l.ahead.map (·.value) = m.ahead.map (·.value) := by
  have hv := congrArg (List.map (·.value)) h
  rwa [List.map_map, List.map_map] at hv

theorem evaluate_mapPlaces (h : l.ahead.map (Token.mapPlaces f) = m.ahead.map (Token.mapPlaces g))
    (limit : Nat) :
    (l.evaluate limit).mapError (EvalError.mapPlaces f) =
      (m.evaluate limit).mapError (EvalError.mapPlaces g) :=
  (Parser.Twin.ofLexer (map_value_eq h) limit).whole.mapPlaces_eq h

theorem evaluateLeading_mapPlaces
    (h : l.ahead.map (Token.mapPlaces f) = m.ahead.map (Token.mapPlaces g)) (limit : Nat) :
    mapLeading f (l.evaluateLeading limit) = mapLeading g (m.evaluateLeading limit) :=
  (Parser.Twin.ofLexer (map_value_eq h) limit).leading.mapLeading_eq h

end Lexer
end Calculator
