import Mathlib.Control.Monad.Basic
import Calculator.Proofs.PlainDump

/-!
# A NUL ends the input

What stands behind a NUL has no influence: with a NUL and any bytes behind it, an input has the
same tokens at the same places, the same value or error and the same plain dump as without them
(`Lexer.evaluate_nul`).
-/

namespace Calculator

namespace Cursor
variable (tail : Bytes)

/-- The same place of an input that goes on with a NUL and further bytes. -/
def beforeNul (c : Cursor) : Cursor := { c with rest := c.rest ++ 0 :: tail }

/-- The NUL completes no line break that was begun before it. -/
theorem startWith_beforeNul (b : UInt8) (rest : Bytes) (pos : Position) :
    startWith b (rest ++ 0 :: tail) pos = (startWith b rest pos).beforeNul tail := by
  have hh : (rest ++ 0 :: tail).head? = some 0x0a ↔ rest.head? = some 0x0a := by
    cases rest with
    | nil => simp
    | cons => rfl
  unfold startWith
  simp only [hh]
  split
  · rfl
  · split <;> rfl

theorem next?_beforeNul {c d : Cursor} {b : UInt8} (h : c.next? = some (b, d)) :
    (c.beforeNul tail).next? = some (b, d.beforeNul tail) := by
  unfold next? at h ⊢
  cases hr : c.rest with
  | nil =>
    rw [hr] at h
    cases h
  | cons b' rest =>
    simp only [hr] at h
    simp only [beforeNul, hr, List.cons_append]
    split at h
    · next hc =>
      rw [if_pos hc]
      cases h
      rfl
    · next hc =>
      rw [if_neg hc, startWith_beforeNul]
      cases h
      rfl

/-- Where an input is used up, its NUL comes next. -/
theorem ended_beforeNul {c : Cursor} (h : c.next? = none) : (c.beforeNul tail).Ended := by
  rw [Ended, beforeNul, next?_eq_none_iff.mp h]
  intro b hb
  cases hb
  rfl

end Cursor

namespace Lexer

theorem simulation_beforeNul (tail : Bytes) :
    Simulation id id fun c d => d = c.beforeNul tail where
  pos_eq := by
    rintro c _ rfl
    rfl
  beside := by
    rintro c _ rfl
    cases hc : c.next? with
    | none => exact .ended (Cursor.ended_of_next?_eq_none hc) (Cursor.ended_beforeNul tail hc)
    | some p => exact .byte hc (Cursor.next?_beforeNul tail hc) rfl

private theorem map_ahead_beforeNul (bytes tail : Bytes) (source : Option SourceId) :
    (ofBytes bytes source).ahead.map (Token.mapPlaces id) =
      (ofBytes (bytes ++ 0 :: tail) source).ahead.map (Token.mapPlaces id) :=
  (simulation_beforeNul tail).map_ahead_eq rfl

theorem tokens_append_nul (bytes tail : Bytes) (source : Option SourceId) :
    (ofBytes (bytes ++ 0 :: tail) source).tokens = (ofBytes bytes source).tokens := by
  have h := map_ahead_beforeNul bytes tail source
  rw [Token.mapPlaces_id, List.map_id, List.map_id] at h
  exact h.symm

/-- An input ends at a NUL. With a NUL and any bytes behind it, it has the same tokens, the same
value or error, also of what it begins with, and under the same name the same plain dump. -/
theorem evaluate_nul (bytes tail : Bytes) (source : Option SourceId) (limit : Nat) :
    (ofBytes (bytes ++ 0 :: tail) source).tokens = (ofBytes bytes source).tokens ∧
      (ofBytes (bytes ++ 0 :: tail) source).evaluate limit =
        (ofBytes bytes source).evaluate limit ∧
      (ofBytes (bytes ++ 0 :: tail) source).evaluateLeading limit =
        (ofBytes bytes source).evaluateLeading limit ∧
      ∀ (sources sources' : Sources) (source' : Option SourceId),
        sources.nameOf source = sources'.nameOf source' →
        Token.dump sources (ofBytes (bytes ++ 0 :: tail) source).tokens .plain =
          Token.dump sources' (ofBytes bytes source').tokens .plain := by
  have h := map_ahead_beforeNul bytes tail source
  have he := evaluate_mapPlaces h limit
  rw [EvalError.mapPlaces_id, mapError_id, mapError_id] at he
  have hl := evaluateLeading_mapPlaces h limit
  rw [mapLeading_id, mapLeading_id] at hl
  refine ⟨tokens_append_nul bytes tail source, he.symm, hl.symm, ?_⟩
  intro sources sources' source' hn
  rw [dump_plain, dump_plain, tokens_append_nul, hn]

/-- Behind a NUL, a parenthesis is no trailing input, and it is in no dump. -/
theorem evaluate_nul_parenthesis :
    let sources := (({} : Sources).load "sum" [0x31, 0x00, 0x29]).2
    let sources' := (({} : Sources).load "sum" [0x31]).2
    sources.nameOf (some ⟨0⟩) = sources'.nameOf (some ⟨0⟩) ∧
      (ofBytes [0x31, 0x29] (some ⟨0⟩)).evaluate 0 ≠ .ok 1 ∧
      (ofBytes [0x31, 0x00, 0x29] (some ⟨0⟩)).evaluate 0 =
        (ofBytes [0x31] (some ⟨0⟩)).evaluate 0 ∧
      (ofBytes [0x31] (some ⟨0⟩)).evaluate 0 = .ok 1 ∧
      Token.dump sources (ofBytes [0x31, 0x00, 0x29] (some ⟨0⟩)).tokens .plain =
        Token.dump sources' (ofBytes [0x31] (some ⟨0⟩)).tokens .plain := by
  have h := evaluate_nul [0x31] [0x29] (some ⟨0⟩) 0
  exact ⟨rfl, by decide +kernel, h.2.1, by decide +kernel, h.2.2.2 _ _ (some ⟨0⟩) rfl⟩

end Lexer
end Calculator
