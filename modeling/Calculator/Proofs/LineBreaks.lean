import Mathlib.Control.Monad.Basic
import Calculator.Proofs.Cursor.Segments
import Calculator.Proofs.Lexer.Simulation

/-!
# Line breaks of all kinds

In an input that breaks its lines with line feeds alone, these can be replaced by carriage returns
or by both together: the tokens, the value and the error stay the same in all but the bytes of their
places (`Lexer.evaluate_lineBreak`).
-/

namespace Calculator

inductive LineBreak where
  | lineFeed
  | carriageReturn
  /-- A carriage return and a line feed behind it. -/
  | both

namespace LineBreak

def bytes : LineBreak → Bytes
  | .lineFeed => [0x0a]
  | .carriageReturn => [0x0d]
  | .both => [0x0d, 0x0a]

/-- Bytes with a line break in the place of each line feed. -/
def replace (k : LineBreak) (input : Bytes) : Bytes :=
  input.flatMap fun b => if b = 0x0a then k.bytes else [b]

theorem replace_lineFeed_cons (k : LineBreak) (rest : Bytes) :
    k.replace (0x0a :: rest) = k.bytes ++ k.replace rest := by
  rw [replace, List.flatMap_cons, if_pos rfl]
  rfl

theorem replace_cons (k : LineBreak) {b : UInt8} (h : b ≠ 0x0a) (rest : Bytes) :
    k.replace (b :: rest) = b :: k.replace rest := by
  rw [replace, List.flatMap_cons, if_neg h]
  rfl

/-- Carriage returns leave no line feed that they could be taken together with. -/
theorem head?_replace_carriageReturn (rest : Bytes) :
    (carriageReturn.replace rest).head? ≠ some 0x0a := by
  cases rest with
  | nil => exact nofun
  | cons b rest =>
    by_cases hb : b = 0x0a
    · subst hb
      rw [replace_lineFeed_cons]
      exact nofun
    · rw [replace_cons _ hb]
      exact fun h => hb (Option.some.inj h)

end LineBreak

/-- The place by its line and column alone. -/
def Position.withoutByte (p : Position) : Position := { p with byte := 0 }

namespace Cursor
variable {k : LineBreak} {c d : Cursor} {b : UInt8} {rest : Bytes}

/-! ### Reading line breaks -/

/-- The cursor in the first column of the next line, in front of `rest`. -/
def nextLine (c : Cursor) (rest : Bytes) (n : Nat) : Cursor :=
  { rest, pos := { c.pos with byte := c.pos.byte + n, line := c.pos.line + 1, col := 1 } }

theorem next?_lineBreak (hr : c.rest = b :: rest) (hb : b = 0x0a ∨ b = 0x0d)
    (hn : b = 0x0d → rest.head? ≠ some 0x0a) : c.next? = some (b, c.nextLine rest 1) := by
  have hc : isContinuation b = false := by rcases hb with rfl | rfl <;> rfl
  have hf : c.Fresh := .inr fun x hx => by
    rw [hr] at hx
    cases hx
    exact hc
  rw [next?_of_fresh hf hr, startWith, if_neg fun h => hn h.1 h.2, if_pos hb]
  rfl

/-- The first byte of two that break a line does not get to the next line. -/
theorem next?_carriageReturn (hr : c.rest = 0x0d :: 0x0a :: rest) :
    c.next? =
      some (0x0d, { rest := 0x0a :: rest, pos := { c.pos with byte := c.pos.byte + 1 } }) := by
  have hf : c.Fresh := .inr fun x hx => by
    rw [hr] at hx
    cases hx
    rfl
  rw [next?_of_fresh hf hr]
  rfl

/-- A line break leads to the next line, unless a line feed would go on it. -/
theorem skips_lineBreak (hr : c.rest = k.bytes ++ rest)
    (hn : k = .carriageReturn → rest.head? ≠ some 0x0a) :
    c.Skips (c.nextLine rest k.bytes.length) := by
  cases k with
  | lineFeed => exact .one (next?_lineBreak hr (.inl rfl) nofun) rfl
  | carriageReturn => exact .one (next?_lineBreak hr (.inr rfl) fun _ => hn rfl) rfl
  | both =>
    exact .more (next?_carriageReturn hr) rfl (.one (next?_lineBreak rfl (.inl rfl) nofun) rfl)

/-- The cursor in front of `rest`, behind a byte that breaks no line. -/
def inLine (c : Cursor) (b : UInt8) (rest : Bytes) : Cursor :=
  if 0 < c.pending ∧ isContinuation b then
    { rest, pos := { c.pos with byte := c.pos.byte + 1 }, pending := c.pending - 1 }
  else
    { rest, pos := { c.pos with byte := c.pos.byte + 1, col := c.pos.col + 1 },
      pending := followers b }

theorem next?_inLine (hr : c.rest = b :: rest) (hb : ¬ (b = 0x0a ∨ b = 0x0d)) :
    c.next? = some (b, c.inLine b rest) := by
  rw [next?, hr, inLine]
  dsimp only
  split
  · rfl
  · rw [startWith, if_neg fun hn => hb (.inr hn.1), if_neg hb]

/-! ### Inputs with other line breaks -/

/-- The inputs differ in their line breaks, and both cursors are at the same line and column. -/
structure Rewritten (k : LineBreak) (c d : Cursor) : Prop where
  rest_eq : d.rest = k.replace c.rest
  notMem : 0x0d ∉ c.rest
  pending_eq : d.pending = c.pending
  pos_eq : c.pos.withoutByte = d.pos.withoutByte

namespace Rewritten

theorem lineFeed (h : Rewritten k c d) (hr : c.rest = 0x0a :: rest) :
    Beside (Rewritten k) c d := by
  have hd : d.rest = k.bytes ++ k.replace rest := by
    rw [h.rest_eq, hr, LineBreak.replace_lineFeed_cons]
  have hm := h.notMem
  rw [hr] at hm
  refine .blanks (skips_lineBreak (k := .lineFeed) hr nofun) (skips_lineBreak hd ?_) ?_
  · rintro rfl
    exact LineBreak.head?_replace_carriageReturn rest
  · refine ⟨rfl, fun hmem => hm (List.mem_cons_of_mem _ hmem), rfl, ?_⟩
    exact congrArg (fun p : Position => { p with line := p.line + 1, col := 1 }) h.pos_eq

/-- Any other byte is read alike. -/
theorem inLine (h : Rewritten k c d) (hr : c.rest = b :: rest) :
    Rewritten k (c.inLine b rest) (d.inLine b (k.replace rest)) := by
  have hm := h.notMem
  rw [hr] at hm
  have hm : 0x0d ∉ rest := fun hmem => hm (List.mem_cons_of_mem _ hmem)
  rw [Cursor.inLine, Cursor.inLine, h.pending_eq]
  split
  · exact ⟨rfl, hm, rfl, h.pos_eq⟩
  · exact ⟨rfl, hm, rfl, congrArg (fun p : Position => { p with col := p.col + 1 }) h.pos_eq⟩

theorem beside (h : Rewritten k c d) : Beside (Rewritten k) c d := by
  cases hr : c.rest with
  | nil =>
    have hd : d.rest = [] := by rw [h.rest_eq, hr]; rfl
    exact .ended (ended_of_next?_eq_none (next?_eq_none_iff.mpr hr))
      (ended_of_next?_eq_none (next?_eq_none_iff.mpr hd))
  | cons b rest =>
    by_cases hb : b = 0x0a
    · subst hb
      exact h.lineFeed hr
    · have hd : d.rest = b :: k.replace rest := by
        rw [h.rest_eq, hr, LineBreak.replace_cons k hb]
      have hne : ¬ (b = 0x0a ∨ b = 0x0d) := by
        rintro (rfl | rfl)
        · exact hb rfl
        · exact h.notMem (hr ▸ List.mem_cons_self)
      exact .byte (next?_inLine hr hne) (next?_inLine hd hne) (h.inLine hr)

end Rewritten
end Cursor

namespace Lexer

theorem simulation_rewritten (k : LineBreak) :
    Simulation Position.withoutByte Position.withoutByte (Cursor.Rewritten k) where
  pos_eq h := h.pos_eq
  beside h := h.beside

/-- In an input without carriage returns, line feeds can be replaced by line breaks of any kind: the
values of the tokens, their lines and columns, and the value or the error at its lines and columns
stay the same, also of what the input begins with. -/
theorem evaluate_lineBreak (bytes : Bytes) (source : Option SourceId) (limit : Nat)
    (h : 0x0d ∉ bytes) (k : LineBreak) :
    (ofBytes (k.replace bytes) source).tokens.map (Token.mapPlaces Position.withoutByte) =
        (ofBytes bytes source).tokens.map (Token.mapPlaces Position.withoutByte) ∧
      ((ofBytes (k.replace bytes) source).evaluate limit).mapError
          (EvalError.mapPlaces Position.withoutByte) =
        ((ofBytes bytes source).evaluate limit).mapError
          (EvalError.mapPlaces Position.withoutByte) ∧
      mapLeading Position.withoutByte ((ofBytes (k.replace bytes) source).evaluateLeading limit) =
        mapLeading Position.withoutByte ((ofBytes bytes source).evaluateLeading limit) := by
  have hr : Cursor.Rewritten k (ofBytes bytes source).cursor
      (ofBytes (k.replace bytes) source).cursor := ⟨rfl, h, rfl, rfl⟩
  have ht := (simulation_rewritten k).map_ahead_eq hr
  exact ⟨ht.symm, (evaluate_mapPlaces ht limit).symm, (evaluateLeading_mapPlaces ht limit).symm⟩

/-- With carriage returns and line feeds, the division by zero in `1`, `/` and `0` on three lines is
still from the first line to the third. -/
theorem evaluate_lineBreak_three_lines :
    0x0d ∉ ([0x31, 0x0a, 0x2f, 0x0a, 0x30] : Bytes) ∧
      (ofBytes [0x31, 0x0d, 0x0a, 0x2f, 0x0d, 0x0a, 0x30]).evaluate 0 =
        .error (.divisionByZero ⟨⟨none, 0, 1, 1⟩, ⟨none, 7, 3, 2⟩⟩) ∧
      ((ofBytes [0x31, 0x0d, 0x0a, 0x2f, 0x0d, 0x0a, 0x30]).evaluate 0).mapError
          (EvalError.mapPlaces Position.withoutByte) =
        ((ofBytes [0x31, 0x0a, 0x2f, 0x0a, 0x30]).evaluate 0).mapError
          (EvalError.mapPlaces Position.withoutByte) := by
  have h : 0x0d ∉ ([0x31, 0x0a, 0x2f, 0x0a, 0x30] : Bytes) := by decide
  exact ⟨h, by decide +kernel, (evaluate_lineBreak _ none 0 h .both).2.1⟩

end Lexer
end Calculator
