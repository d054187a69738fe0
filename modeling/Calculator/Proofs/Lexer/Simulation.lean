import Calculator.Proofs.Lexer.Rendering
import Calculator.Proofs.Relocation

/-!
# Cursors side by side

Cursors that get over the same bytes, but for blanks in the place of other blanks, lie before the
same tokens. What has to be shown of such cursors is how they go on (`Cursor.Beside`) and how their
positions compare (`Lexer.Simulation`); that their tokens are the same but for the change of places
follows (`Lexer.Simulation.map_ahead_eq`).
-/

namespace Calculator

namespace Cursor
variable {c d e : Cursor} {b : UInt8}

/-! ### Steps -/

/-- Nothing is left of an input: all of it was read, or a NUL comes next. -/
def Ended (c : Cursor) : Prop := ∀ b ∈ c.rest.head?, b = 0

theorem ended_of_next?_eq_none (h : c.next? = none) : c.Ended := by
  rw [Ended, next?_eq_none_iff.mp h]
  exact nofun

/-- Blanks, at least one, lead from `c` to `d`. -/
inductive Skips : Cursor → Cursor → Prop
  | one {c d : Cursor} {b : UInt8} (h : c.next? = some (b, d)) (hb : Ascii.isBlank b = true) :
    Skips c d
  | more {c d e : Cursor} {b : UInt8} (h : c.next? = some (b, d)) (hb : Ascii.isBlank b = true) :
    Skips d e → Skips c e

/-- How cursors go on side by side: both are at the end, the same byte comes next, or blanks do.
Behind this they are related again. -/
inductive Beside (R : Cursor → Cursor → Prop) (c d : Cursor) : Prop
  | ended (hc : c.Ended) (hd : d.Ended)
  | byte {b : UInt8} {c' d' : Cursor} (hc : c.next? = some (b, c')) (hd : d.next? = some (b, d'))
    (h : R c' d')
  | blanks {c' d' : Cursor} (hc : c.Skips c') (hd : d.Skips d') (h : R c' d')

/-! ### Runs -/

theorem takeWhile_of_next? (h : c.next? = some (b, d)) {p : UInt8 → Bool} (hb : p b = true) :
    c.takeWhile p = (b :: (d.takeWhile p).1, (d.takeWhile p).2) := by
  rw [takeWhile, rest_eq_of_next? h, List.takeWhile_cons_of_pos hb, List.length_cons]
  simp only [take, h]
  rfl

theorem takeWhile_eq_nil {p : UInt8 → Bool} (h : ∀ b ∈ c.rest.head?, p b = false) :
    c.takeWhile p = ([], c) := by
  rw [takeWhile]
  cases hr : c.rest with
  | nil => rfl
  | cons b rest =>
    rw [List.takeWhile_cons_of_neg (Bool.eq_false_iff.mp (h b (by rw [hr]; rfl)))]
    rfl

theorem head?_of_next? (h : c.next? = some (b, d)) : c.rest.head? = some b := by
  rw [rest_eq_of_next? h]
  rfl

theorem takeWhile_of_next?_neg (h : c.next? = some (b, d)) {p : UInt8 → Bool} (hb : p b = false) :
    c.takeWhile p = ([], c) := by
  refine takeWhile_eq_nil fun b' hb' => ?_
  rw [head?_of_next? h] at hb'
  cases hb'
  exact hb

theorem length_lt_of_next? (h : c.next? = some (b, d)) : d.rest.length < c.rest.length := by
  rw [rest_eq_of_next? h]
  exact Nat.lt_succ_self _

namespace Skips

theorem length_lt (h : c.Skips d) : d.rest.length < c.rest.length := by
  induction h with
  | one h _ => exact length_lt_of_next? h
  | more h _ _ ih => exact Nat.lt_trans ih (length_lt_of_next? h)

theorem exists_head? (h : c.Skips d) : ∃ b ∈ c.rest.head?, Ascii.isBlank b = true := by
  cases h with
  | one h hb | more h hb => exact ⟨_, head?_of_next? h, hb⟩

/-- A run of a class that has the blanks goes over them. -/
theorem takeWhile_snd (h : c.Skips d) {p : UInt8 → Bool}
    (hp : ∀ b, Ascii.isBlank b = true → p b = true) :
    (c.takeWhile p).2 = (d.takeWhile p).2 := by
  induction h with
  | one h hb => rw [takeWhile_of_next? h (hp _ hb)]
  | more h hb _ ih => rw [takeWhile_of_next? h (hp _ hb), ih]

/-- A run of a class that has no blank ends in front of them. -/
theorem takeWhile_eq_nil (h : c.Skips d) {p : UInt8 → Bool}
    (hp : ∀ b, Ascii.isBlank b = true → p b = false) : c.takeWhile p = ([], c) := by
  cases h with
  | one h hb | more h hb => exact takeWhile_of_next?_neg h (hp _ hb)

end Skips

theorem Ended.takeWhile_eq_nil (h : c.Ended) {p : UInt8 → Bool} (hz : p 0 = false) :
    c.takeWhile p = ([], c) := by
  refine Cursor.takeWhile_eq_nil fun b hb => ?_
  rw [h b hb, hz]

end Cursor

namespace Lexer

theorem isDigit_of_isBlank (b : UInt8) (h : Ascii.isBlank b = true) : Ascii.isDigit b = false :=
  Token.Value.goesOn_of_isBlank (.uint 0) h

theorem isNamePart_of_isBlank (b : UInt8) (h : Ascii.isBlank b = true) :
    Ascii.isNamePart b = false :=
  Token.Value.goesOn_of_isBlank (.ident []) h

theorem scan_of_ended {c : Cursor} (h : c.Ended) : scan c = (.eof, c) := by
  unfold scan
  cases hn : c.next? with
  | none => rfl
  | some p =>
    obtain ⟨b, d⟩ := p
    exact if_pos (h b (Cursor.head?_of_next? hn))

/-! ### Simulations -/

/-- Related cursors are at the same place but for a change, and go on side by side. -/
structure Simulation (f g : Position → Position) (R : Cursor → Cursor → Prop) : Prop where
  pos_eq {c d : Cursor} (h : R c d) : f c.pos = g d.pos
  beside {c d : Cursor} (h : R c d) : Cursor.Beside R c d

namespace Simulation
variable {f g : Position → Position} {R : Cursor → Cursor → Prop} {c d : Cursor}

/-- Runs of a class of bytes that has all blanks or none lead to related cursors, and if it has
none, the bytes are the same. The induction is on what is left of one of the inputs. -/
theorem takeWhile (h : Simulation f g R) (hr : R c d) {p : UInt8 → Bool} (hz : p 0 = false)
    {blanks : Bool} (hp : ∀ b, Ascii.isBlank b = true → p b = blanks) :
    R (c.takeWhile p).2 (d.takeWhile p).2 ∧
      (blanks = false → (c.takeWhile p).1 = (d.takeWhile p).1) := by
  induction hn : c.rest.length using Nat.strongRecOn generalizing c d with
  | ind n ih =>
    cases h.beside hr with
    | ended hc hd =>
      rw [hc.takeWhile_eq_nil hz, hd.takeWhile_eq_nil hz]
      exact ⟨hr, fun _ => rfl⟩
    | @byte b c' d' hc hd hr' =>
      cases hb : p b with
      | false =>
        rw [Cursor.takeWhile_of_next?_neg hc hb, Cursor.takeWhile_of_next?_neg hd hb]
        exact ⟨hr, fun _ => rfl⟩
      | true =>
        obtain ⟨hrest, hrun⟩ := ih _ (hn ▸ Cursor.length_lt_of_next? hc) hr' rfl
        rw [Cursor.takeWhile_of_next? hc hb, Cursor.takeWhile_of_next? hd hb]
        exact ⟨hrest, fun hf => congrArg (b :: ·) (hrun hf)⟩
    | blanks hc hd hr' =>
      cases blanks with
      | false =>
        rw [hc.takeWhile_eq_nil hp, hd.takeWhile_eq_nil hp]
        exact ⟨hr, fun _ => rfl⟩
      | true =>
        rw [hc.takeWhile_snd hp, hd.takeWhile_snd hp]
        exact ⟨(ih _ (hn ▸ hc.length_lt) hr' rfl).1, nofun⟩

/-- Related cursors are in front of the same token, and behind it they are related again. -/
theorem scan (h : Simulation f g R) (hr : R c d)
    (hc : ∀ b ∈ c.rest.head?, Ascii.isBlank b = false) :
    (Lexer.scan c).1 = (Lexer.scan d).1 ∧ R (Lexer.scan c).2 (Lexer.scan d).2 := by
  have digits := h.takeWhile hr (p := Ascii.isDigit) rfl isDigit_of_isBlank
  have name := h.takeWhile hr (p := Ascii.isNamePart) rfl isNamePart_of_isBlank
  cases h.beside hr with
  | ended hc hd =>
    rw [scan_of_ended hc, scan_of_ended hd]
    exact ⟨rfl, hr⟩
  | blanks hc' =>
    obtain ⟨b, hb, hblank⟩ := hc'.exists_head?
    rw [hc b hb] at hblank
    cases hblank
  | @byte b c' d' hc' hd' hr' =>
    unfold Lexer.scan
    simp only [hc', hd']
    split
    · exact ⟨rfl, hr⟩
    split
    · rw [digits.2 rfl]
      exact ⟨rfl, digits.1⟩
    split
    · rw [name.2 rfl]
      exact ⟨rfl, name.1⟩
    · exact ⟨rfl, hr'⟩

theorem advance (h : Simulation f g R) {l m : Lexer} (hr : R l.cursor m.cursor) :
    l.advance.1.mapPlaces f = m.advance.1.mapPlaces g ∧
      R l.advance.2.cursor m.advance.2.cursor := by
  have hstart := (h.takeWhile hr (p := Ascii.isBlank) rfl fun _ hb => hb).1
  obtain ⟨hv, hafter⟩ := h.scan hstart (l.cursor.head?_rest_takeWhile Ascii.isBlank)
  refine ⟨?_, hafter⟩
  simp only [Lexer.advance, Token.mapPlaces, Span.mapPlaces, hv, h.pos_eq hstart, h.pos_eq hafter]

/-- Lexers at related cursors have the same tokens but for the change of places. -/
theorem map_ahead_eq (h : Simulation f g R) {l m : Lexer} (hr : R l.cursor m.cursor) :
    l.ahead.map (Token.mapPlaces f) = m.ahead.map (Token.mapPlaces g) := by
  induction hn : l.cursor.rest.length using Nat.strongRecOn generalizing l m with
  | ind n ih =>
    obtain ⟨ht, hafter⟩ := h.advance hr
    have hle := l.advance_rest_le
    have he := congrArg Token.isEof ht
    rw [Token.isEof_mapPlaces, Token.isEof_mapPlaces] at he
    rw [l.ahead_eq, m.ahead_eq, List.map_cons, List.map_cons, ht, ← he]
    split
    · rfl
    · next hf =>
      rw [if_neg hf] at hle
      rw [ih _ (by omega) hafter rfl]

end Simulation
end Lexer
end Calculator
