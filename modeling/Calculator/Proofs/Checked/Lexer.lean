import Calculator.Proofs.Checked.Cursor
import Calculator.Proofs.Lexer.Calls

/-!
# A lexer over a cursor that checks

The lexer with a checked cursor and checked digits. In front of the same bytes it answers every
call as the lexer does (`Checked.Lexer.Tracks.history`), and the tokens it gives have a length
(`Checked.Lexer.Tracks.spanLength_of_mem`).
-/

namespace Calculator.Checked

structure Lexer where
  cursor : Cursor
  /-- The end of the input has been delivered as an item of the stream. -/
  ended : Bool := false

/-- How many bytes a stretch takes up. -/
def spanLength (s : Span) : Run Nat := sub s.stop.byte s.start.byte

namespace Lexer

/-- The numeral that digits form, modulo 2^32. -/
def numeral (digits : Bytes) : Run UInt32 :=
  digits.foldlM (fun n b => do
    let digit ← subByte b 0x30
    pure (n * 10 + digit.toUInt32)) 0

/-- Reads a token where no blank stands. -/
def scan (k : Cursor) : Run (Token.Value × Cursor) :=
  match k.peek with
  | none => pure (.eof, k)
  | some b =>
    if b = 0 then pure (.eof, k)
    else if Ascii.isDigit b then do
      let (digits, k) ← k.takeWhile Ascii.isDigit
      let n ← numeral digits
      pure (.uint n, k)
    else if Ascii.isNameStart b then do
      let (name, k) ← k.takeWhile Ascii.isNamePart
      pure (.ident name, k)
    else do
      let (_, k) ← k.next
      pure (.other b, k)

/-- Takes the next token. -/
def advance (l : Lexer) : Run (Token × Lexer) := do
  let (_, start) ← l.cursor.takeWhile Ascii.isBlank
  let (value, after) ← scan start
  pure ({ value, span := ⟨start.pos, after.pos⟩ }, { l with cursor := after })

/-- Takes the next item of the stream of tokens, if there is one. -/
def next (l : Lexer) : Run (Option Token × Lexer) :=
  if l.ended then pure (none, l)
  else do
    let (token, after) ← l.advance
    pure (some token, { after with ended := token.isEof })

def ask (l : Lexer) : Calculator.Lexer.Call → Run (Option Token × Lexer)
  | .advance => do
    let (token, after) ← l.advance
    pure (some token, after)
  | .next => l.next

/-- Calls, one after the other, with their answers, and the lexer after them. -/
def history (l : Lexer) :
    List Calculator.Lexer.Call → Run (List (Calculator.Lexer.Call × Option Token) × Lexer)
  | [] => pure ([], l)
  | c :: calls => do
    let (a, l) ← l.ask c
    let (as, l) ← l.history calls
    pure ((c, a) :: as, l)

/-- A checked lexer is where a lexer over the same bytes is. -/
structure Tracks (bytes : Bytes) (k : Lexer) (l : Calculator.Lexer) : Prop where
  cursor : k.cursor.Tracks bytes l.cursor
  ended : k.ended = l.ended

/-- No digit is less than the first one. -/
theorem numeral_eq {digits : Bytes} (h : ∀ b ∈ digits, Ascii.isDigit b = true) :
    numeral digits = pure (Calculator.Lexer.numeral digits) := by
  unfold numeral Calculator.Lexer.numeral
  generalize (0 : UInt32) = n
  induction digits generalizing n with
  | nil => rfl
  | cons b digits ih =>
    obtain ⟨hb, h⟩ := List.forall_mem_cons.mp h
    simp only [Ascii.isDigit, Bool.and_eq_true, decide_eq_true_eq] at hb
    rw [List.foldlM_cons, subByte_of_le hb.1, pure_bind, pure_bind, ih h, List.foldl_cons]

variable {bytes : Bytes} {k : Cursor} {c : Calculator.Cursor}

theorem scan_eq (h : k.Tracks bytes c) :
    Answers (Cursor.Tracks bytes) (scan k) (Calculator.Lexer.scan c).1
      (Calculator.Lexer.scan c).2 := by
  unfold scan Calculator.Lexer.scan
  rw [Cursor.peek, h.rest]
  cases hd : c.next? with
  | none =>
    rw [Calculator.Cursor.next?_eq_none_iff.mp hd]
    exact .pure h
  | some p =>
    obtain ⟨b, d⟩ := p
    rw [Calculator.Cursor.rest_eq_of_next? hd, List.head?_cons]
    dsimp only
    split
    · exact .pure h
    · split
      · refine (h.takeWhile Ascii.isDigit).bind fun k h' => ?_
        rw [numeral_eq fun b => Calculator.Cursor.of_mem_takeWhile, pure_bind]
        exact .pure h'
      · split
        · exact (h.takeWhile Ascii.isNamePart).bind fun k h' => .pure h'
        · refine h.next.bind fun k h' => .pure ?_
          rwa [Calculator.Cursor.read_of_some hd] at h'

namespace Tracks
variable {k : Lexer} {l : Calculator.Lexer}

theorem advance (h : k.Tracks bytes l) :
    Answers (Tracks bytes) k.advance l.advance.1 l.advance.2 := by
  refine (h.cursor.takeWhile Ascii.isBlank).bind fun start hs =>
    (scan_eq hs).bind fun after ha => ?_
  dsimp only
  rw [hs.pos, ha.pos]
  exact .pure ⟨ha, h.ended⟩

theorem next (h : k.Tracks bytes l) :
    Answers (Tracks bytes) k.next (Calculator.Lexer.Call.next.run l).1
      (Calculator.Lexer.Call.next.run l).2 := by
  rw [Lexer.next, h.ended]
  cases he : l.ended with
  | true =>
    rw [Calculator.Lexer.run_next_of_ended he]
    exact .pure h
  | false =>
    rw [Calculator.Lexer.run_next_of_not_ended he]
    exact h.advance.bind fun after ha => .pure ⟨ha.cursor, rfl⟩

theorem ask (c : Calculator.Lexer.Call) (h : k.Tracks bytes l) :
    Answers (Tracks bytes) (k.ask c) (c.run l).1 (c.run l).2 := by
  cases c with
  | advance => exact h.advance.bind fun after ha => .pure ha
  | next => exact h.next

/-- Calls do not break off, and their answers are those of the lexer that is followed. -/
theorem history (calls : List Calculator.Lexer.Call) (h : k.Tracks bytes l) :
    Answers (Tracks bytes) (k.history calls) (l.history calls) (l.after calls) := by
  induction calls generalizing k l with
  | nil => exact .pure h
  | cons c calls ih =>
    exact (h.ask c).bind fun k h => (ih h).bind fun k h => .pure h

/-! ### The length of tokens -/

/-- A token does not end before it starts. -/
theorem spanLength_advance (h : k.Tracks bytes l) :
    spanLength l.advance.1.span = pure l.advance.1.span.length := by
  obtain ⟨start, -, hs⟩ := h.cursor.takeWhile Ascii.isBlank
  obtain ⟨after, -, ha⟩ := scan_eq hs
  have hstart := hs.counts.byte_add_length
  have hstop := ha.counts.byte_add_length
  have hle := Calculator.Lexer.scan_rest (l.cursor.takeWhile Ascii.isBlank).2
  refine sub_of_le (?_ : (l.cursor.takeWhile Ascii.isBlank).2.pos.byte ≤
    (Calculator.Lexer.scan (l.cursor.takeWhile Ascii.isBlank).2).2.pos.byte)
  split at hle
  · rw [hle]
  · omega

/-- Tokens that calls are answered with have a length. -/
theorem spanLength_of_mem {calls : List Calculator.Lexer.Call} {c : Calculator.Lexer.Call}
    {t : Token} (h : k.Tracks bytes l) (ht : (c, some t) ∈ l.history calls) :
    spanLength t.span = pure t.span.length := by
  induction calls generalizing k l with
  | nil => cases ht
  | cons c' calls ih =>
    rcases List.mem_cons.mp ht with ht | ht
    · obtain ⟨rfl, ht⟩ := Prod.mk.inj ht
      rcases l.run_cases c with hr | ⟨ended, hr⟩
      · rw [hr] at ht
        cases ht
      · rw [hr] at ht
        cases ht
        exact h.spanLength_advance
    · obtain ⟨k', -, h'⟩ := h.ask c'
      exact ih h' ht

end Tracks

end Lexer
end Calculator.Checked
