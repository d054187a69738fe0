import Calculator.Cursor
import Calculator.Token

/-! Cutting a byte string into tokens. Every byte that is no blank belongs to a token, so this
cannot fail; a NUL ends the input. -/

namespace Calculator

/-- A cursor from which tokens are taken. -/
structure Lexer where
  cursor : Cursor
  /-- The end of the input has been delivered as an item of the stream. -/
  ended : Bool := false
deriving DecidableEq

namespace Lexer

def ofBytes (bytes : Bytes) (source : Option SourceId := none) : Lexer :=
  { cursor := .ofBytes bytes source }

def pos (l : Lexer) : Position := l.cursor.pos

/-- The numeral that digits form, modulo 2^32. -/
def numeral (digits : Bytes) : UInt32 :=
  digits.foldl (fun n b => n * 10 + (b - 0x30).toUInt32) 0

/-- Reads a token where no blank stands. -/
def scan (c : Cursor) : Token.Value × Cursor :=
  match c.next? with
  | none => (.eof, c)
  | some (b, after) =>
    if b = 0 then (.eof, c)
    else if Ascii.isDigit b then
      let (digits, after) := c.takeWhile Ascii.isDigit
      (.uint (numeral digits), after)
    else if Ascii.isNameStart b then
      let (name, after) := c.takeWhile Ascii.isNamePart
      (.ident name, after)
    else (.other b, after)

/-- Takes the next token. At the end of the input this is the end token, again and again. -/
def advance (l : Lexer) : Token × Lexer :=
  let start := (l.cursor.takeWhile Ascii.isBlank).2
  let (value, after) := scan start
  ({ value, span := ⟨start.pos, after.pos⟩ }, { l with cursor := after })

/-- The next item of the stream of tokens, which has the end token once, at its end. -/
def next? (l : Lexer) : Option (Token × Lexer) :=
  if l.ended then none
  else
    let (token, after) := l.advance
    some (token, { after with ended := token.isEof })

/-- Reading a token uses up input unless it is the end token. -/
theorem scan_rest (c : Cursor) :
    if (scan c).1 = .eof then (scan c).2 = c
    else (scan c).2.rest.length < c.rest.length := by
  unfold scan
  cases h : c.next? with
  | none => simp
  | some p =>
    obtain ⟨b, after⟩ := p
    have hr := Cursor.rest_eq_of_next? h
    have used (q : UInt8 → Bool) (hq : q b = true) :
        (c.takeWhile q).2.rest.length < c.rest.length := by
      rw [Cursor.takeWhile_rest, hr, List.dropWhile_cons_of_pos hq]
      exact Nat.lt_succ_of_le (List.dropWhile_suffix q).length_le
    dsimp only
    split
    · simp
    · split
      · next hd => simpa using used _ hd
      · split
        · next hn => simpa using used Ascii.isNamePart (by simp [Ascii.isNamePart, hn])
        · simp [hr]

theorem advance_rest_le (l : Lexer) :
    l.advance.2.cursor.rest.length + (if l.advance.1.isEof then 0 else 1) ≤
      l.cursor.rest.length := by
  have hs := scan_rest (l.cursor.takeWhile Ascii.isBlank).2
  have hb : (l.cursor.takeWhile Ascii.isBlank).2.rest.length ≤ l.cursor.rest.length := by
    rw [Cursor.takeWhile_rest]
    exact (List.dropWhile_suffix _).length_le
  split at hs
  · next h => simpa [advance, Token.isEof, h, hs] using hb
  · next h => simp only [advance, Token.isEof, h, decide_false, Bool.false_eq_true, if_false]; omega

/-- No more items than this are left in the stream. -/
def bound (l : Lexer) : Nat := l.cursor.rest.length + (if l.ended then 0 else 1)

theorem bound_lt_of_next? {l after : Lexer} {token : Token} (h : l.next? = some (token, after)) :
    after.bound < l.bound := by
  have hr := l.advance_rest_le
  unfold next? at h
  split at h
  · cases h
  · next he =>
    simp only [Option.some.injEq, Prod.mk.injEq] at h
    obtain ⟨rfl, rfl⟩ := h
    cases ht : l.advance.1.isEof <;>
      simp only [bound, he, ht, if_true, Bool.false_eq_true, if_false] at hr ⊢ <;> omega

/-- The items left in the stream, and the lexer after them. -/
def drain (l : Lexer) : List Token × Lexer :=
  match _h : l.next? with
  | none => ([], l)
  | some (token, after) =>
    let (tokens, last) := drain after
    (token :: tokens, last)
termination_by l.bound
decreasing_by exact bound_lt_of_next? _h

/-- The items left in the stream. -/
def tokens (l : Lexer) : List Token := l.drain.1

theorem tokens_eq (l : Lexer) :
    l.tokens = match l.next? with
      | none => []
      | some (token, after) => token :: after.tokens := by
  unfold tokens
  rw [drain]
  split <;> next h => simp only [h]

end Lexer
end Calculator
