import Calculator.Proofs.Checked.Depth

/-!
# Nothing breaks off

Whatever is asked of a cursor, whatever calls of a lexer follow and however deep parentheses may
nest, the checked program comes to the answers of the program (`Checked.exists_faultless`).
-/

namespace Calculator.Checked

open Calculator.Cursor (Operation)

/-- A place that can be reached in some bytes. No line and no column is counted without a byte. -/
structure InRange (bytes : Bytes) (pos : Position) : Prop where
  byte_le : pos.byte ≤ bytes.length
  line_add_col_le : pos.line + pos.col - 2 ≤ pos.byte

theorem Cursor.Tracks.inRange {bytes : Bytes} {k : Cursor} {c : Calculator.Cursor}
    (h : k.Tracks bytes c) : InRange bytes k.pos := by
  rw [h.pos]
  exact ⟨h.counts.byte_le, Nat.sub_le_of_le_add h.counts.line_add_col_le⟩

/-- The lexer that goes on where questions have brought a cursor. -/
def lexerAfter (bytes : Bytes) (source : Option SourceId) (os : List Operation) :
    Calculator.Lexer :=
  { cursor := ((Calculator.Cursor.ofBytes bytes source).history os).2 }

/-- A session over some bytes: questions `os` to a cursor, which is `k` then, calls of a lexer that
goes on from there and is `m` after them, and the evaluation of what is left in both ways. All of it
comes to what it comes to without the checks. -/
structure Faultless (bytes : Bytes) (source : Option SourceId) (os : List Operation)
    (calls : List Calculator.Lexer.Call) (limit : Nat) (k : Cursor) (m : Lexer) : Prop where
  asked : (Cursor.ofBytes bytes source).history os =
    pure (((Calculator.Cursor.ofBytes bytes source).history os).1, k)
  tokens : ({ cursor := k } : Lexer).history calls =
    pure ((lexerAfter bytes source os).history calls, m)
  inRange : InRange bytes k.pos ∧ InRange bytes m.cursor.pos
  length_eq {c : Calculator.Lexer.Call} {t : Token}
    (ht : (c, some t) ∈ (lexerAfter bytes source os).history calls) :
    spanLength t.span = pure t.span.length
  evaluate : Settles (5 * bytes.length + 4) (m.evaluate · limit)
    (((lexerAfter bytes source os).after calls).evaluate limit)
  evaluateLeading : Settles (5 * bytes.length + 4) (m.evaluateLeading · limit)
    (((lexerAfter bytes source os).after calls).evaluateLeading limit)

/-- Where the number of bytes is less than half of the number of words, no session breaks off, with
any word for the limit. -/
theorem exists_faultless (bytes : Bytes) (source : Option SourceId) (os : List Operation)
    (calls : List Calculator.Lexer.Call) (limit : Nat) (hb : bytes.length < UInt64.size / 2)
    (hl : limit < UInt64.size) : ∃ k m, Faultless bytes source os calls limit k m := by
  obtain ⟨k, hk, hc⟩ := (Cursor.Tracks.ofBytes hb source).history os
  have hstart : Lexer.Tracks bytes { cursor := k } (lexerAfter bytes source os) := ⟨hc, rfl⟩
  obtain ⟨m, hm, ht⟩ := hstart.history calls
  exact ⟨k, m, {
    asked := hk
    tokens := hm
    inRange := ⟨hc.inRange, ht.cursor.inRange⟩
    length_eq := hstart.spanLength_of_mem
    evaluate := Lexer.settles_evaluate ht hl
    evaluateLeading := Lexer.settles_evaluateLeading ht hl }⟩

/-- Behind the two bytes of an `é`, `(1⏎)` has a value however large the limit is. -/
theorem exists_faultless_accent :
    let bytes : Bytes := [0xc3, 0xa9, 0x28, 0x31, 0x0d, 0x0a, 0x29]
    bytes.length < UInt64.size / 2 ∧ UInt64.size - 1 < UInt64.size ∧
      ∃ k m, Faultless bytes none [.take 2, .peek] [] (UInt64.size - 1) k m ∧
        (Cursor.ofBytes bytes).history [.take 2, .peek] =
          pure ([.bytes [0xc3, 0xa9], .byte (some 0x28)], k) ∧
        m.evaluate 39 (UInt64.size - 1) = pure (.ok 1) := by
  intro bytes
  have hb : bytes.length < UInt64.size / 2 := by decide
  have hl : UInt64.size - 1 < UInt64.size := by decide
  obtain ⟨k, m, h⟩ := exists_faultless bytes none [.take 2, .peek] [] _ hb hl
  have hq : ((Calculator.Cursor.ofBytes bytes).history [.take 2, .peek]).1 =
      [.bytes [0xc3, 0xa9], .byte (some 0x28)] := by decide +kernel
  have hv : (lexerAfter bytes none [.take 2, .peek]).evaluate (UInt64.size - 1) = .ok 1 := by
    decide +kernel
  refine ⟨hb, hl, k, m, h, hq ▸ h.asked, ?_⟩
  exact hv ▸ (h.evaluate 39).resolve_right fun hd => absurd hd.1 (by decide)

end Calculator.Checked
