import Mathlib.Control.Monad.Basic
import Calculator.Evaluate
import Calculator.Proofs.Cursor.Reading
import Calculator.Proofs.Lexer.Partition
import Calculator.Proofs.Parser.Spans

/-!
# Reported places are places of the input

What is reported about an input, its tokens and its errors, is at places that the input can be read
up to and that cut no line break in two (`Position.IsPlace`), and extends from one of them to the
same or a later one (`Lexer.isStretch_of_reported`).
-/

namespace Calculator

/-- A position at which the bytes before it were read, none of them behind the first NUL. -/
structure Position.IsPlace (bytes : Bytes) (source : Option SourceId) (p : Position) : Prop where
  byte_le : p.byte ≤ bytes.idxOf 0
  /-- Line and column are those of a cursor that has read the bytes. -/
  pos_take : ((Cursor.ofBytes bytes source).take p.byte).2.pos = p
  /-- A carriage return and a line feed behind it are not separated. -/
  not_between {i : Nat} (hi : p.byte = i + 1) (hr : bytes[i]? = some 0x0d) :
    bytes[i + 1]? ≠ some 0x0a

/-- A span from one place to the same or a later one. -/
structure Span.IsStretch (bytes : Bytes) (source : Option SourceId) (s : Span) : Prop where
  start : s.start.IsPlace bytes source
  stop : s.stop.IsPlace bytes source
  byte_le : s.start.byte ≤ s.stop.byte
  line_le : s.start.line ≤ s.stop.line

variable {bytes : Bytes} {source : Option SourceId} {ts : List Token} {t : Token}

/-! ### Places -/

section
variable {p q : Position}

theorem Position.IsPlace.line_le (hp : p.IsPlace bytes source) (hq : q.IsPlace bytes source)
    (h : p.byte ≤ q.byte) : p.line ≤ q.line := by
  obtain ⟨n, hn⟩ := Nat.exists_eq_add_of_le h
  rw [← hp.pos_take, ← hq.pos_take, hn, Cursor.take_add]
  exact Cursor.line_le_take _ _

theorem Span.IsStretch.between (hp : p.IsPlace bytes source) (hq : q.IsPlace bytes source)
    (h : p.byte ≤ q.byte) : IsStretch bytes source ⟨p, q⟩ :=
  ⟨hp, hq, h, hp.line_le hq h⟩

end

/-! ### Where tokens are -/

namespace Partition

/-- A token is at the end of the input, or has bytes before it. -/
theorem atEnd_or_before (h : Partition bytes ts) (ht : t ∈ ts) :
    t.span.start.byte = bytes.idxOf 0 ∧ t.span.stop.byte = bytes.idxOf 0 ∨
      t.span.start.byte < t.span.stop.byte ∧ t.span.stop.byte ≤ bytes.idxOf 0 := by
  obtain ⟨us, p, rfl, hp, hus⟩ := h.ended
  rcases List.mem_append.mp ht with hu | he
  · obtain ⟨hlt, hle, -⟩ := h.written ht (hus t hu)
    exact .inr ⟨hlt, hle⟩
  · obtain rfl := List.mem_singleton.mp he
    exact .inl ⟨hp, hp⟩

theorem start_le_stop (h : Partition bytes ts) (ht : t ∈ ts) :
    t.span.start.byte ≤ t.span.stop.byte := by
  rcases h.atEnd_or_before ht with ⟨hs, he⟩ | ⟨hlt, -⟩
  · exact Nat.le_of_eq (hs.trans he.symm)
  · exact Nat.le_of_lt hlt

theorem stop_le (h : Partition bytes ts) (ht : t ∈ ts) : t.span.stop.byte ≤ bytes.idxOf 0 := by
  rcases h.atEnd_or_before ht with ⟨-, he⟩ | ⟨-, hle⟩
  · exact Nat.le_of_eq he
  · exact hle

/-- No byte of a token is blank. -/
theorem isBlank_eq_false (h : Partition bytes ts) (ht : t ∈ ts) {i : Nat} {b : UInt8}
    (hb : bytes[i]? = some b) (hs : t.span.start.byte ≤ i) (he : i < t.span.stop.byte) :
    Ascii.isBlank b = false := by
  have hi : i < bytes.idxOf 0 := Nat.lt_of_lt_of_le he (h.stop_le ht)
  have hc : t.span.covers i = true := by
    rw [Span.covers, decide_eq_true hs, decide_eq_true he, Bool.and_self]
  have hpos : 0 < ts.countP (·.span.covers i) := List.countP_pos_iff.mpr ⟨t, ht, hc⟩
  rw [h.covered hb hi] at hpos
  refine Bool.eq_false_iff.mpr fun hblank => ?_
  rw [if_pos hblank] at hpos
  exact absurd hpos (Nat.lt_irrefl 0)

private theorem getElem?_idxOf_ne (bytes : Bytes) : bytes[bytes.idxOf 0]? ≠ some 0x0a := by
  intro h
  obtain ⟨hlt, hb⟩ := List.getElem?_eq_some_iff.mp h
  rw [List.getElem_idxOf hlt] at hb
  exact absurd hb (by decide)

/-- No line feed stands where a token starts. -/
theorem getElem?_start_ne (h : Partition bytes ts) (ht : t ∈ ts) :
    bytes[t.span.start.byte]? ≠ some 0x0a := by
  rcases h.atEnd_or_before ht with ⟨hs, -⟩ | ⟨hlt, -⟩
  · rw [hs]
    exact getElem?_idxOf_ne bytes
  · intro hb
    have := h.isBlank_eq_false ht hb (Nat.le_refl _) hlt
    exact absurd this (by decide)

/-- Where a token stops, no carriage return comes before a line feed. -/
theorem stop_not_between (h : Partition bytes ts) (ht : t ∈ ts) (i : Nat)
    (hi : t.span.stop.byte = i + 1) (hr : bytes[i]? = some 0x0d) :
    bytes[i + 1]? ≠ some 0x0a := by
  rcases h.atEnd_or_before ht with ⟨-, he⟩ | ⟨hlt, -⟩
  · rw [← hi, he]
    exact getElem?_idxOf_ne bytes
  · have := h.isBlank_eq_false ht hr (by omega) (by omega)
    exact absurd this (by decide)

end Partition

namespace Lexer

theorem reaches_scan (c : Cursor) : c.Reaches (scan c).2 := by
  unfold scan
  cases h : c.next? with
  | none => exact .refl c
  | some p =>
    dsimp only
    split
    · exact .refl c
    split
    · exact .takeWhile _ c
    split
    · exact .takeWhile _ c
    · exact .of_next? h

/-- A token extends from one place where its lexer gets by reading to another. -/
theorem exists_reaches_of_mem_ahead {l : Lexer} (h : t ∈ l.ahead) :
    ∃ c d, l.cursor.Reaches c ∧ c.Reaches d ∧ t.span = ⟨c.pos, d.pos⟩ := by
  induction hn : l.cursor.rest.length using Nat.strongRecOn generalizing l with
  | ind n ih =>
    have hstart := Cursor.Reaches.takeWhile Ascii.isBlank l.cursor
    have hstop := reaches_scan (l.cursor.takeWhile Ascii.isBlank).2
    have hle := l.advance_rest_le
    rw [l.ahead_eq] at h
    rcases List.mem_cons.mp h with rfl | h
    · exact ⟨_, _, hstart, hstop, rfl⟩
    · split at h
      · cases h
      · next he =>
        rw [if_neg he] at hle
        obtain ⟨c, d, hc, hd, ht⟩ := ih l.advance.2.cursor.rest.length (by omega) h rfl
        exact ⟨c, d, (hstart.trans hstop).trans hc, hd, ht⟩

/-- A cursor that reads an input is told by its byte. -/
theorem take_byte_of_reaches {c : Cursor} (h : (Cursor.ofBytes bytes source).Reaches c) :
    ((Cursor.ofBytes bytes source).take c.pos.byte).2 = c := by
  obtain ⟨n, -, hc, hb⟩ := h.exists_byte_eq
  have hn : c.pos.byte = n := hb.trans (Nat.zero_add n)
  rw [hn, ← hc]

theorem isStretch_of_mem (h : t ∈ (ofBytes bytes source).ahead) :
    t.span.IsStretch bytes source := by
  have hp := tokens_partition bytes source
  rw [tokens_ofBytes] at hp
  obtain ⟨c, d, hc, hd, hs⟩ := exists_reaches_of_mem_ahead h
  have hle := hp.start_le_stop h
  have hstop := hp.stop_le h
  have hstart := hp.getElem?_start_ne h
  have hbetween := hp.stop_not_between h
  rw [hs] at hle hstop hstart hbetween ⊢
  refine .between ?_ ?_ hle
  · refine ⟨Nat.le_trans hle hstop, congrArg _ (take_byte_of_reaches hc), fun hi _ => ?_⟩
    rwa [← hi]
  · exact ⟨hstop, congrArg _ (take_byte_of_reaches (hc.trans hd)), hbetween _⟩

end Lexer

/-! ### Inside numbers and names -/

theorem Token.Value.Written.isGraphic {v : Token.Value} {text : Bytes} (h : v.Written text)
    (hk : v.kind = .uint ∨ v.kind = .ident) : ∀ b ∈ text, Ascii.isGraphic b = true := by
  intro b hb
  cases h with
  | uint _ hd => exact Ascii.isGraphic_of_isNamePart (Ascii.isNamePart_of_isDigit (hd b hb))
  | ident _ hp => exact Ascii.isGraphic_of_isNamePart (hp b hb)
  | other => simp [kind] at hk

namespace Lexer

/-- Numbers and names are in one line, with a column for each byte. -/
theorem stop_of_kind (h : t ∈ (ofBytes bytes source).ahead)
    (hk : t.kind = .uint ∨ t.kind = .ident) :
    t.span.stop.line = t.span.start.line ∧
      t.span.stop.col = t.span.start.col + t.span.length := by
  have hp := tokens_partition bytes source
  rw [tokens_ofBytes] at hp
  have he : t.isEof = false := by
    refine Bool.eq_false_iff.mpr fun he => ?_
    rw [Token.kind, Token.value_of_isEof he] at hk
    simp [Token.Value.kind] at hk
  obtain ⟨-, -, hw, -⟩ := hp.written h he
  obtain ⟨c, d, hc, hd, hs⟩ := exists_reaches_of_mem_ahead h
  obtain ⟨n, hn, rfl, hb⟩ := hd.exists_byte_eq
  have hlen : t.span.length = n := by
    rw [hs, Span.length, hb, Nat.add_sub_cancel_left]
  have hrest : bytes.drop c.pos.byte = c.rest := by
    have hr := congrArg Cursor.rest (take_byte_of_reaches hc)
    rwa [Cursor.take_rest] at hr
  rw [Span.slice, hlen, hs, hrest] at hw
  rw [hlen, hs, Cursor.pos_take_of_isGraphic hn (hw.isGraphic hk)]
  exact ⟨rfl, rfl⟩

end Lexer

/-! ### Where errors are -/

theorem EvalError.Spans.isStretch {e : EvalError} (h : e.Spans ts) (hp : Partition bytes ts)
    (hs : ∀ t ∈ ts, t.span.IsStretch bytes source) : e.span.IsStretch bytes source := by
  cases h with
  | unexpectedToken ht | recursionLimit ht => exact hs _ ht
  | @divisionByZero i j first last hi hj hij =>
    have hfirst := hs _ (List.mem_of_getElem? hi)
    have hlast := hs _ (List.mem_of_getElem? hj)
    have hle : first.span.stop.byte ≤ last.span.start.byte := (hp.apart hi hj hij).2
    exact .between hfirst.start hlast.stop
      (Nat.le_trans hfirst.byte_le (Nat.le_trans hle hlast.byte_le))

namespace Lexer

/-- Every token extends from one place of the input to the same or a later one, a number or a name
in one line with a column for each byte. So does every error, and its span is that of a token, or of
a division, from the start of a token to the end of a later one. -/
theorem isStretch_of_reported (bytes : Bytes) (source : Option SourceId) (limit : Nat) :
    (∀ t ∈ (ofBytes bytes source).tokens, t.span.IsStretch bytes source ∧
      (t.kind = .uint ∨ t.kind = .ident → t.span.stop.line = t.span.start.line ∧
        t.span.stop.col = t.span.start.col + t.span.length)) ∧
    ∀ e, (ofBytes bytes source).evaluate limit = .error e ∨
        (ofBytes bytes source).evaluateLeading limit = .error e →
      e.span.IsStretch bytes source ∧ e.Spans (ofBytes bytes source).tokens := by
  have hp := tokens_partition bytes source
  rw [tokens_ofBytes] at hp ⊢
  have ha := Parser.At.ofLexer (ofBytes bytes source) limit
  refine ⟨fun t ht => ⟨isStretch_of_mem ht, stop_of_kind ht⟩, fun e he => ?_⟩
  have hs : e.Spans (ofBytes bytes source).ahead := by
    rcases he with he | he
    · exact Parser.whole_spans ha he
    · exact Parser.leading_spans ha he
  exact ⟨hs.isStretch hp fun _ => isStretch_of_mem, hs⟩

/-- In `1`, a line break of two bytes and `/0`, the division by zero extends over both lines. -/
theorem isStretch_over_two_lines :
    (ofBytes [0x31, 0x0d, 0x0a, 0x2f, 0x30]).evaluate 0 =
        .error (.divisionByZero ⟨⟨none, 0, 1, 1⟩, ⟨none, 5, 2, 3⟩⟩) ∧
      (⟨⟨none, 0, 1, 1⟩, ⟨none, 5, 2, 3⟩⟩ : Span).IsStretch [0x31, 0x0d, 0x0a, 0x2f, 0x30] none ∧
      (EvalError.divisionByZero ⟨⟨none, 0, 1, 1⟩, ⟨none, 5, 2, 3⟩⟩).Spans
        (ofBytes [0x31, 0x0d, 0x0a, 0x2f, 0x30]).tokens := by
  have he : (ofBytes [0x31, 0x0d, 0x0a, 0x2f, 0x30]).evaluate 0 =
      .error (.divisionByZero ⟨⟨none, 0, 1, 1⟩, ⟨none, 5, 2, 3⟩⟩) := by decide +kernel
  exact ⟨he, (isStretch_of_reported [0x31, 0x0d, 0x0a, 0x2f, 0x30] none 0).2 _ (.inl he)⟩

end Lexer
end Calculator
