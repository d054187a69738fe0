import Calculator.Lexer
import Calculator.Text.Decimal

/-!
# The stream of tokens

The tokens that a lexer still delivers (`Lexer.ahead`) and how they lie in the bytes before it:
blanks, the text of a token that is as long as it can be, and so on up to the end (`Lexes`,
`Lexer.lexes_ahead`).
-/

namespace Calculator

namespace Lexer

/-- The tokens from here on, whether the end was delivered before or not. -/
def ahead (l : Lexer) : List Token := ({ l with ended := false } : Lexer).tokens

theorem tokens_ofBytes (bytes : Bytes) (source : Option SourceId) :
    (ofBytes bytes source).tokens = (ofBytes bytes source).ahead := rfl

private theorem tokens_ended (l : Lexer) : ({ l with ended := true } : Lexer).tokens = [] := by
  rw [tokens_eq]
  rfl

theorem ahead_eq (l : Lexer) :
    l.ahead = l.advance.1 :: if l.advance.1.isEof then [] else l.advance.2.ahead := by
  have h : l.ahead =
      l.advance.1 :: ({ l.advance.2 with ended := l.advance.1.isEof } : Lexer).tokens := by
    rw [ahead, tokens_eq]
    rfl
  rw [h]
  split
  · next he => rw [he, tokens_ended]
  · next he => rw [Bool.eq_false_iff.mpr he, ahead]

/-- The end is the last token, and no other is the end. -/
theorem isEof_iff_of_getElem?_ahead {l : Lexer} {i : Nat} {t : Token} (h : l.ahead[i]? = some t) :
    t.isEof = true ↔ i + 1 = l.ahead.length := by
  induction i generalizing l with
  | zero =>
    rw [l.ahead_eq] at h ⊢
    cases h
    split
    · next he => simp [he]
    · next he => rw [l.advance.2.ahead_eq]; simp [he]
  | succ i ih =>
    rw [l.ahead_eq] at h ⊢
    split at h
    · cases h
    · next he => rw [if_neg he, List.length_cons, Nat.add_right_cancel_iff, ih h]

end Lexer

/-! ### How tokens are written -/

namespace Token.Value

/-- The bytes that a token is read from. -/
inductive Written : Token.Value → Bytes → Prop
  | uint {n : UInt32} {digits : Bytes} (hne : digits ≠ [])
    (hd : ∀ b ∈ digits, Ascii.isDigit b = true) (hn : n.toNat = Decimal.value digits % UInt32.size) :
    Written (.uint n) digits
  | ident {name : Bytes} (hs : ∃ b ∈ name.head?, Ascii.isNameStart b = true)
    (hp : ∀ b ∈ name, Ascii.isNamePart b = true) : Written (.ident name) name
  | other {b : UInt8} (hz : b ≠ 0) (hb : Ascii.isBlank b = false) (hd : Ascii.isDigit b = false)
    (hs : Ascii.isNameStart b = false) : Written (.other b) [b]

/-- The bytes that would go on the text of a token. -/
def goesOn : Token.Value → UInt8 → Bool
  | .uint _, b => Ascii.isDigit b
  | .ident _, b => Ascii.isNamePart b
  | .other _, _ | .eof, _ => false

end Token.Value

namespace Token.Value.Written
variable {v : Token.Value} {text : Bytes}

theorem ne_nil (h : v.Written text) : text ≠ [] := by
  cases h with
  | uint hne => exact hne
  | ident hs =>
    rintro rfl
    obtain ⟨b, hb, -⟩ := hs
    cases hb
  | other => exact List.cons_ne_nil _ _

theorem ne_eof (h : v.Written text) : v ≠ .eof := by
  rintro rfl
  cases h

/-- Neither blanks nor the NUL that ends an input are part of a token. -/
theorem of_mem (h : v.Written text) {b : UInt8} (hb : b ∈ text) :
    Ascii.isBlank b = false ∧ b ≠ 0 := by
  cases h with
  | uint _ hd =>
    have := hd b hb
    simp only [Ascii.isDigit, Ascii.isBlank] at *
    grind
  | ident _ hp =>
    have := hp b hb
    simp only [Ascii.isNamePart, Ascii.isNameStart, Ascii.isLetter, Ascii.isDigit,
      Ascii.isBlank] at *
    grind
  | other hz hb' => exact List.mem_singleton.mp hb ▸ ⟨hb', hz⟩

end Token.Value.Written

/-! ### Bytes cut into tokens -/

/-- The bytes from an offset on are blanks, the text of a token that could not be longer, and so on
up to the end, and the spans are those of the texts. -/
inductive Lexes : Nat → Bytes → List Token → Prop
  | eof {o : Nat} {blanks rest : Bytes} {p : Position}
    (hb : ∀ b ∈ blanks, Ascii.isBlank b = true) (hr : ∀ b ∈ rest.head?, b = 0)
    (hp : p.byte = o + blanks.length) : Lexes o (blanks ++ rest) [⟨.eof, ⟨p, p⟩⟩]
  | token {o : Nat} {blanks text rest : Bytes} {t : Token} {ts : List Token}
    (hb : ∀ b ∈ blanks, Ascii.isBlank b = true) (hw : t.value.Written text)
    (hr : ∀ b ∈ rest.head?, t.value.goesOn b = false)
    (hstart : t.span.start.byte = o + blanks.length)
    (hstop : t.span.stop.byte = t.span.start.byte + text.length) :
    Lexes t.span.stop.byte rest ts → Lexes o (blanks ++ (text ++ rest)) (t :: ts)

namespace Lexer

theorem numeral_toNat (digits : Bytes) :
    (numeral digits).toNat = Decimal.value digits % UInt32.size := by
  suffices main : ∀ (n : UInt32) (m : Nat), n.toNat = m % UInt32.size →
      (digits.foldl (fun n b => n * 10 + (b - 0x30).toUInt32) n).toNat =
        digits.foldl (fun n b => 10 * n + (b - 0x30).toNat) m % UInt32.size from main 0 0 rfl
  induction digits with
  | nil => exact fun _ _ h => h
  | cons b digits ih =>
    intro n m h
    refine ih _ _ ?_
    simp only [UInt32.toNat_add, UInt32.toNat_mul, UInt8.toNat_toUInt32, h]
    simp only [UInt32.reduceToNat, UInt32.size]
    omega

/-- What reading a token comes to. -/
inductive Scanned (c : Cursor) : Token.Value × Cursor → Prop
  | eof (h : ∀ b ∈ c.rest.head?, b = 0) : Scanned c (.eof, c)
  | token {v : Token.Value} {d : Cursor} {text : Bytes} (hw : v.Written text)
    (hr : ∀ b ∈ d.rest.head?, v.goesOn b = false) (hrest : c.rest = text ++ d.rest)
    (hbyte : d.pos.byte = c.pos.byte + text.length) : Scanned c (v, d)

/-- A run of bytes of a class makes a token that all bytes of the class would go on. -/
private theorem Scanned.run {c : Cursor} {v : Token.Value} {p : UInt8 → Bool}
    (hw : v.Written (c.takeWhile p).1) (hv : v.goesOn = p) :
    Scanned c (v, (c.takeWhile p).2) := by
  refine .token hw ?_ (c.takeWhile_append_rest p).symm ?_
  · rw [hv]
    exact c.head?_rest_takeWhile p
  · rw [Cursor.takeWhile_byte, Cursor.takeWhile_fst]

theorem scanned {c : Cursor} (hb : ∀ b ∈ c.rest.head?, Ascii.isBlank b = false) :
    Scanned c (scan c) := by
  unfold scan
  cases h : c.next? with
  | none => exact .eof (by simp [Cursor.next?_eq_none_iff.mp h])
  | some p =>
    obtain ⟨b, after⟩ := p
    have hr := Cursor.rest_eq_of_next? h
    have run_eq (q : UInt8 → Bool) (hq : q b = true) :
        (c.takeWhile q).1 = b :: after.rest.takeWhile q := by
      rw [Cursor.takeWhile_fst, hr, List.takeWhile_cons_of_pos hq]
    dsimp only
    split
    · next hz => exact .eof (by simp [hr, hz])
    split
    · next hd =>
      refine .run (.uint ?_ (fun _ => Cursor.of_mem_takeWhile) (numeral_toNat _)) rfl
      rw [run_eq _ hd]
      exact List.cons_ne_nil _ _
    split
    · next hs =>
      refine .run (.ident ⟨b, ?_, hs⟩ fun _ => Cursor.of_mem_takeWhile) rfl
      rw [run_eq _ (by rw [Ascii.isNamePart, hs, Bool.true_or])]
      rfl
    · next hz hd hs =>
      have hw : (Token.Value.other b).Written [b] :=
        .other hz (hb b (by simp [hr])) (Bool.eq_false_iff.mpr hd) (Bool.eq_false_iff.mpr hs)
      exact .token hw (fun _ _ => rfl) hr (Cursor.byte_of_next? h)

private theorem advance_eq {l : Lexer} {start d : Cursor} {v : Token.Value}
    (hs : (l.cursor.takeWhile Ascii.isBlank).2 = start) (hd : scan start = (v, d)) :
    l.advance = (⟨v, ⟨start.pos, d.pos⟩⟩, { l with cursor := d }) := by
  simp only [advance, hs, hd]

/-- The tokens of a lexer are cut from the bytes before it. -/
theorem lexes_ahead (l : Lexer) : Lexes l.cursor.pos.byte l.cursor.rest l.ahead := by
  induction hn : l.cursor.rest.length using Nat.strongRecOn generalizing l with
  | ind n ih =>
    have hb : ∀ b ∈ (l.cursor.takeWhile Ascii.isBlank).1, Ascii.isBlank b = true :=
      fun _ => Cursor.of_mem_takeWhile
    have hbyte := Cursor.takeWhile_byte Ascii.isBlank l.cursor
    rw [← Cursor.takeWhile_fst] at hbyte
    have hs := scanned (l.cursor.head?_rest_takeWhile Ascii.isBlank)
    have hle := l.advance_rest_le
    rcases hd : scan (l.cursor.takeWhile Ascii.isBlank).2 with ⟨v, d⟩
    rw [hd] at hs
    rw [advance_eq rfl hd] at hle
    rw [← l.cursor.takeWhile_append_rest Ascii.isBlank, l.ahead_eq, advance_eq rfl hd]
    cases hs with
    | eof h => exact .eof hb h hbyte
    | token hw hr hrest hbyte' =>
      have he : v ≠ .eof := hw.ne_eof
      simp only [Token.isEof, he, decide_false, Bool.false_eq_true, if_false] at hle ⊢
      rw [hrest]
      exact .token hb hw hr hbyte hbyte' (ih d.rest.length (by omega) { l with cursor := d } rfl)

end Lexer
end Calculator
