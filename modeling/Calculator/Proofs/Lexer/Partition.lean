import Calculator.Proofs.Lexer.Stream

/-!
# Tokens partition the input

The tokens of an input stand one behind the other, together they have every byte up to the first
NUL that is no blank, and each is what its bytes spell (`Lexer.tokens_partition`).
-/

namespace Calculator

def Span.covers (s : Span) (i : Nat) : Bool := s.start.byte ≤ i && i < s.stop.byte

/-- The bytes of a stretch. -/
def Span.slice (s : Span) (bytes : Bytes) : Bytes := (bytes.drop s.start.byte).take s.length

/-- How tokens lie in the bytes they were read from. -/
structure Partition (bytes : Bytes) (tokens : List Token) : Prop where
  /-- The tokens are in order and do not overlap. -/
  ordered : tokens.Pairwise fun s t => s.span.stop.byte ≤ t.span.start.byte
  /-- Before the first NUL, blanks belong to no token, and all other bytes to exactly one. -/
  covered {i : Nat} {b : UInt8} (hb : bytes[i]? = some b) (hi : i < bytes.idxOf 0) :
    tokens.countP (·.span.covers i) = if Ascii.isBlank b then 0 else 1
  /-- The end comes once, at the first NUL, or behind all bytes if there is none. -/
  ended : ∃ ts p, tokens = ts ++ [⟨.eof, ⟨p, p⟩⟩] ∧ p.byte = bytes.idxOf 0 ∧
    ∀ t ∈ ts, t.isEof = false
  /-- Every other token has a text, which could not be longer. -/
  written {t : Token} (ht : t ∈ tokens) (he : t.isEof = false) :
    t.span.start.byte < t.span.stop.byte ∧ t.span.stop.byte ≤ bytes.idxOf 0 ∧
      t.value.Written (t.span.slice bytes) ∧
      ∀ b ∈ bytes[t.span.stop.byte]?, t.value.goesOn b = false

/-! ### The first NUL -/

private theorem idxOf_append {us rest : Bytes} (h : 0 ∉ us) :
    (us ++ rest).idxOf 0 = us.length + rest.idxOf 0 := by
  rw [List.idxOf_append, if_neg h, Nat.add_comm]

private theorem zero_notMem_blanks {blanks : Bytes} (hb : ∀ b ∈ blanks, Ascii.isBlank b = true) :
    0 ∉ blanks :=
  fun h => absurd (hb 0 h) (by decide)

private theorem idxOf_end {blanks rest : Bytes} (hb : ∀ b ∈ blanks, Ascii.isBlank b = true)
    (hr : ∀ b ∈ rest.head?, b = 0) : (blanks ++ rest).idxOf 0 = blanks.length := by
  rw [idxOf_append (zero_notMem_blanks hb)]
  cases rest with
  | nil => rfl
  | cons b rest => simp [hr b rfl]

private theorem idxOf_token {blanks text rest : Bytes} {v : Token.Value}
    (hb : ∀ b ∈ blanks, Ascii.isBlank b = true) (hw : v.Written text) :
    (blanks ++ (text ++ rest)).idxOf 0 = blanks.length + (text.length + rest.idxOf 0) := by
  rw [idxOf_append (zero_notMem_blanks hb), idxOf_append fun h => (hw.of_mem h).2 rfl]

/-! ### The tokens of a stretch -/

namespace Lexes
variable {o : Nat} {bytes : Bytes} {ts : List Token}

theorem le_start (h : Lexes o bytes ts) : ∀ t ∈ ts, o ≤ t.span.start.byte := by
  induction h with
  | eof _ _ hp => simp [hp]
  | token _ _ _ hstart hstop _ ih =>
    intro t ht
    rcases List.mem_cons.mp ht with rfl | ht
    · omega
    · have := ih t ht
      omega

theorem ordered (h : Lexes o bytes ts) :
    ts.Pairwise fun s t => s.span.stop.byte ≤ t.span.start.byte := by
  induction h with
  | eof => exact List.pairwise_singleton _ _
  | token _ _ _ _ _ h ih => exact .cons h.le_start ih

/-- Tokens behind a byte do not cover it. -/
private theorem countP_covers_eq_zero (h : Lexes o bytes ts) {i : Nat} (hi : i < o) :
    ts.countP (·.span.covers i) = 0 := by
  refine List.countP_eq_zero.mpr fun t ht => ?_
  have := h.le_start t ht
  simp only [Span.covers, Bool.and_eq_true, decide_eq_true_eq]
  omega

theorem countP_covers (h : Lexes o bytes ts) {i : Nat} {b : UInt8} (hb : bytes[i]? = some b)
    (hi : i < bytes.idxOf 0) :
    ts.countP (·.span.covers (o + i)) = if Ascii.isBlank b then 0 else 1 := by
  induction h generalizing i with
  | @eof o blanks rest p hbl hr hp =>
    rw [idxOf_end hbl hr] at hi
    rw [List.getElem?_append_left hi] at hb
    rw [hbl b (List.mem_of_getElem? hb), if_pos rfl]
    simp [Span.covers]
  | @token o blanks text rest t ts hbl hw hr hstart hstop h ih =>
    have ht : t.span.covers (o + i) = true ↔
        blanks.length ≤ i ∧ i < blanks.length + text.length := by
      simp only [Span.covers, Bool.and_eq_true, decide_eq_true_eq]
      omega
    rw [idxOf_token hbl hw] at hi
    rw [List.countP_cons]
    rcases Nat.lt_or_ge i blanks.length with hlt | hge
    · rw [List.getElem?_append_left hlt] at hb
      rw [hbl b (List.mem_of_getElem? hb), if_pos rfl, h.countP_covers_eq_zero (by omega),
        if_neg (mt ht.mp (by omega))]
    obtain ⟨i, rfl⟩ := Nat.exists_eq_add_of_le hge
    rw [List.getElem?_append_right hge, Nat.add_sub_cancel_left] at hb
    rcases Nat.lt_or_ge i text.length with hlt | hge'
    · rw [List.getElem?_append_left hlt] at hb
      rw [(hw.of_mem (List.mem_of_getElem? hb)).1, h.countP_covers_eq_zero (by omega),
        if_pos (ht.mpr (by omega))]
      rfl
    · obtain ⟨i, rfl⟩ := Nat.exists_eq_add_of_le hge'
      rw [List.getElem?_append_right hge', Nat.add_sub_cancel_left] at hb
      rw [if_neg (mt ht.mp (by omega)), Nat.add_zero, ← ih hb (by omega), hstop, hstart]
      simp only [Nat.add_assoc]

theorem ended (h : Lexes o bytes ts) :
    ∃ us p, ts = us ++ [⟨.eof, ⟨p, p⟩⟩] ∧ p.byte = o + bytes.idxOf 0 ∧
      ∀ t ∈ us, t.isEof = false := by
  induction h with
  | @eof o blanks rest p hbl hr hp =>
    exact ⟨[], p, rfl, by rw [hp, idxOf_end hbl hr], nofun⟩
  | @token o blanks text rest t ts hbl hw hr hstart hstop h ih =>
    obtain ⟨us, p, rfl, hp, hus⟩ := ih
    refine ⟨t :: us, p, rfl, ?_, ?_⟩
    · rw [hp, idxOf_token hbl hw]
      omega
    · simpa [Token.isEof, hw.ne_eof] using hus

/-- The text of a token, between the bytes before it and those behind it. -/
theorem exists_text (h : Lexes o bytes ts) {t : Token} (ht : t ∈ ts) (he : t.isEof = false) :
    ∃ before text rest, bytes = before ++ (text ++ rest) ∧ 0 ∉ before ∧
      t.span.start.byte = o + before.length ∧
      t.span.stop.byte = t.span.start.byte + text.length ∧ t.value.Written text ∧
      ∀ b ∈ rest.head?, t.value.goesOn b = false := by
  induction h with
  | eof =>
    obtain rfl := List.mem_singleton.mp ht
    cases he
  | @token o blanks text rest s ts hbl hw hr hstart hstop h ih =>
    rcases List.mem_cons.mp ht with rfl | ht
    · exact ⟨blanks, text, rest, rfl, zero_notMem_blanks hbl, hstart, hstop, hw, hr⟩
    · obtain ⟨before, text', rest', rfl, hz, hstart', hstop', hw', hr'⟩ := ih ht
      refine ⟨blanks ++ (text ++ before), text', rest', by simp, ?_, ?_, hstop', hw', hr'⟩
      · simp only [List.mem_append, not_or]
        exact ⟨zero_notMem_blanks hbl, fun h => (hw.of_mem h).2 rfl, hz⟩
      · simp only [List.length_append]
        omega

/-- What is cut from all bytes of an input partitions it. -/
theorem partition (h : Lexes 0 bytes ts) : Partition bytes ts where
  ordered := h.ordered
  covered hb hi := by simpa using h.countP_covers hb hi
  ended := by simpa using h.ended
  written {t} ht he := by
    obtain ⟨before, text, rest, rfl, hz, hstart, hstop, hw, hr⟩ := h.exists_text ht he
    have hlen : 0 < text.length := List.length_pos_iff.mpr hw.ne_nil
    have hslice : t.span.slice (before ++ (text ++ rest)) = text := by
      rw [Span.slice, Span.length, hstop, hstart, Nat.zero_add, List.drop_left,
        Nat.add_sub_cancel_left, List.take_left]
    refine ⟨by omega, ?_, by rwa [hslice], ?_⟩
    · rw [idxOf_append hz, idxOf_append fun h => (hw.of_mem h).2 rfl]
      omega
    · rw [hstop, hstart, Nat.zero_add, ← List.append_assoc, ← List.length_append,
        List.getElem?_append_right (Nat.le_refl _), Nat.sub_self, ← List.head?_eq_getElem?]
      exact hr

end Lexes

namespace Partition
variable {bytes : Bytes} {ts : List Token} {i j : Nat} {s t : Token}

theorem isEof_eq_false (h : Partition bytes ts) (ht : ts[i]? = some t) (hi : i + 1 < ts.length) :
    t.isEof = false := by
  obtain ⟨us, p, rfl, -, hus⟩ := h.ended
  have hlt : i < us.length := by simpa using hi
  rw [List.getElem?_append_left hlt] at ht
  exact hus t (List.mem_of_getElem? ht)

/-- A token is not empty and ends before those behind it. -/
theorem apart (h : Partition bytes ts) (hs : ts[i]? = some s) (ht : ts[j]? = some t)
    (hij : i < j) :
    s.span.start.byte < s.span.stop.byte ∧ s.span.stop.byte ≤ t.span.start.byte := by
  obtain ⟨hi, rfl⟩ := List.getElem?_eq_some_iff.mp hs
  obtain ⟨hj, rfl⟩ := List.getElem?_eq_some_iff.mp ht
  have he := h.isEof_eq_false hs (Nat.lt_of_le_of_lt hij hj)
  exact ⟨(h.written (List.getElem_mem hi) he).1,
    List.pairwise_iff_getElem.mp h.ordered i j hi hj hij⟩

end Partition

/-- The tokens of an input partition its bytes up to the first NUL, blanks apart. -/
theorem Lexer.tokens_partition (bytes : Bytes) (source : Option SourceId) :
    Partition bytes (ofBytes bytes source).tokens := by
  rw [tokens_ofBytes]
  exact (ofBytes bytes source).lexes_ahead.partition

end Calculator
