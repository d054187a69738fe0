import Calculator.Proofs.Lexer.Rendering

/-!
# Inputs put together

Two inputs with a byte between them that is a token by itself have the tokens of the one, this
token and those of the other (`Lexer.values_ahead_join`). Behind a NUL nothing counts
(`Lexer.values_ahead_append_of_mem`).
-/

namespace Calculator

namespace Token.Kind

theorem runsInto_other_left (b : UInt8) (k : Kind) : (other b).runsInto k = false := rfl

theorem runsInto_other_right (k : Kind) (b : UInt8) : k.runsInto (other b) = false := by
  cases k <;> rfl

end Token.Kind

namespace Rendering

/-- Two renderings with a byte between them that is a token by itself. -/
def join (r : Rendering) {b : UInt8} (hb : (Token.Value.other b).Written [b]) (r' : Rendering) :
    Rendering where
  lexemes := r.lexemes ++ ⟨.other b, [b], hb, r.blanks, r.blank⟩ :: r'.lexemes
  separated := by
    refine List.isChain_append.mpr ⟨r.separated, List.isChain_cons.mpr ⟨?_, r'.separated⟩, ?_⟩
    · simp [Lexeme.Separated, Token.Value.kind, Token.Kind.runsInto_other_left]
    · simp [Lexeme.Separated, Token.Value.kind, Token.Kind.runsInto_other_right]
  blanks := r'.blanks
  blank := r'.blank

variable (r : Rendering) {b : UInt8} (hb : (Token.Value.other b).Written [b]) (r' : Rendering)

theorem bytes_join : (r.join hb r').bytes = r.bytes ++ b :: r'.bytes := by
  simp [join, bytes, Lexeme.bytes]

theorem values_join : (r.join hb r').values = r.values ++ .other b :: r'.values := by
  simp [join, values]

end Rendering

namespace Lexer
variable {pre rest : Bytes} {source : Option SourceId}

/-- An input without a NUL is a rendering as a whole. -/
theorem exists_rendering_of_notMem (hz : 0 ∉ pre) (source : Option SourceId) :
    ∃ r : Rendering, pre = r.bytes ∧
      (ofBytes pre source).ahead.map (·.value) = r.values ++ [.eof] := by
  obtain ⟨r, rest, hpre, hz', hts⟩ := (ofBytes pre source).lexes_ahead.exists_rendering
  have hpre : pre = r.bytes ++ rest := hpre
  cases rest with
  | nil => exact ⟨r, by rw [hpre, List.append_nil], hts⟩
  | cons b rest =>
    have hb : b = 0 := hz' b rfl
    exact absurd (by simp [hpre, hb]) hz

/-- A byte that is a token by itself stands between the tokens before it and those behind it. -/
theorem values_ahead_join {b : UInt8} (hb : (Token.Value.other b).Written [b]) (hz : 0 ∉ pre) :
    (ofBytes (pre ++ b :: rest) source).ahead.map (·.value) =
      ((ofBytes pre source).ahead.map (·.value)).dropLast ++
        .other b :: (ofBytes rest source).ahead.map (·.value) := by
  obtain ⟨r, rfl, hpre⟩ := exists_rendering_of_notMem hz source
  obtain ⟨r', rest', hrest, hz', hts⟩ := (ofBytes rest source).lexes_ahead.exists_rendering
  have hrest : rest = r'.bytes ++ rest' := hrest
  have hbytes : r.bytes ++ b :: rest = (r.join hb r').bytes ++ rest' := by
    rw [hrest, Rendering.bytes_join, List.append_assoc, List.cons_append]
  rw [hbytes, values_ahead_append hz', hpre, hts, List.dropLast_concat, Rendering.values_join,
    List.append_assoc, List.cons_append]

/-- What stands behind a NUL has no tokens. -/
theorem values_ahead_append_of_mem (hz : 0 ∈ pre) :
    (ofBytes (pre ++ rest) source).ahead.map (·.value) =
      (ofBytes pre source).ahead.map (·.value) := by
  obtain ⟨r, rest', hpre, hz', hts⟩ := (ofBytes pre source).lexes_ahead.exists_rendering
  have hpre : pre = r.bytes ++ rest' := hpre
  have hne : rest' ≠ [] := by
    rintro rfl
    rw [hpre, List.append_nil] at hz
    exact r.zero_notMem_bytes hz
  have hz'' : ∀ b ∈ (rest' ++ rest).head?, b = 0 := by
    rwa [List.head?_append_of_ne_nil _ hne]
  have happ : pre ++ rest = r.bytes ++ (rest' ++ rest) := by rw [hpre, List.append_assoc]
  rw [hts, happ, values_ahead_append hz'']

end Lexer
end Calculator
