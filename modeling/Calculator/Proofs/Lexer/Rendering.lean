import Mathlib.Data.List.Chain
import Calculator.Proofs.Lexer.Stream

/-!
# Tokens written out

Tokens can be written with any blanks around them, as long as texts that would run together are kept
apart (`Rendering`). What is written in this way is read back, and every input up to its first NUL
is its own tokens written in this way (`Lexer.tokens_rendering`).
-/

namespace Calculator

/-! ### Texts one behind the other -/

namespace Token

/-- The kind of the token whose text a byte begins. -/
def Kind.starting (b : UInt8) : Kind :=
  if Ascii.isDigit b then .uint else if Ascii.isNameStart b then .ident else .other b

/-- The kinds of tokens whose texts have to be kept apart: a number goes on a number, and a number
or a name goes on a name. -/
def Kind.runsInto : Kind → Kind → Bool
  | .uint, .uint | .ident, .uint | .ident, .ident => true
  | _, _ => false

namespace Value

/-- A byte goes on a token exactly if it begins one that the token runs into. -/
theorem goesOn_eq_runsInto (v : Value) (b : UInt8) :
    v.goesOn b = v.kind.runsInto (.starting b) := by
  cases v <;> by_cases hd : Ascii.isDigit b <;> by_cases hs : Ascii.isNameStart b <;>
    simp [goesOn, kind, Kind.runsInto, Kind.starting, Ascii.isNamePart, hd, hs]

namespace Written
variable {v w : Value} {text text' rest rest' : Bytes}

/-- The first byte of a text tells the kind of the token, and the others go on it. -/
theorem exists_cons (h : v.Written text) :
    ∃ b tail, text = b :: tail ∧ v.kind = .starting b ∧ ∀ c ∈ tail, v.goesOn c = true := by
  cases h with
  | @uint n _ hne hd _ =>
    obtain ⟨b, tail, rfl⟩ := List.exists_cons_of_ne_nil hne
    have hb : Ascii.isDigit b = true := hd b List.mem_cons_self
    refine ⟨b, tail, rfl, ?_, fun c hc => hd c (List.mem_cons_of_mem _ hc)⟩
    rw [Kind.starting, if_pos hb, kind]
  | ident hs hp =>
    obtain ⟨b, hb, hs⟩ := hs
    obtain ⟨tail, rfl⟩ := List.head?_eq_some_iff.mp hb
    have hd : Ascii.isDigit b = false := by
      simp only [Ascii.isNameStart, Ascii.isLetter, Ascii.isDigit] at *
      grind
    refine ⟨b, tail, rfl, ?_, fun c hc => hp c (List.mem_cons_of_mem _ hc)⟩
    rw [Kind.starting, hd, if_neg Bool.false_ne_true, if_pos hs, kind]
  | @other b _ _ hd hs =>
    refine ⟨b, [], rfl, ?_, fun c hc => absurd hc List.not_mem_nil⟩
    rw [Kind.starting, hd, hs, if_neg Bool.false_ne_true, if_neg Bool.false_ne_true, kind]

theorem value_unique (h : v.Written text) (h' : w.Written text) (hk : v.kind = w.kind) : v = w := by
  cases h with
  | uint _ _ hn =>
    cases h' with
    | uint _ _ hn' => rw [UInt32.toNat_inj.mp (hn.trans hn'.symm)]
    | ident | other => cases hk
  | ident =>
    cases h' with
    | ident => rfl
    | uint | other => cases hk
  | other =>
    cases h' with
    | other => rfl
    | uint | ident => cases hk

end Written
end Value
end Token

/-- A run of bytes of a class is what `takeWhile` takes if nothing behind it goes on with it. -/
theorem takeWhile_append_eq {p : UInt8 → Bool} {run rest : Bytes} (hp : ∀ b ∈ run, p b = true)
    (hr : ∀ b ∈ rest.head?, p b = false) : (run ++ rest).takeWhile p = run := by
  have hn : rest.takeWhile p = [] := by
    cases rest with
    | nil => rfl
    | cons b rest => exact List.takeWhile_cons_of_neg (by simp [hr b rfl])
  rw [List.takeWhile_append_of_pos hp, hn, List.append_nil]

/-- Texts at the beginning of the same bytes that nothing behind them would go on are the same. -/
theorem Token.Value.Written.unique {v w : Token.Value} {text text' rest rest' : Bytes}
    (h : v.Written text) (h' : w.Written text') (hr : ∀ b ∈ rest.head?, v.goesOn b = false)
    (hr' : ∀ b ∈ rest'.head?, w.goesOn b = false) (he : text ++ rest = text' ++ rest') :
    v = w ∧ rest = rest' := by
  obtain ⟨b, tail, rfl, hk, hg⟩ := h.exists_cons
  obtain ⟨b', tail', rfl, hk', hg'⟩ := h'.exists_cons
  rw [List.cons_append, List.cons_append, List.cons.injEq] at he
  obtain ⟨rfl, he⟩ := he
  have hkind : v.kind = w.kind := hk.trans hk'.symm
  have hv : v.goesOn = w.goesOn := by
    funext c
    rw [goesOn_eq_runsInto, goesOn_eq_runsInto, hkind]
  have ht : tail = tail' := by
    rw [← takeWhile_append_eq hg hr, he, hv, takeWhile_append_eq hg' hr']
  subst ht
  exact ⟨h.value_unique h' hkind, List.append_cancel_left he⟩

/-! ### Renderings -/

/-- A token with its text, and blanks in front of it. -/
structure Lexeme where
  value : Token.Value
  text : Bytes
  written : value.Written text
  blanks : Bytes := []
  blank : ∀ b ∈ blanks, Ascii.isBlank b = true := by decide +kernel

namespace Lexeme

def bytes (x : Lexeme) : Bytes := x.blanks ++ x.text

/-- Blanks keep texts apart that would run together. -/
def Separated (x y : Lexeme) : Prop :=
  x.value.kind.runsInto y.value.kind = true → y.blanks ≠ []

end Lexeme

/-- Tokens one behind the other, and blanks behind the last. -/
structure Rendering where
  lexemes : List Lexeme
  separated : lexemes.IsChain Lexeme.Separated
  blanks : Bytes := []
  blank : ∀ b ∈ blanks, Ascii.isBlank b = true := by decide +kernel

namespace Rendering

def bytes (r : Rendering) : Bytes := r.lexemes.flatMap Lexeme.bytes ++ r.blanks

def values (r : Rendering) : List Token.Value := r.lexemes.map (·.value)

end Rendering

/-! ### Renderings have one reading -/

theorem Token.Value.goesOn_of_isBlank (v : Token.Value) {b : UInt8} (h : Ascii.isBlank b = true) :
    v.goesOn b = false := by
  cases v with
  | uint =>
    simp only [goesOn, Ascii.isDigit, Ascii.isBlank] at *
    grind
  | ident =>
    simp only [goesOn, Ascii.isNamePart, Ascii.isNameStart, Ascii.isLetter, Ascii.isDigit,
      Ascii.isBlank] at *
    grind
  | other | eof => rfl

namespace Lexeme
variable {x : Lexeme} {xs ys : List Lexeme} {blanks blanks' rest : Bytes}

theorem isBlank_head (x : Lexeme) : ∀ b ∈ (x.text ++ rest).head?, Ascii.isBlank b = false := by
  obtain ⟨b, tail, ht, -⟩ := x.written.exists_cons
  rw [ht]
  rintro _ ⟨⟩
  exact (x.written.of_mem (ht ▸ List.mem_cons_self)).1

/-- What is written behind a token does not go on it. -/
theorem goesOn_head (h : (x :: xs).IsChain Separated)
    (hb : ∀ b ∈ blanks, Ascii.isBlank b = true) :
    ∀ b ∈ (xs.flatMap bytes ++ blanks).head?, x.value.goesOn b = false := by
  intro b hmem
  cases xs with
  | nil => exact x.value.goesOn_of_isBlank (hb b (List.mem_of_mem_head? hmem))
  | cons y ys =>
    rw [List.flatMap_cons, bytes, List.append_assoc, List.append_assoc] at hmem
    cases hy : y.blanks with
    | cons c _ =>
      rw [hy] at hmem
      cases hmem
      exact x.value.goesOn_of_isBlank (y.blank b (hy ▸ List.mem_cons_self))
    | nil =>
      obtain ⟨c, tail, ht, hk, -⟩ := y.written.exists_cons
      rw [hy, ht] at hmem
      cases hmem
      rw [Token.Value.goesOn_eq_runsInto, ← hk]
      exact Bool.eq_false_iff.mpr fun hr => (List.isChain_cons_cons.mp h).1 hr hy

/-- Blanks are not the bytes of tokens. -/
theorem flatMap_bytes_ne (hb : ∀ b ∈ blanks, Ascii.isBlank b = true) :
    blanks ≠ (x :: xs).flatMap bytes ++ rest := by
  rintro rfl
  obtain ⟨b, tail, ht, -⟩ := x.written.exists_cons
  have hx : b ∈ x.text := ht ▸ List.mem_cons_self
  have h := hb b (by simp [bytes, hx])
  rw [(x.written.of_mem hx).1] at h
  cases h

theorem values_unique (hx : xs.IsChain Separated) (hy : ys.IsChain Separated)
    (hb : ∀ b ∈ blanks, Ascii.isBlank b = true) (hb' : ∀ b ∈ blanks', Ascii.isBlank b = true)
    (h : xs.flatMap bytes ++ blanks = ys.flatMap bytes ++ blanks') :
    xs.map (·.value) = ys.map (·.value) := by
  induction xs generalizing ys with
  | nil =>
    cases ys with
    | nil => rfl
    | cons y ys => exact absurd h (flatMap_bytes_ne hb)
  | cons x xs ih =>
    cases ys with
    | nil => exact absurd h.symm (flatMap_bytes_ne hb')
    | cons y ys =>
      simp only [List.flatMap_cons, bytes, List.append_assoc] at h
      have hxy : x.blanks = y.blanks := by
        rw [← takeWhile_append_eq x.blank x.isBlank_head, h,
          takeWhile_append_eq y.blank y.isBlank_head]
      rw [hxy] at h
      obtain ⟨hv, hr⟩ := x.written.unique y.written (goesOn_head hx hb) (goesOn_head hy hb')
        (List.append_cancel_left h)
      rw [List.map_cons, List.map_cons, hv, ih hx.of_cons hy.of_cons hr]

end Lexeme

/-! ### Inputs are renderings -/

/-- What tokens are cut from is a rendering of them, up to a NUL if there is one. -/
theorem Lexes.exists_rendering {o : Nat} {bytes : Bytes} {ts : List Token} (h : Lexes o bytes ts) :
    ∃ (r : Rendering) (rest : Bytes), bytes = r.bytes ++ rest ∧ (∀ b ∈ rest.head?, b = 0) ∧
      ts.map (·.value) = r.values ++ [.eof] := by
  induction h with
  | @eof o blanks rest p hb hr _ => exact ⟨⟨[], .nil, blanks, hb⟩, rest, rfl, hr, rfl⟩
  | @token o blanks text rest t ts hb hw hr _ _ _ ih =>
    obtain ⟨r, rest', rfl, hz, hts⟩ := ih
    let x : Lexeme := ⟨t.value, text, hw, blanks, hb⟩
    have hx : (x :: r.lexemes).IsChain Lexeme.Separated := by
      refine List.isChain_cons.mpr ⟨fun y hy => ?_, r.separated⟩
      obtain ⟨ys, hys⟩ := List.head?_eq_some_iff.mp hy
      intro hinto hnil
      obtain ⟨c, tail, ht, hk, -⟩ := y.written.exists_cons
      have hc := hr c (by simp [Rendering.bytes, Lexeme.bytes, hys, hnil, ht])
      rw [Token.Value.goesOn_eq_runsInto, ← hk] at hc
      exact Bool.false_ne_true (hc.symm.trans hinto)
    refine ⟨⟨x :: r.lexemes, hx, r.blanks, r.blank⟩, rest', ?_, hz, ?_⟩
    · simp [Rendering.bytes, Lexeme.bytes, x]
    · rw [List.map_cons, hts]
      rfl

namespace Rendering

theorem zero_notMem_bytes (r : Rendering) : 0 ∉ r.bytes := by
  have hz {bl : Bytes} (h : ∀ b ∈ bl, Ascii.isBlank b = true) : 0 ∉ bl :=
    fun h0 => absurd (h 0 h0) (by decide)
  intro h
  rcases List.mem_append.mp h with h | h
  · obtain ⟨x, -, h⟩ := List.mem_flatMap.mp h
    rcases List.mem_append.mp h with h | h
    · exact hz x.blank h
    · exact (x.written.of_mem h).2 rfl
  · exact hz r.blank h

end Rendering

namespace Lexer

/-- A rendering is read back, also in front of a NUL. -/
theorem values_ahead_append {r : Rendering} {rest : Bytes} (hz : ∀ b ∈ rest.head?, b = 0)
    (source : Option SourceId) :
    (ofBytes (r.bytes ++ rest) source).ahead.map (·.value) = r.values ++ [.eof] := by
  obtain ⟨r', rest', hr, hz', hts⟩ := (ofBytes (r.bytes ++ rest) source).lexes_ahead.exists_rendering
  have hr : r.bytes ++ rest = r'.bytes ++ rest' := hr
  have cut (r : Rendering) {rest : Bytes} (hz : ∀ b ∈ rest.head?, b = 0) :
      (r.bytes ++ rest).takeWhile (· != 0) = r.bytes := by
    refine takeWhile_append_eq (fun b hb => bne_iff_ne.mpr ?_) (by simpa using hz)
    rintro rfl
    exact r.zero_notMem_bytes hb
  have hbytes : r.bytes = r'.bytes := by rw [← cut r hz, hr, cut r' hz']
  rw [hts, Rendering.values, Rendering.values,
    Lexeme.values_unique r.separated r'.separated r.blank r'.blank hbytes]

theorem values_ahead_rendering (r : Rendering) (source : Option SourceId) :
    (ofBytes r.bytes source).ahead.map (·.value) = r.values ++ [.eof] := by
  have h : (ofBytes (r.bytes ++ []) source).ahead.map (·.value) = _ :=
    values_ahead_append (by simp) source
  rwa [List.append_nil] at h

/-- What is written out as tokens is read back as these tokens and the end. Conversely, an input is
its tokens written out, up to a NUL if there is one, and in whatever way these are written out
again, they are read back. -/
theorem tokens_rendering (source : Option SourceId) :
    (∀ r : Rendering,
      (ofBytes r.bytes source).tokens.map (·.value) = r.values ++ [.eof]) ∧
    ∀ bytes : Bytes,
      (∃ (r : Rendering) (rest : Bytes), bytes = r.bytes ++ rest ∧ (∀ b ∈ rest.head?, b = 0) ∧
        (ofBytes bytes source).tokens.map (·.value) = r.values ++ [.eof]) ∧
      ∀ r : Rendering, r.values ++ [.eof] = (ofBytes bytes source).tokens.map (·.value) →
        (ofBytes r.bytes source).tokens.map (·.value) =
          (ofBytes bytes source).tokens.map (·.value) := by
  simp only [tokens_ofBytes]
  refine ⟨fun r => values_ahead_rendering r source, fun bytes => ⟨?_, fun r hr => ?_⟩⟩
  · exact (ofBytes bytes source).lexes_ahead.exists_rendering
  · exact (values_ahead_rendering r source).trans hr

/-- The number and the name of `12ab 3` may touch, and `012ab` with a tab before the 3 is another
way to write them out. -/
theorem tokens_rendering_touching :
    (ofBytes [0x30, 0x31, 0x32, 0x61, 0x62, 0x09, 0x33]).tokens.map (·.value) =
        (ofBytes [0x31, 0x32, 0x61, 0x62, 0x20, 0x33]).tokens.map (·.value) ∧
      (ofBytes [0x30, 0x31, 0x32, 0x61, 0x62, 0x09, 0x33]).tokens.map (·.value) =
        [.uint 12, .ident [0x61, 0x62], .uint 3, .eof] := by
  let twelve : Lexeme :=
    { value := .uint 12, text := [0x30, 0x31, 0x32]
      written := .uint (by decide) (by decide +kernel) (by decide) }
  let name : Lexeme :=
    { value := .ident [0x61, 0x62], text := [0x61, 0x62]
      written := .ident ⟨0x61, by decide, by decide⟩ (by decide +kernel) }
  let three : Lexeme :=
    { value := .uint 3, text := [0x33], blanks := [0x09]
      written := .uint (by decide) (by decide +kernel) (by decide) }
  let r : Rendering :=
    { lexemes := [twelve, name, three]
      separated := .cons_cons nofun (.cons_cons (fun _ => List.cons_ne_nil _ _) (.singleton _)) }
  have h := tokens_rendering none
  exact ⟨(h.2 _).2 r (by decide +kernel), h.1 r⟩

end Lexer
end Calculator
