import Calculator.Dump
import Calculator.Proofs.Places
import Calculator.Proofs.Registration

/-!
# Reading a plain dump

A plain dump has a line for each token, which says the token's own line and its value. Both can be
read back from the dump of any input (`PlainDump.decode`), so inputs with the same dump have the
same values in the same lines (`PlainDump.shows_ofInput`).
-/

namespace Calculator

/-- The lines of a text in which a line feed ends each of them. -/
def Bytes.lines (bytes : Bytes) : List Bytes := (bytes.splitOn 0x0a).dropLast

/-- What a plain dump says of a token. -/
def Token.entry (t : Token) : Nat × Token.Value := (t.span.start.line, t.value)

namespace PlainDump

/-! ### Reading -/

/-- What follows a text at the beginning of a byte string. -/
def behind? (text : String) (bytes : Bytes) : Option Bytes :=
  (Bytes.ofString text).isPrefixOf? bytes

/-- The number that a hexadecimal digit stands for. -/
def hexValue (digit : UInt8) : UInt8 :=
  if Ascii.isDigit digit then digit - 0x30 else digit - 0x57

/-- The byte that is shown as itself or by its hexadecimal escape. -/
def byte? : Bytes → Option UInt8
  | [b] => some b
  | [_, _, high, low] => some (16 * hexValue high + hexValue low)
  | _ => none

def value? (shown : Bytes) : Option Token.Value :=
  ((behind? "TOKEN_UINT: " shown).map fun digits => .uint (.ofNat (Decimal.value digits))) <|>
  ((behind? "TOKEN_NAME: " shown).map .ident) <|>
  (((behind? "TOKEN: " shown).bind byte?).map .other) <|>
  ((behind? "TOKEN_EOF" shown).map fun _ => .eof)

def ofLine? (line : Bytes) : Option (Nat × Token.Value) := do
  let text ← behind? "#" line
  let shown ← behind? " " (text.dropWhile Ascii.isDigit)
  return (Decimal.value (text.takeWhile Ascii.isDigit), ← value? shown)

/-- The line of a dump that shows the name of the input. -/
def header (name : String) : String := "#name " ++ name ++ "\n"

/-- Reads the dump of an input with a known name. -/
def decode (name : String) (dump : Bytes) : Option (List (Nat × Token.Value)) := do
  let body ← behind? (header name) dump
  body.lines.mapM ofLine?

/-! ### Values -/

theorem behind?_append (text : String) (rest : Bytes) :
    behind? text (.ofString text ++ rest) = some rest :=
  List.isPrefixOf?_eq_some_iff_append_eq.mpr rfl

/-- The hexadecimal digit of a number below 16. -/
def hexDigit (d : Nat) : UInt8 := .ofNat (if d < 10 then 0x30 + d else 0x57 + d)

private theorem utf8EncodeChar_digitChar :
    ∀ d < 16, String.utf8EncodeChar (Nat.digitChar d) = [hexDigit d] := by decide

private theorem hexValue_hexDigit : ∀ d < 16, hexValue (hexDigit d) = .ofNat d := by decide

theorem ofString_text_of_isGraphic {b : UInt8} (h : Ascii.isGraphic b = true) :
    Bytes.ofString (Ascii.text b) = [b] := by
  have hb : b.toNat ≤ 0x7e := by
    simp only [Ascii.isGraphic, Bool.and_eq_true, decide_eq_true_eq] at h
    exact h.2
  have hc : (Ascii.char b).toNat = b.toNat := by
    rw [Ascii.char, Char.ofNat, dif_pos (.inl (by omega))]
    rfl
  have he : String.utf8EncodeChar (Ascii.char b) = [.ofNat (Ascii.char b).toNat] :=
    if_pos (show (Ascii.char b).toNat ≤ 127 by omega)
  rw [Ascii.text, if_pos h, Bytes.ofString, String.toList_singleton, List.flatMap_singleton, he, hc,
    UInt8.ofNat_toNat]

theorem ofString_text_of_not_isGraphic {b : UInt8} (h : Ascii.isGraphic b = false) :
    Bytes.ofString (Ascii.text b) =
      [0x5c, 0x78, hexDigit (b.toNat / 16), hexDigit (b.toNat % 16)] := by
  have hhigh := utf8EncodeChar_digitChar (b.toNat / 16) (by have := b.toNat_lt; omega)
  have hlow := utf8EncodeChar_digitChar (b.toNat % 16) (Nat.mod_lt _ (by decide))
  rw [Ascii.text, h, if_neg Bool.false_ne_true, Ascii.hexEscape, Bytes.ofString,
    String.toList_ofList]
  simp only [List.flatMap_cons, List.flatMap_nil, hhigh, hlow]
  rfl

theorem byte?_text (b : UInt8) : byte? (.ofString (Ascii.text b)) = some b := by
  cases h : Ascii.isGraphic b with
  | true => rw [ofString_text_of_isGraphic h, byte?]
  | false =>
    rw [ofString_text_of_not_isGraphic h, byte?,
      hexValue_hexDigit _ (by have := b.toNat_lt; omega),
      hexValue_hexDigit _ (Nat.mod_lt _ (by decide))]
    have hb : 16 * UInt8.ofNat (b.toNat / 16) + UInt8.ofNat (b.toNat % 16) =
        UInt8.ofNat (16 * (b.toNat / 16) + b.toNat % 16) := by simp
    rw [hb, Nat.div_add_mod, UInt8.ofNat_toNat]

/-- The texts before the values cannot be taken for one another. -/
theorem value?_dump (v : Token.Value) : value? v.dump = some v := by
  cases v with
  | uint n => simp [value?, Token.Value.dump, behind?_append, Decimal.value_ofNat]
  | ident name =>
    have hu : behind? "TOKEN_UINT: " (.ofString "TOKEN_NAME: " ++ name) = none := rfl
    simp [value?, Token.Value.dump, behind?_append, hu]
  | other b =>
    have hu (rest : Bytes) : behind? "TOKEN_UINT: " (.ofString "TOKEN: " ++ rest) = none := rfl
    have hn (rest : Bytes) : behind? "TOKEN_NAME: " (.ofString "TOKEN: " ++ rest) = none := rfl
    simp [value?, Token.Value.dump, Bytes.ofString_append, behind?_append, hu, hn, byte?_text]
  | eof => rfl

/-! ### Lines -/

/-- The line of a dump for a token, without the line feed that ends it. -/
def line (entry : Nat × Token.Value) : Bytes :=
  .ofString "#" ++ Decimal.ofNat entry.1 ++ .ofString " " ++ entry.2.dump

theorem dumpLine_eq (t : Token) : t.dumpLine = line t.entry ++ [0x0a] :=
  congrArg (line t.entry ++ ·) (show Bytes.ofString "\n" = [0x0a] by decide +kernel)

theorem ofLine?_line (entry : Nat × Token.Value) : ofLine? (line entry) = some entry := by
  have hd : ∀ b ∈ Decimal.ofNat entry.1, Ascii.isDigit b = true :=
    fun _ => Decimal.isDigit_of_mem_ofNat
  have hs (rest : Bytes) : (Bytes.ofString " " ++ rest).takeWhile Ascii.isDigit = [] := rfl
  have hs' (rest : Bytes) :
      (Bytes.ofString " " ++ rest).dropWhile Ascii.isDigit = Bytes.ofString " " ++ rest := rfl
  simp [ofLine?, line, List.append_assoc, behind?_append, List.takeWhile_append_of_pos hd,
    List.dropWhile_append_of_pos hd, hs, hs', value?_dump, Decimal.value_ofNat]

private theorem lineFeed_ne_of_isGraphic {b : UInt8} (h : Ascii.isGraphic b = true) : 0x0a ≠ b := by
  rintro rfl
  exact absurd h (by decide)

private theorem lineFeed_ne_hexDigit : ∀ d < 16, 0x0a ≠ hexDigit d := by decide

private theorem lineFeed_notMem_text (b : UInt8) : 0x0a ∉ Bytes.ofString (Ascii.text b) := by
  cases h : Ascii.isGraphic b with
  | true =>
    rw [ofString_text_of_isGraphic h]
    exact fun hm => lineFeed_ne_of_isGraphic h (List.mem_singleton.mp hm)
  | false =>
    have hhigh := lineFeed_ne_hexDigit (b.toNat / 16) (by have := b.toNat_lt; omega)
    have hlow := lineFeed_ne_hexDigit (b.toNat % 16) (Nat.mod_lt _ (by decide))
    rw [ofString_text_of_not_isGraphic h]
    simp [hhigh, hlow]

private theorem lineFeed_notMem_ofNat (n : Nat) : 0x0a ∉ Decimal.ofNat n := fun h =>
  absurd (Decimal.isDigit_of_mem_ofNat h) (by decide)

/-- A value that was read from an input does not break its line. The bytes of a name are not
escaped, but there is no line feed among them. -/
theorem lineFeed_notMem_dump {v : Token.Value} (h : v = .eof ∨ ∃ text, v.Written text) :
    0x0a ∉ v.dump := by
  have hu : 0x0a ∉ Bytes.ofString "TOKEN_UINT: " := by decide +kernel
  have hn : 0x0a ∉ Bytes.ofString "TOKEN_NAME: " := by decide +kernel
  have ho : 0x0a ∉ Bytes.ofString "TOKEN: " := by decide +kernel
  rcases h with rfl | ⟨text, hw⟩
  · decide +kernel
  cases hw with
  | uint => exact List.not_mem_append hu (lineFeed_notMem_ofNat _)
  | ident _ hp =>
    exact List.not_mem_append hn fun hm =>
      lineFeed_ne_of_isGraphic (Ascii.isGraphic_of_isNamePart (hp _ hm)) rfl
  | @other b =>
    rw [Token.Value.dump, Bytes.ofString_append]
    exact List.not_mem_append ho (lineFeed_notMem_text b)

theorem lineFeed_notMem_line {entry : Nat × Token.Value} (h : 0x0a ∉ entry.2.dump) :
    0x0a ∉ line entry := by
  have hh : 0x0a ∉ Bytes.ofString "#" := by decide +kernel
  have hb : 0x0a ∉ Bytes.ofString " " := by decide +kernel
  exact List.not_mem_append
    (List.not_mem_append (List.not_mem_append hh (lineFeed_notMem_ofNat _)) hb) h

theorem lines_flatMap {lines : List Bytes} (h : ∀ l ∈ lines, 0x0a ∉ l) :
    Bytes.lines (lines.flatMap (· ++ [0x0a])) = lines := by
  have hs : (lines.flatMap (· ++ [0x0a])).splitOn 0x0a = lines ++ [[]] := by
    induction lines with
    | nil => rfl
    | cons l lines ih =>
      obtain ⟨hl, h⟩ := List.forall_mem_cons.mp h
      rw [List.flatMap_cons, List.append_assoc, List.singleton_append,
        List.splitOn_append_cons_self_of_not_mem hl, ih h, List.cons_append]
  rw [Bytes.lines, hs, List.dropLast_concat]

theorem mapM_ofLine?_line (entries : List (Nat × Token.Value)) :
    (entries.map line).mapM ofLine? = some entries := by
  induction entries with
  | nil => rfl
  | cons entry entries ih =>
    rw [List.map_cons, List.mapM_cons, ofLine?_line, ih]
    rfl

end PlainDump

namespace Lexer

/-- A plain dump shows the name of an input and what its tokens are without the id. -/
theorem dump_plain (sources : Sources) (bytes : Bytes) (source : Option SourceId) :
    Token.dump sources (ofBytes bytes source).tokens .plain =
      .ofString ("#name " ++ sources.nameOf source ++ "\n") ++
        (ofBytes bytes).tokens.flatMap Token.dumpLine := by
  have ht : (ofBytes bytes source).tokens = (ofBytes bytes).tokens.map (Token.inSource source) :=
    (ofBytes bytes).ahead_inSource source
  have hs : (ofBytes bytes source).tokens.head?.bind (·.span.start.source) = source := by
    rw [ht, tokens_ofBytes, ahead_eq]
    rfl
  rw [Token.dump, Token.dumpPieces, hs, ht, List.flatten_cons, List.map_map]
  rfl

end Lexer

/-! ### Dumps of inputs -/

namespace PlainDump

/-- A session with one input, and the tokens of the input. -/
def load (name : String) (bytes : Bytes) : Sources × List Token :=
  let (id, sources) := ({} : Sources).load name bytes
  (sources, (Lexer.ofBytes bytes (some id)).tokens)

/-- The plain dump of an input that is loaded under a name. -/
def ofInput (name : String) (bytes : Bytes) : Bytes :=
  Token.dump (load name bytes).1 (load name bytes).2 .plain

/-- What the dump of an input shows of its tokens. -/
def entries (name : String) (bytes : Bytes) : List (Nat × Token.Value) :=
  (load name bytes).2.map Token.entry

variable (name : String) (bytes : Bytes)

theorem entries_eq : entries name bytes = (Lexer.ofBytes bytes).tokens.map Token.entry := by
  have ht : (load name bytes).2 =
      (Lexer.ofBytes bytes).tokens.map (Token.inSource (some ⟨0⟩)) :=
    (Lexer.ofBytes bytes).ahead_inSource (some ⟨0⟩)
  rw [entries, ht, List.map_map]
  rfl

theorem ofInput_eq : ofInput name bytes =
    Bytes.ofString (header name) ++ ((entries name bytes).map line).flatMap (· ++ [0x0a]) := by
  have h : ofInput name bytes =
      .ofString (header name) ++ (Lexer.ofBytes bytes).tokens.flatMap Token.dumpLine :=
    Lexer.dump_plain _ bytes (some ⟨0⟩)
  rw [h, entries_eq, List.map_map, List.flatMap_map]
  exact congrArg (fun f => _ ++ List.flatMap f _) (funext dumpLine_eq)

theorem lineFeed_notMem_of_mem_entries {l : Bytes} (h : l ∈ (entries name bytes).map line) :
    0x0a ∉ l := by
  rw [entries_eq, List.map_map] at h
  obtain ⟨t, ht, rfl⟩ := List.mem_map.mp h
  refine lineFeed_notMem_line (lineFeed_notMem_dump ?_)
  cases he : t.isEof with
  | true => exact .inl (Token.value_of_isEof he)
  | false => exact .inr ⟨_, ((Lexer.tokens_partition bytes none).written ht he).2.2.1⟩

theorem decode_ofInput : decode name (ofInput name bytes) = some (entries name bytes) := by
  rw [decode, ofInput_eq, behind?_append]
  change (Bytes.lines _).mapM ofLine? = _
  rw [lines_flatMap fun _ => lineFeed_notMem_of_mem_entries name bytes, mapM_ofLine?_line]

/-- Tokens are listed from line to line. -/
theorem pairwise_entries : (entries name bytes).Pairwise fun s t => s.1 ≤ t.1 := by
  have hp := Lexer.tokens_partition bytes none
  rw [entries_eq, List.pairwise_map]
  refine hp.ordered.imp_of_mem fun {s t} hs ht hst => ?_
  have hs := Lexer.isStretch_of_mem hs
  have ht := Lexer.isStretch_of_mem ht
  exact hs.start.line_le ht.start (Nat.le_trans hs.byte_le hst)

/-- What can be read from the plain dump of an input. -/
structure Shows (dump : Bytes) (entries : List (Nat × Token.Value)) : Prop where
  decoded : decode name dump = some entries
  /-- Behind the header there is a line for each token and nothing else. -/
  lines : ∃ lines : List Bytes, dump = Bytes.ofString (header name) ++ lines.flatMap (· ++ [0x0a]) ∧
    lines.length = entries.length ∧ ∀ l ∈ lines, 0x0a ∉ l
  ordered : entries.Pairwise fun s t => s.1 ≤ t.1

/-- The lines and values of the tokens of an input can be read from its plain dump. So inputs have
the same dump under a name exactly if their tokens have the same values in the same lines. -/
theorem shows_ofInput : Shows name (ofInput name bytes) (entries name bytes) ∧
    ∀ bytes', ofInput name bytes = ofInput name bytes' ↔
      entries name bytes = entries name bytes' where
  left := {
    decoded := decode_ofInput name bytes
    lines := ⟨_, ofInput_eq name bytes, List.length_map _,
      fun _ => lineFeed_notMem_of_mem_entries name bytes⟩
    ordered := pairwise_entries name bytes }
  right bytes' := by
    constructor
    · intro h
      have hd := decode_ofInput name bytes
      rw [h, decode_ofInput] at hd
      exact (Option.some.inj hd).symm
    · intro h
      rw [ofInput_eq, ofInput_eq, h]

/-- A backslash is shown as itself and begins the escape of another byte. -/
example : ofInput "x" [0x5c, 0x0a, 0x01] =
    .ofString "#name x\n#1 TOKEN: \\\n#2 TOKEN: \\x01\n#2 TOKEN_EOF\n" := by
  decide +kernel

end PlainDump
end Calculator
