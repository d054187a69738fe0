import Calculator.Proofs.Cursor.Segments

/-!
# Lines and columns

The line of a cursor counts the line breaks that it has read, its column what it has begun behind
the last of them (`Cursor.pos_take`). In the bytes of a text, what takes a column is a character
(`filter_segmentsFrom`): of the bytes of a character only the first one begins something, and it
says how many the others are (`Encodes`).
-/

namespace Calculator

/-- Characters with the places of their first bytes. -/
def charactersFrom (start : Nat) : List Char → List (Nat × Char)
  | [] => []
  | c :: cs => (start, c) :: charactersFrom (start + c.utf8Size) cs

/-- The characters of a text, at their places in its bytes. -/
def characters (text : String) : List (Nat × Char) := charactersFrom 0 text.toList

/-- A character that breaks no line. -/
def takesColumn (c : Char) : Bool := c != '\r' && c != '\n'

/-! ### The bytes of a character -/

theorem followers_of_toNat {b : UInt8} {n : Nat} (h : b.toNat = n) :
    Cursor.followers b =
      if 0xc0 ≤ n ∧ n ≤ 0xdf then 1
      else if 0xe0 ≤ n ∧ n ≤ 0xef then 2
      else if 0xf0 ≤ n ∧ n ≤ 0xf7 then 3
      else 0 := by
  subst h
  rfl

/-- Six bits, marked as the bits of a byte that goes on. -/
def continuation (n : Nat) : UInt8 := .ofNat (n % 64 + 128)

theorem isContinuation_continuation (n : Nat) : Cursor.isContinuation (continuation n) = true := by
  have hn : (continuation n).toNat = n % 64 + 128 :=
    UInt8.toNat_ofNat_of_lt (show _ < 256 by omega)
  simp only [Cursor.isContinuation, UInt8.le_iff_toNat_le, hn, Bool.and_eq_true, decide_eq_true_eq]
  change 128 ≤ _ ∧ _ ≤ 191
  omega

/-- A character is encoded as a byte and those that go on it. -/
structure Encodes (c : Char) (b : UInt8) (tail : Bytes) : Prop where
  eq : String.utf8EncodeChar c = b :: tail
  followers : Cursor.followers b = tail.length
  goes_on : ∀ x ∈ tail, Cursor.isContinuation x = true
  /-- The byte of a character of one byte is the first byte of no other. -/
  ascii_iff {d : Char} (hd : d.toNat ≤ 127) : b.toNat = d.toNat ↔ c = d

namespace Encodes
variable {c : Char} {b : UInt8} {tail : Bytes}

theorem ascii (h : c.toNat ≤ 127) : Encodes c (.ofNat c.toNat) [] := by
  have hb : (UInt8.ofNat c.toNat).toNat = c.toNat :=
    UInt8.toNat_ofNat_of_lt (Nat.lt_of_le_of_lt h (by decide))
  constructor
  · exact if_pos h
  · rw [followers_of_toNat hb, if_neg (by omega), if_neg (by omega), if_neg (by omega)]
    rfl
  · exact nofun
  · intro d _
    rw [hb, Char.toNat_inj]

/-- More than one byte. -/
theorem lead (n : Nat) (ns : List Nat) (h : 127 < c.toNat) (h0 : 127 < n) (h1 : n < 256)
    (eq : String.utf8EncodeChar c = .ofNat n :: ns.map continuation)
    (hf : ∀ b : UInt8, b.toNat = n → Cursor.followers b = ns.length) :
    Encodes c (.ofNat n) (ns.map continuation) := by
  have hb : (UInt8.ofNat n).toNat = n := UInt8.toNat_ofNat_of_lt h1
  constructor
  · exact eq
  · rw [hf _ hb, List.length_map]
  · exact List.forall_mem_map.mpr fun n _ => isContinuation_continuation n
  · intro d hd
    rw [hb, ← Char.toNat_inj]
    omega

theorem lineFeed (h : Encodes c b tail) : b = 0x0a ↔ c = '\n' :=
  UInt8.toNat_inj.symm.trans (h.ascii_iff (d := '\n') (by decide))

theorem carriageReturn (h : Encodes c b tail) : b = 0x0d ↔ c = '\r' :=
  UInt8.toNat_inj.symm.trans (h.ascii_iff (d := '\r') (by decide))

end Encodes

/-- The branches are the ones of the encoding. -/
theorem exists_encodes (c : Char) : ∃ b tail, Encodes c b tail := by
  by_cases h1 : c.toNat ≤ 127
  · exact ⟨_, _, .ascii h1⟩
  have h : 127 < c.toNat := Nat.lt_of_not_le h1
  by_cases h2 : c.toNat ≤ 2047
  · refine ⟨_, _, .lead (c.toNat / 64 % 32 + 192) [c.toNat] h (by omega) (by omega)
      ((if_neg h1).trans (if_pos h2)) fun b hb => ?_⟩
    rw [followers_of_toNat hb, if_pos (by omega)]
    rfl
  by_cases h3 : c.toNat ≤ 65535
  · refine ⟨_, _, .lead (c.toNat / 4096 % 16 + 224) [c.toNat / 64, c.toNat] h (by omega)
      (by omega) ((if_neg h1).trans <| (if_neg h2).trans (if_pos h3)) fun b hb => ?_⟩
    rw [followers_of_toNat hb, if_neg (by omega), if_pos (by omega)]
    rfl
  · refine ⟨_, _, .lead (c.toNat / 262144 % 8 + 240) [c.toNat / 4096, c.toNat / 64, c.toNat] h
      (by omega) (by omega) ((if_neg h1).trans <| (if_neg h2).trans (if_neg h3)) fun b hb => ?_⟩
    rw [followers_of_toNat hb, if_neg (by omega), if_neg (by omega), if_pos (by omega)]
    rfl

/-! ### The segments of a text -/

theorem followingLength_append {tail : Bytes} (h : ∀ x ∈ tail, Cursor.isContinuation x = true)
    (rest : Bytes) : followingLength tail.length (tail ++ rest) = tail.length := by
  induction tail with
  | nil => rfl
  | cons x tail ih =>
    obtain ⟨hx, h⟩ := List.forall_mem_cons.mp h
    rw [List.length_cons, List.cons_append, followingLength_cons, if_pos hx, ih h]

namespace Encodes
variable {c : Char} {b : UInt8} {tail : Bytes}

theorem length_tail (h : Encodes c b tail) : tail.length + 1 = c.utf8Size := by
  rw [← String.length_utf8EncodeChar, h.eq, List.length_cons]

/-- All bytes of a character are of one segment. -/
theorem tailLength_eq (h : Encodes c b tail) {rest : Bytes}
    (hr : c = '\r' → rest.head? ≠ some 0x0a) : tailLength b (tail ++ rest) = tail.length := by
  by_cases hc : c = '\r'
  · have hlen : tail.length + 1 = 1 := by rw [h.length_tail, hc]; rfl
    obtain rfl : tail = [] := List.length_eq_zero_iff.mp (Nat.succ.inj hlen)
    rw [h.carriageReturn.mpr hc]
    exact tailLength_carriageReturn (hr hc)
  · rw [Calculator.tailLength_eq (mt h.carriageReturn.mp hc), h.followers,
      followingLength_append h.goes_on]

end Encodes

/-- A character is a segment, unless it is a carriage return in front of a line feed. -/
theorem segmentsFrom_char (o : Nat) (c : Char) {rest : Bytes}
    (hr : c = '\r' → rest.head? ≠ some 0x0a) :
    segmentsFrom o (String.utf8EncodeChar c ++ rest) =
      ⟨o, String.utf8EncodeChar c⟩ :: segmentsFrom (o + c.utf8Size) rest := by
  obtain ⟨b, tail, h⟩ := exists_encodes c
  rw [h.eq, List.cons_append, segmentsFrom, Segment.first, h.tailLength_eq hr, List.take_left,
    List.drop_left, Segment.stop, List.length_cons, h.length_tail]

theorem isBreak_char (o : Nat) (c : Char) :
    (!Segment.isBreak ⟨o, String.utf8EncodeChar c⟩) = takesColumn c := by
  by_cases hr : c = '\r'
  · subst hr
    rfl
  by_cases hn : c = '\n'
  · subst hn
    rfl
  obtain ⟨b, tail, h⟩ := exists_encodes c
  rw [h.eq, Segment.isBreak_eq_false (mt h.lineFeed.mp hn) (mt h.carriageReturn.mp hr)]
  simp [takesColumn, hr, hn]

theorem segmentsFrom_pair (o : Nat) (rest : Bytes) :
    segmentsFrom o (0x0d :: 0x0a :: rest) = ⟨o, [0x0d, 0x0a]⟩ :: segmentsFrom (o + 2) rest := by
  rw [segmentsFrom]
  rfl

theorem eq_lineFeed_of_head? {cs : List Char}
    (h : (cs.flatMap String.utf8EncodeChar).head? = some 0x0a) : ∃ cs', cs = '\n' :: cs' := by
  cases cs with
  | nil => cases h
  | cons c cs =>
    obtain ⟨b, tail, hc⟩ := exists_encodes c
    rw [List.flatMap_cons, hc.eq] at h
    cases h
    exact ⟨cs, by rw [hc.lineFeed.mp rfl]⟩

/-- Of the segments of encoded characters, those that break no line are the characters other than
carriage returns and line feeds. -/
theorem filter_segmentsFrom (o : Nat) : ∀ cs : List Char,
    (segmentsFrom o (cs.flatMap String.utf8EncodeChar)).filter (!·.isBreak) =
      ((charactersFrom o cs).filter (takesColumn ·.2)).map
        fun p => ⟨p.1, String.utf8EncodeChar p.2⟩
  | [] => by
    rw [List.flatMap_nil, segmentsFrom]
    rfl
  | c :: cs => by
    by_cases hp : c = '\r' ∧ (cs.flatMap String.utf8EncodeChar).head? = some 0x0a
    · -- Two characters are one segment here, and both sides leave them out.
      obtain ⟨rfl, hh⟩ := hp
      obtain ⟨cs, rfl⟩ := eq_lineFeed_of_head? hh
      exact (congrArg _ (segmentsFrom_pair o _)).trans (filter_segmentsFrom (o + 2) cs)
    · rw [List.flatMap_cons, segmentsFrom_char o c fun hc hh => hp ⟨hc, hh⟩, List.filter_cons,
        isBreak_char, charactersFrom, List.filter_cons, filter_segmentsFrom]
      split <;> rfl
termination_by cs => cs.length

theorem filter_segments (text : String) :
    (segments (.ofString text)).filter (!·.isBreak) =
      ((characters text).filter (takesColumn ·.2)).map fun p => ⟨p.1, String.utf8EncodeChar p.2⟩ :=
  filter_segmentsFrom 0 text.toList

/-! ### The position of a cursor -/

theorem Position.startOf_after (source : Option SourceId) (segs : List Segment) (k : Nat) :
    (startOf source).after segs k = {
      source
      byte := k
      line := 1 + segs.countP fun s => s.isBreak && s.stop ≤ k
      col := 1 + segs.countP fun s => !s.isBreak && InLastLine segs k s.start } := by
  simp only [after, startOf, ite_self]

namespace Cursor

theorem pos_take_ofBytes {bytes : Bytes} (source : Option SourceId) {k : Nat}
    (hk : k ≤ bytes.length) :
    ((ofBytes bytes source).take k).2.pos = (Position.startOf source).after (segments bytes) k := by
  rw [pos_take_eq_after (.inl rfl) hk]
  exact congrArg _ (Nat.zero_add k)

/-- The line counts the line breaks that were read, the column what was begun behind them. In the
bytes of a text, this is its characters. -/
theorem pos_take {bytes : Bytes} (source : Option SourceId) {k : Nat} (hk : k ≤ bytes.length) :
    ((ofBytes bytes source).take k).2.pos = {
      source
      byte := k
      line := 1 + (segments bytes).countP fun s => s.isBreak && s.stop ≤ k
      col := 1 + (segments bytes).countP fun s =>
        !s.isBreak && InLastLine (segments bytes) k s.start } ∧
    ∀ text, bytes = .ofString text →
      (segments bytes).filter (!·.isBreak) =
        ((characters text).filter (takesColumn ·.2)).map
          (fun p => ⟨p.1, String.utf8EncodeChar p.2⟩) ∧
      ((ofBytes bytes source).take k).2.pos.col = 1 + (characters text).countP fun p =>
        takesColumn p.2 && InLastLine (segments bytes) k p.1 := by
  rw [pos_take_ofBytes source hk, Position.startOf_after]
  refine ⟨rfl, ?_⟩
  rintro text rfl
  have hseg := filter_segments text
  refine ⟨hseg, congrArg (1 + ·) ?_⟩
  have hcount := congrArg
    (List.countP fun s => InLastLine (segments (.ofString text)) k s.start) hseg
  rw [List.countP_filter, List.countP_map, List.countP_filter] at hcount
  simpa only [Bool.and_comm, Function.comp_apply] using hcount

/-- `é` takes two bytes but one column, and the two bytes behind it break one line. -/
theorem pos_take_accented :
    5 ≤ (Bytes.ofString "é\r\nx").length ∧
    ((ofBytes (.ofString "é\r\nx")).take 5).2.pos = { byte := 5, line := 2, col := 2 } ∧
    (segments (.ofString "é\r\nx")).filter (!·.isBreak) =
      [⟨0, String.utf8EncodeChar 'é'⟩, ⟨4, String.utf8EncodeChar 'x'⟩] :=
  have h := pos_take none (show 5 ≤ (Bytes.ofString "é\r\nx").length by decide)
  ⟨by decide, h.1.trans (by decide +kernel), (h.2 "é\r\nx" rfl).1.trans (by decide +kernel)⟩

end Cursor

end Calculator
