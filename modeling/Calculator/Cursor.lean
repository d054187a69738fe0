import Calculator.Position
import Calculator.Text.Ascii

/-! Reading a byte string forwards while keeping count of lines and columns. -/

namespace Calculator

/-- A place in a byte string that is read from front to back. -/
structure Cursor where
  /-- The bytes that are still to be read. -/
  rest : Bytes
  pos : Position := {}
  /-- How many more bytes may belong to the character that was read last. -/
  pending : Nat := 0
deriving DecidableEq

namespace Cursor

def ofBytes (bytes : Bytes) (source : Option SourceId := none) : Cursor :=
  { rest := bytes, pos := .startOf source }

def peek (c : Cursor) : Option UInt8 := c.rest.head?

def isContinuation (b : UInt8) : Bool := 0x80 ≤ b && b ≤ 0xbf

/-- How many bytes may follow the first one of a character. -/
def followers (b : UInt8) : Nat :=
  if 0xc0 ≤ b ∧ b ≤ 0xdf then 1
  else if 0xe0 ≤ b ∧ b ≤ 0xef then 2
  else if 0xf0 ≤ b ∧ b ≤ 0xf7 then 3
  else 0

/-- Reads a byte that starts something new: a line break, of which a carriage return and the line
feed after it make one, or a character, which takes one column. -/
def startWith (b : UInt8) (rest : Bytes) (pos : Position) : Cursor :=
  let pos := { pos with byte := pos.byte + 1 }
  if b = 0x0d ∧ rest.head? = some 0x0a then { rest, pos }
  else if b = 0x0a ∨ b = 0x0d then { rest, pos := { pos with line := pos.line + 1, col := 1 } }
  else { rest, pos := { pos with col := pos.col + 1 }, pending := followers b }

/-- Reads a byte, unless there is none left. -/
def next? (c : Cursor) : Option (UInt8 × Cursor) :=
  match c.rest with
  | [] => none
  | b :: rest =>
    if 0 < c.pending ∧ isContinuation b then
      some (b, { rest, pos := { c.pos with byte := c.pos.byte + 1 }, pending := c.pending - 1 })
    else some (b, startWith b rest c.pos)

/-- Reads up to `n` bytes, fewer where the input ends first. -/
def take : Nat → Cursor → Bytes × Cursor
  | 0, c => ([], c)
  | n + 1, c =>
    match c.next? with
    | none => ([], c)
    | some (b, c) =>
      let (bytes, c) := take n c
      (b :: bytes, c)

/-- Reads the longest run of bytes that satisfy `p`. -/
def takeWhile (p : UInt8 → Bool) (c : Cursor) : Bytes × Cursor :=
  c.take (c.rest.takeWhile p).length

theorem startWith_rest (b : UInt8) (rest : Bytes) (pos : Position) :
    (startWith b rest pos).rest = rest := by
  unfold startWith
  split
  · rfl
  · split <;> rfl

theorem next?_eq_none_iff {c : Cursor} : c.next? = none ↔ c.rest = [] := by
  unfold next?
  split
  · simp [*]
  · split <;> simp [*]

/-- Reading takes the first byte off the rest. -/
theorem rest_eq_of_next? {c d : Cursor} {b : UInt8} (h : c.next? = some (b, d)) :
    c.rest = b :: d.rest := by
  unfold next? at h
  split at h
  · cases h
  · next hr =>
    split at h <;> cases h
    · exact hr
    · rw [hr, startWith_rest]

theorem startWith_byte (b : UInt8) (rest : Bytes) (pos : Position) :
    (startWith b rest pos).pos.byte = pos.byte + 1 := by
  unfold startWith
  split
  · rfl
  · split <;> rfl

/-- Each byte that is read counts. -/
theorem byte_of_next? {c d : Cursor} {b : UInt8} (h : c.next? = some (b, d)) :
    d.pos.byte = c.pos.byte + 1 := by
  unfold next? at h
  split at h
  · cases h
  · split at h <;> cases h
    · rfl
    · exact startWith_byte _ _ _

private theorem take_eq (n : Nat) (c : Cursor) :
    (c.take n).1 = c.rest.take n ∧ (c.take n).2.rest = c.rest.drop n := by
  induction n generalizing c with
  | zero => exact ⟨rfl, rfl⟩
  | succ n ih =>
    cases h : c.next? with
    | none => simp [take, h, next?_eq_none_iff.mp h]
    | some p =>
      obtain ⟨b, d⟩ := p
      simp [take, h, rest_eq_of_next? h, ih d]

theorem take_fst (n : Nat) (c : Cursor) : (c.take n).1 = c.rest.take n := (take_eq n c).1

theorem take_rest (n : Nat) (c : Cursor) : (c.take n).2.rest = c.rest.drop n := (take_eq n c).2

theorem take_byte {n : Nat} {c : Cursor} (hn : n ≤ c.rest.length) :
    (c.take n).2.pos.byte = c.pos.byte + n := by
  induction n generalizing c with
  | zero => rfl
  | succ n ih =>
    cases h : c.next? with
    | none => simp [next?_eq_none_iff.mp h] at hn
    | some p =>
      obtain ⟨b, d⟩ := p
      rw [rest_eq_of_next? h] at hn
      simp only [take, h, ih (Nat.le_of_succ_le_succ hn), byte_of_next? h]
      omega

theorem takeWhile_fst (p : UInt8 → Bool) (c : Cursor) :
    (c.takeWhile p).1 = c.rest.takeWhile p := by
  have h := List.takeWhile_append_dropWhile (p := p) (l := c.rest)
  rw [takeWhile, take_fst]
  conv => lhs; arg 2; rw [← h]
  exact List.take_left

theorem takeWhile_rest (p : UInt8 → Bool) (c : Cursor) :
    (c.takeWhile p).2.rest = c.rest.dropWhile p := by
  have h := List.takeWhile_append_dropWhile (p := p) (l := c.rest)
  rw [takeWhile, take_rest]
  conv => lhs; arg 2; rw [← h]
  exact List.drop_left

theorem takeWhile_append_rest (p : UInt8 → Bool) (c : Cursor) :
    (c.takeWhile p).1 ++ (c.takeWhile p).2.rest = c.rest := by
  rw [takeWhile_fst, takeWhile_rest, List.takeWhile_append_dropWhile]

theorem of_mem_takeWhile {p : UInt8 → Bool} {c : Cursor} {b : UInt8}
    (h : b ∈ (c.takeWhile p).1) : p b = true := by
  rw [takeWhile_fst] at h
  exact List.all_eq_true.mp List.all_takeWhile b h

/-- Behind a run comes nothing that would go on it. -/
theorem head?_rest_takeWhile (p : UInt8 → Bool) (c : Cursor) :
    ∀ b ∈ (c.takeWhile p).2.rest.head?, p b = false := by
  rw [takeWhile_rest]
  intro b hb
  have h := List.head?_dropWhile_not p c.rest
  rwa [hb] at h

theorem takeWhile_byte (p : UInt8 → Bool) (c : Cursor) :
    (c.takeWhile p).2.pos.byte = c.pos.byte + (c.rest.takeWhile p).length :=
  take_byte (List.takeWhile_prefix p).length_le

end Cursor
end Calculator
