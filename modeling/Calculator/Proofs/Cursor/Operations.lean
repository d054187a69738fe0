import Calculator.Proofs.Cursor.Reading

/-!
# Operations on a cursor

What can be asked of a cursor (`Cursor.Operation`), with the answers to one question after the other
(`Cursor.history`), and what its counts have in common wherever it gets (`Cursor.Counts`).
-/

namespace Calculator.Cursor

/-- Reads a byte and says which, if there is one. -/
def read (c : Cursor) : Option UInt8 × Cursor :=
  match c.next? with
  | none => (none, c)
  | some (b, d) => (some b, d)

inductive Operation where
  | next
  | peek
  | take (n : Nat)
  | takeWhile (p : UInt8 → Bool)
  | pos

inductive Answer where
  | byte (b : Option UInt8)
  | bytes (bytes : Bytes)
  | pos (p : Position)
deriving DecidableEq

/-- The answer to a question, and the cursor after it. -/
def Operation.run (c : Cursor) : Operation → Answer × Cursor
  | .next => (.byte c.read.1, c.read.2)
  | .peek => (.byte c.peek, c)
  | .take n => (.bytes (c.take n).1, (c.take n).2)
  | .takeWhile p => (.bytes (c.takeWhile p).1, (c.takeWhile p).2)
  | .pos => (.pos c.pos, c)

/-- The answers to questions, one after the other, and the cursor after them. -/
def history (c : Cursor) : List Operation → List Answer × Cursor
  | [] => ([], c)
  | o :: os => ((o.run c).1 :: ((o.run c).2.history os).1, ((o.run c).2.history os).2)

variable {c d : Cursor} {b : UInt8} {bytes : Bytes}

theorem read_of_none (h : c.next? = none) : c.read = (none, c) := by rw [read, h]

theorem read_of_some (h : c.next? = some (b, d)) : c.read = (some b, d) := by rw [read, h]

theorem take_of_none (h : c.next? = none) (n : Nat) : c.take n = ([], c) := by
  cases n with
  | zero => rfl
  | succ n => rw [take, h]

/-- Bytes are taken one by one. -/
theorem take_succ_eq_read (n : Nat) (c : Cursor) :
    c.take (n + 1) = (c.read.1.toList ++ (c.read.2.take n).1, (c.read.2.take n).2) := by
  cases h : c.next? with
  | none => rw [read_of_none h, take_of_none h, take_of_none h]; rfl
  | some p =>
    obtain ⟨b, d⟩ := p
    rw [read_of_some h, take, h]
    rfl

/-! ### Counts -/

theorem followers_le (b : UInt8) : followers b ≤ 3 := by
  unfold followers
  repeat' split
  all_goals decide

theorem pending_le_of_next? (h : c.next? = some (b, d)) (hc : c.pending ≤ 3) : d.pending ≤ 3 := by
  unfold next? at h
  split at h
  · cases h
  · split at h <;> cases h
    · exact Nat.le_trans (Nat.sub_le _ _) hc
    · unfold startWith
      split
      · exact Nat.zero_le _
      · split
        · exact Nat.zero_le _
        · exact followers_le _

/-- A byte moves the line or the column on by one, or neither of them. -/
theorem line_add_col_of_next? (h : c.next? = some (b, d)) (hc : 1 ≤ c.pos.col) :
    1 ≤ d.pos.col ∧ d.pos.line + d.pos.col ≤ c.pos.line + c.pos.col + 1 := by
  unfold next? at h
  split at h
  · cases h
  · split at h <;> cases h
    · exact ⟨hc, Nat.le_succ _⟩
    · unfold startWith
      split
      · exact ⟨hc, Nat.le_succ _⟩
      · split
        · exact ⟨Nat.le_refl _, by dsimp only; omega⟩
        · exact ⟨Nat.le_add_left _ _, Nat.le_refl _⟩

/-- What holds of a cursor over some bytes wherever it is. -/
structure Counts (bytes : Bytes) (c : Cursor) : Prop where
  rest_eq : c.rest = bytes.drop c.pos.byte
  byte_le : c.pos.byte ≤ bytes.length
  one_le_line : 1 ≤ c.pos.line
  one_le_col : 1 ≤ c.pos.col
  /-- Each line and each column takes a byte at least. -/
  line_add_col_le : c.pos.line + c.pos.col ≤ c.pos.byte + 2
  pending_le : c.pending ≤ 3

namespace Counts

theorem ofBytes (bytes : Bytes) (source : Option SourceId) :
    Counts bytes (.ofBytes bytes source) where
  rest_eq := rfl
  byte_le := Nat.zero_le _
  one_le_line := Nat.le_refl _
  one_le_col := Nat.le_refl _
  line_add_col_le := Nat.le_refl _
  pending_le := Nat.zero_le _

theorem byte_add_length (h : Counts bytes c) : c.pos.byte + c.rest.length = bytes.length := by
  have := h.byte_le
  rw [h.rest_eq, List.length_drop]
  omega

theorem next? (h : Counts bytes c) (hn : c.next? = some (b, d)) : Counts bytes d where
  rest_eq := by
    have hr := rest_eq_of_next? hn
    rw [h.rest_eq] at hr
    rw [byte_of_next? hn, ← List.tail_drop, hr]
    rfl
  byte_le := by
    have hlen := h.byte_add_length
    rw [rest_eq_of_next? hn, List.length_cons] at hlen
    rw [byte_of_next? hn]
    omega
  one_le_line := Nat.le_trans h.one_le_line (line_le_of_next? hn)
  one_le_col := (line_add_col_of_next? hn h.one_le_col).1
  line_add_col_le := by
    have hle := (line_add_col_of_next? hn h.one_le_col).2
    have := h.line_add_col_le
    rw [byte_of_next? hn]
    omega
  pending_le := pending_le_of_next? hn h.pending_le

end Counts

end Calculator.Cursor
