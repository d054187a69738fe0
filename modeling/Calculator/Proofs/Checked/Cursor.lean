import Calculator.Proofs.Checked.Run
import Calculator.Proofs.Cursor.Operations

/-!
# A cursor that checks what it does

The cursor with all of its parts: the buffer that stretches are cut from, the bytes that are left
of it, the position, and a state that remembers the end. It follows the cursor over the same bytes
(`Checked.Cursor.Tracks`), and no operation on it breaks off (`Checked.Cursor.Tracks.history`).
-/

namespace Calculator.Checked

/-- What a cursor expects of the next byte. -/
inductive Cursor.State where
  /-- Reading has run into the end. -/
  | ended
  | head
  /-- Up to `n` bytes go on the character that was read last. -/
  | continuation (n : Nat)
deriving DecidableEq

structure Cursor where
  buffer : Bytes
  /-- The bytes of the buffer that are still to be read. -/
  rest : Bytes
  pos : Position := {}
  state : Cursor.State := .head

namespace Cursor

open Calculator.Cursor (isContinuation followers next? Operation Answer Counts rest_eq_of_next?
  next?_eq_none_iff read_of_none read_of_some take_fst take_rest
  take_succ_eq_read)

/-- What is expected of a byte when so many may go on a character. -/
def State.ofPending : Nat → State
  | 0 => .head
  | n + 1 => .continuation (n + 1)

def ofBytes (bytes : Bytes) (source : Option SourceId := none) : Cursor :=
  { buffer := bytes, rest := bytes, pos := .startOf source }

def peek (k : Cursor) : Option UInt8 := k.rest.head?

/-- Counts a byte that starts something new, which is behind the cursor already. -/
def startWith (b : UInt8) (k : Cursor) : Run Cursor :=
  if b = 0x0d ∧ k.peek = some 0x0a then pure { k with state := .head }
  else if b = 0x0a ∨ b = 0x0d then do
    let line ← add k.pos.line 1
    pure { k with pos := { k.pos with line, col := 1 }, state := .head }
  else do
    let col ← add k.pos.col 1
    pure { k with pos := { k.pos with col }, state := .ofPending (followers b) }

/-- The number of bytes that a character waits for. -/
def count (n : Nat) : Run Nat := if 1 ≤ n ∧ n ≤ 3 then pure n else throw .badCount

/-- Counts a byte that is behind the cursor already. -/
def account (b : UInt8) (k : Cursor) : Run Cursor :=
  match k.state with
  | .ended => throw .unreachable
  | .head => startWith b k
  | .continuation n => do
    let n ← count n
    if isContinuation b then
      if n = 1 then pure { k with state := .head }
      else do
        let n ← sub n 1
        pure { k with state := .continuation n }
    else startWith b k

/-- Reads a byte and says which, if there is one. -/
def next (k : Cursor) : Run (Option UInt8 × Cursor) :=
  if k.state = .ended then pure (none, k)
  else
    match k.rest with
    | [] => pure (none, { k with state := .ended })
    | b :: rest => do
      let byte ← add k.pos.byte 1
      let k ← account b { k with rest, pos := { k.pos with byte } }
      pure (some b, k)

/-- Reads `n` times. -/
def skip : Nat → Cursor → Run Cursor
  | 0, k => pure k
  | n + 1, k => do
    let (_, k) ← k.next
    skip n k

/-- Reads up to `n` bytes, which are cut from the buffer afterwards. -/
def take (n : Nat) (k : Cursor) : Run (Bytes × Cursor) := do
  let after ← k.skip n
  let bytes ← slice k.buffer k.pos.byte after.pos.byte
  pure (bytes, after)

/-- Reads the longest run of bytes that satisfy `p`, which are counted first. -/
def takeWhile (p : UInt8 → Bool) (k : Cursor) : Run (Bytes × Cursor) := do
  let n ← word (k.rest.takeWhile p).length
  k.take n

def perform (k : Cursor) : Operation → Run (Answer × Cursor)
  | .next => do
    let (b, k) ← k.next
    pure (.byte b, k)
  | .peek => pure (.byte k.peek, k)
  | .take n => do
    let (bytes, k) ← k.take n
    pure (.bytes bytes, k)
  | .takeWhile p => do
    let (bytes, k) ← k.takeWhile p
    pure (.bytes bytes, k)
  | .pos => pure (.pos k.pos, k)

/-- The answers to questions, one after the other, and the cursor after them. -/
def history (k : Cursor) : List Operation → Run (List Answer × Cursor)
  | [] => pure ([], k)
  | o :: os => do
    let (a, k) ← k.perform o
    let (as, k) ← k.history os
    pure (a :: as, k)

/-- A checked cursor is where a cursor over the same bytes is. -/
structure Tracks (bytes : Bytes) (k : Cursor) (c : Calculator.Cursor) : Prop where
  /-- Even the sum of a line and a column makes a word then. -/
  length_lt : bytes.length < UInt64.size / 2
  buffer : k.buffer = bytes
  rest : k.rest = c.rest
  pos : k.pos = c.pos
  state : k.state = .ended ∧ c.rest = [] ∨ k.state = .ofPending c.pending
  counts : c.Counts bytes

variable {bytes : Bytes} {k : Cursor} {c d : Calculator.Cursor} {b : UInt8}

theorem State.ofPending_ne_ended (n : Nat) : ofPending n ≠ .ended := by
  cases n <;> nofun

theorem count_of_le {n : Nat} (h : 1 ≤ n) (hn : n ≤ 3) : count n = pure n := if_pos ⟨h, hn⟩

/-! ### Bytes -/

/-- A byte that starts something new moves the checked cursor as it moves the other one. -/
theorem startWith_eq {pos : Position} (hpos : k.pos = { pos with byte := pos.byte + 1 })
    (hline : pos.line + 1 < UInt64.size) (hcol : pos.col + 1 < UInt64.size) :
    startWith b k =
      pure { k with
        pos := (Calculator.Cursor.startWith b k.rest pos).pos
        state := .ofPending (Calculator.Cursor.startWith b k.rest pos).pending } := by
  obtain ⟨buffer, rest, _, state⟩ := k
  obtain rfl := hpos
  unfold startWith Calculator.Cursor.startWith
  simp only [peek]
  by_cases hr : b = 0x0d ∧ rest.head? = some 0x0a
  · simp only [if_pos hr]
    rfl
  · simp only [if_neg hr]
    by_cases hn : b = 0x0a ∨ b = 0x0d
    · simp only [if_pos hn, add_of_lt hline]
      rfl
    · simp only [if_neg hn, add_of_lt hcol]
      rfl

/-- A byte that goes on a character leaves one less to wait for. -/
theorem account_of_pending {n : Nat} (hs : k.state = .ofPending (n + 1)) (hn : n + 1 ≤ 3) :
    account b k =
      if isContinuation b then pure { k with state := .ofPending n } else startWith b k := by
  rw [account, hs]
  dsimp only [State.ofPending]
  rw [count_of_le (Nat.succ_pos n) hn, pure_bind]
  cases n with
  | zero => rfl
  | succ n =>
    rw [if_neg (show n + 1 + 1 ≠ 1 by omega), sub_of_le (Nat.succ_pos _)]
    rfl

namespace Tracks

theorem ofBytes (h : bytes.length < UInt64.size / 2) (source : Option SourceId) :
    Tracks bytes (.ofBytes bytes source) (.ofBytes bytes source) where
  length_lt := h
  buffer := rfl
  rest := rfl
  pos := rfl
  state := .inr rfl
  counts := .ofBytes bytes source

/-- A byte more, a line more or a column more still makes a word. -/
theorem add_one_lt (h : Tracks bytes k c) : c.pos.byte + 1 < UInt64.size ∧
    c.pos.line + 1 < UInt64.size ∧ c.pos.col + 1 < UInt64.size := by
  have := h.length_lt
  have := h.counts.byte_le
  have := h.counts.line_add_col_le
  have := h.counts.one_le_line
  have := h.counts.one_le_col
  have : UInt64.size / 2 + 2 < UInt64.size := by decide
  omega

/-- In front of a byte the checked cursor waits for as many bytes as the other one. -/
theorem state_eq (h : Tracks bytes k c) (hr : c.rest ≠ []) : k.state = .ofPending c.pending :=
  h.state.resolve_left fun he => hr he.2

/-- A byte is counted as the cursor that is followed counts it. -/
private theorem account_eq {rest : Bytes} (h : Tracks bytes k c) (hr : c.rest = b :: rest)
    (hd : c.next? = some (b, d)) :
    account b { k with rest, pos := { k.pos with byte := k.pos.byte + 1 } } =
      pure ⟨k.buffer, rest, d.pos, .ofPending d.pending⟩ := by
  obtain ⟨-, hline, hcol⟩ := h.add_one_lt
  have starts := startWith_eq (k := { k with rest, pos := _ }) (b := b)
    (congrArg (fun pos : Position => { pos with byte := pos.byte + 1 }) h.pos) hline hcol
  have hs := h.state_eq (hr ▸ List.cons_ne_nil b rest)
  simp only [next?, hr] at hd
  cases hn : c.pending with
  | zero =>
    rw [hn, if_neg fun hc => Nat.lt_irrefl 0 hc.1] at hd
    cases hd
    rw [account, hs, hn]
    exact starts
  | succ n =>
    have hle : n + 1 ≤ 3 := hn ▸ h.counts.pending_le
    rw [account_of_pending (hn ▸ hs) hle]
    by_cases hc : isContinuation b
    · rw [hn, if_pos ⟨Nat.succ_pos n, hc⟩] at hd
      cases hd
      rw [if_pos hc, h.pos]
      rfl
    · rw [hn, if_neg fun hb => hc hb.2] at hd
      cases hd
      rw [if_neg hc]
      exact starts

theorem next (h : Tracks bytes k c) : Answers (Tracks bytes) k.next c.read.1 c.read.2 := by
  unfold Cursor.next
  cases hd : c.next? with
  | none =>
    have hr := next?_eq_none_iff.mp hd
    rw [read_of_none hd, h.rest, hr]
    split
    · exact .pure h
    · exact .pure ⟨h.length_lt, h.buffer, hr.symm, h.pos, .inl ⟨rfl, hr⟩, h.counts⟩
  | some p =>
    obtain ⟨b, d⟩ := p
    have hr := rest_eq_of_next? hd
    have hs : k.state ≠ .ended := fun he =>
      State.ofPending_ne_ended _ ((h.state_eq (hr ▸ List.cons_ne_nil _ _)).symm.trans he)
    rw [read_of_some hd, h.rest, hr, if_neg hs]
    dsimp only
    rw [add_of_lt (h.pos ▸ h.add_one_lt.1), pure_bind, h.account_eq hr hd, pure_bind]
    exact .pure ⟨h.length_lt, h.buffer, rfl, rfl, .inr rfl, h.counts.next? hd⟩

theorem skip (n : Nat) (h : Tracks bytes k c) :
    ∃ k', k.skip n = pure k' ∧ Tracks bytes k' (c.take n).2 := by
  induction n generalizing k c with
  | zero => exact ⟨k, rfl, h⟩
  | succ n ih =>
    obtain ⟨k₁, hk, h₁⟩ := h.next
    obtain ⟨k₂, hk₂, h₂⟩ := ih h₁
    rw [take_succ_eq_read, Cursor.skip, hk, pure_bind]
    exact ⟨k₂, hk₂, h₂⟩

/-- The bytes are cut from the buffer where the cursor has been. -/
theorem take (n : Nat) (h : Tracks bytes k c) :
    Answers (Tracks bytes) (k.take n) (c.take n).1 (c.take n).2 := by
  obtain ⟨k', hk, h'⟩ := h.skip n
  have hlen := h.counts.byte_add_length
  have hlen' := h'.counts.byte_add_length
  rw [take_rest, List.length_drop] at hlen'
  have hn : c.rest.take ((c.take n).2.pos.byte - c.pos.byte) = c.rest.take n :=
    List.take_eq_take_iff.mpr (by omega)
  refine ⟨k', ?_, h'⟩
  rw [Cursor.take, hk, pure_bind, h.pos, h'.pos, h.buffer,
    slice_of_le (by omega) h'.counts.byte_le, pure_bind, ← h.counts.rest_eq, take_fst, hn]

theorem takeWhile (p : UInt8 → Bool) (h : Tracks bytes k c) :
    Answers (Tracks bytes) (k.takeWhile p) (c.takeWhile p).1 (c.takeWhile p).2 := by
  have hle : (c.rest.takeWhile p).length ≤ c.rest.length := (List.takeWhile_prefix p).length_le
  have hlen := h.counts.byte_add_length
  have hbyte := h.add_one_lt.1
  rw [Cursor.takeWhile, h.rest, word_of_lt (by have := h.length_lt; omega), pure_bind]
  exact h.take _

theorem perform (o : Operation) (h : Tracks bytes k c) :
    Answers (Tracks bytes) (k.perform o) (o.run c).1 (o.run c).2 := by
  cases o with
  | next => exact h.next.bind fun k h => .pure h
  | peek => exact ⟨k, by rw [Cursor.perform, Cursor.peek, h.rest]; rfl, h⟩
  | take n => exact (h.take n).bind fun k h => .pure h
  | takeWhile p => exact (h.takeWhile p).bind fun k h => .pure h
  | pos => exact ⟨k, by rw [Cursor.perform, h.pos]; rfl, h⟩

/-- No questions break off, and their answers are those of the cursor that is followed. -/
theorem history (os : List Operation) (h : Tracks bytes k c) :
    Answers (Tracks bytes) (k.history os) (c.history os).1 (c.history os).2 := by
  induction os generalizing k c with
  | nil => exact .pure h
  | cons o os ih =>
    exact (h.perform o).bind fun k h => (ih h).bind fun k h => .pure h

end Tracks

end Cursor
end Calculator.Checked
