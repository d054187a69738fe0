import Calculator.Proofs.Checked.Cursor

/-!
# What operations consume

Operations on a cursor can be mixed freely. The bytes that they consume, one behind the other, are
the input up to the place where the cursor stands, and the position of this place does not depend
on which operations led there (`Cursor.historyLaw`).
-/

namespace Calculator.Cursor

/-- The bytes that an operation has consumed when this was its answer. -/
def Operation.consumed : Operation → Answer → Bytes
  | .next, .byte b => b.toList
  | .take _, .bytes bytes | .takeWhile _, .bytes bytes => bytes
  | _, _ => []

/-- The answer where nothing is left to be read. -/
def Operation.nothing (pos : Position) : Operation → Answer
  | .next | .peek => .byte none
  | .take _ | .takeWhile _ => .bytes []
  | .pos => .pos pos

/-- The bytes that operations consume, one behind the other. -/
def consumed (c : Cursor) (os : List Operation) : Bytes :=
  (List.zipWith Operation.consumed os (c.history os).1).flatten

/-- The cursor after operations on a fresh one. -/
def after (bytes : Bytes) (source : Option SourceId) (os : List Operation) : Cursor :=
  ((ofBytes bytes source).history os).2

variable {c d e : Cursor} {m n : Nat} {read more : Bytes}

theorem read_fst (c : Cursor) : c.read.1 = c.rest.head? := by
  cases h : c.next? with
  | none => rw [read_of_none h, next?_eq_none_iff.mp h]; rfl
  | some p =>
    obtain ⟨b, d⟩ := p
    rw [read_of_some h, rest_eq_of_next? h]
    rfl

/-- More than there is cannot be taken. -/
theorem take_min_length (n : Nat) (c : Cursor) : c.take (min n c.rest.length) = c.take n := by
  rcases Nat.le_total n c.rest.length with hn | hn
  · rw [Nat.min_eq_left hn]
  · obtain ⟨k, rfl⟩ := Nat.exists_eq_add_of_le hn
    have hend : (c.take c.rest.length).2.next? = none := by
      rw [next?_eq_none_iff, take_rest, List.drop_length]
    rw [Nat.min_eq_right hn]
    refine Prod.ext ?_ ?_
    · rw [take_fst, take_fst, List.take_length, List.take_of_length_le hn]
    · rw [take_add, take_of_none hend]

/-! ### Consuming bytes -/

/-- Reading the next `n` bytes, which are `read`, leads from `c` to `d`. -/
structure Consumes (c : Cursor) (n : Nat) (read : Bytes) (d : Cursor) : Prop where
  le : n ≤ c.rest.length
  read_eq : read = c.rest.take n
  eq_take : d = (c.take n).2

namespace Consumes

protected theorem refl (c : Cursor) : c.Consumes 0 [] c := ⟨Nat.zero_le _, rfl, rfl⟩

protected theorem trans (h : c.Consumes m read d) (h' : d.Consumes n more e) :
    c.Consumes (m + n) (read ++ more) e := by
  obtain ⟨hm, rfl, rfl⟩ := h
  obtain ⟨hn, rfl, rfl⟩ := h'
  rw [take_rest] at hn ⊢
  rw [List.length_drop] at hn
  exact ⟨by omega, List.take_add.symm, (take_add m n c).symm⟩

end Consumes

/-- Every operation consumes the next bytes, or none of them. -/
theorem Operation.consumes (o : Operation) (c : Cursor) :
    ∃ n, c.Consumes n (o.consumed (o.run c).1) (o.run c).2 := by
  cases o with
  | next =>
    cases h : c.next? with
    | none =>
      refine ⟨0, ?_⟩
      rw [run, read_of_none h]
      exact .refl c
    | some p =>
      obtain ⟨b, d⟩ := p
      have hr := rest_eq_of_next? h
      refine ⟨1, ?_⟩
      rw [run, read_of_some h]
      exact ⟨by rw [hr]; exact Nat.succ_le_succ (Nat.zero_le _), by rw [hr]; rfl,
        (take_succ h 0).symm⟩
  | take n =>
    refine ⟨min n c.rest.length, Nat.min_le_right _ _, ?_, ?_⟩
    · rw [← take_fst, take_min_length]
      rfl
    · rw [take_min_length]
      rfl
  | takeWhile p => exact ⟨_, (List.takeWhile_prefix p).length_le, take_fst _ c, rfl⟩
  | peek | pos => exact ⟨0, .refl c⟩

/-- What operations have consumed is the beginning of what was left. -/
theorem exists_consumes (c : Cursor) (os : List Operation) :
    ∃ n, c.Consumes n (c.consumed os) (c.history os).2 := by
  induction os generalizing c with
  | nil => exact ⟨0, .refl c⟩
  | cons o os ih =>
    obtain ⟨m, hm⟩ := o.consumes c
    obtain ⟨n, hn⟩ := ih (o.run c).2
    exact ⟨m + n, hm.trans hn⟩

/-- The byte of the position tells what was consumed, and where this has led. -/
theorem consumes_after (bytes : Bytes) (source : Option SourceId) (os : List Operation) :
    (ofBytes bytes source).Consumes (after bytes source os).pos.byte
      ((ofBytes bytes source).consumed os) (after bytes source os) := by
  obtain ⟨n, hn⟩ := (ofBytes bytes source).exists_consumes os
  have hbyte : (after bytes source os).pos.byte = n := by
    rw [after, hn.eq_take, take_byte hn.le]
    exact Nat.zero_add n
  rw [hbyte]
  exact hn

theorem rest_after (bytes : Bytes) (source : Option SourceId) (os : List Operation) :
    (after bytes source os).rest = bytes.drop (after bytes source os).pos.byte :=
  (congrArg rest (consumes_after bytes source os).eq_take).trans (take_rest _ _)

theorem run_of_rest_eq_nil (h : c.rest = []) (o : Operation) : o.run c = (o.nothing c.pos, c) := by
  have hn := next?_eq_none_iff.mpr h
  cases o with
  | next => rw [Operation.run, read_of_none hn]; rfl
  | peek => rw [Operation.run, peek, h]; rfl
  | take n => rw [Operation.run, take_of_none hn]; rfl
  | takeWhile p => rw [Operation.run, takeWhile, take_of_none hn]; rfl
  | pos => rfl

/-! ### The law -/

/-- What holds of a fresh cursor over some bytes after the operations `os`. -/
structure HistoryLaw (bytes : Bytes) (source : Option SourceId) (os : List Operation) : Prop where
  byte_le : (after bytes source os).pos.byte ≤ bytes.length
  /-- The bytes before the cursor were consumed, and no other ones. -/
  consumed_eq : (ofBytes bytes source).consumed os = bytes.take (after bytes source os).pos.byte
  next : (Operation.next.run (after bytes source os)).1 =
    .byte bytes[(after bytes source os).pos.byte]?
  peek : Operation.peek.run (after bytes source os) =
    ((Operation.next.run (after bytes source os)).1, after bytes source os)
  take (n : Nat) : ((Operation.take n).run (after bytes source os)).1 =
    .bytes ((bytes.drop (after bytes source os).pos.byte).take
      (min n (bytes.length - (after bytes source os).pos.byte)))
  /-- The bytes that satisfy a predicate, up to one that does not or to the end. -/
  takeWhile (p : UInt8 → Bool) :
    ∃ run, ((Operation.takeWhile p).run (after bytes source os)).1 = .bytes run ∧
      run <+: bytes.drop (after bytes source os).pos.byte ∧ (∀ b ∈ run, p b = true) ∧
      ∀ b ∈ bytes[(after bytes source os).pos.byte + run.length]?, p b = false
  /-- At the end there is nothing to be had, and nothing moves. -/
  ended (h : (after bytes source os).pos.byte = bytes.length) (o : Operation) :
    o.run (after bytes source os) =
      (o.nothing (after bytes source os).pos, after bytes source os)
  /-- Operations that get as far lead to the same place. -/
  interchangeable {other : List Operation}
    (h : (after bytes source other).pos.byte = (after bytes source os).pos.byte) :
    after bytes source other = after bytes source os
  /-- A cursor that cuts what it returns from the buffer and remembers that it has met the end gives
  the same answers and stands at the same place. -/
  buffered (hb : bytes.length < UInt64.size / 2) :
    ∃ k, (Checked.Cursor.ofBytes bytes source).history os =
      pure (((ofBytes bytes source).history os).1, k) ∧ k.pos = (after bytes source os).pos

/-- Whatever is asked of a cursor, and in whichever order: what it returns is cut from the input
without gaps, and how far it has got is all that counts. -/
theorem historyLaw (bytes : Bytes) (source : Option SourceId) (os : List Operation) :
    HistoryLaw bytes source os where
  byte_le := (consumes_after bytes source os).le
  consumed_eq := (consumes_after bytes source os).read_eq
  next := by rw [Operation.run, read_fst, rest_after, List.head?_drop]
  peek := by rw [Operation.run, Operation.run, read_fst]; rfl
  take n := by
    rw [Operation.run, take_fst, rest_after]
    exact congrArg _ (List.take_eq_take_iff.mpr (by rw [List.length_drop]; omega))
  takeWhile p := by
    refine ⟨_, rfl, ?_, fun b => of_mem_takeWhile, ?_⟩
    · rw [takeWhile_fst, rest_after]
      exact List.takeWhile_prefix p
    · have h := head?_rest_takeWhile p (after bytes source os)
      rwa [takeWhile, take_rest, rest_after, List.drop_drop, List.head?_drop,
        ← rest_after, ← takeWhile_fst] at h
  ended h := run_of_rest_eq_nil (by rw [rest_after, h, List.drop_length])
  interchangeable {other} h := by
    rw [(consumes_after bytes source other).eq_take, h, ← (consumes_after bytes source os).eq_take]
  buffered hb := by
    obtain ⟨k, hk, ht⟩ := (Checked.Cursor.Tracks.ofBytes hb source).history os
    exact ⟨k, hk, ht.pos⟩

/-- Behind `é` and a line break it is the same place whether the bytes were read one by one or in
runs, and a byte was peeked at. -/
theorem after_line_break :
    let bytes : Bytes := [0xc3, 0xa9, 0x0d, 0x0a, 0x31]
    let os : List Operation := [.takeWhile (0x80 ≤ ·), .peek, .take 2]
    (after bytes none [.next, .next, .next, .next]).pos.byte = (after bytes none os).pos.byte ∧
      after bytes none [.next, .next, .next, .next] = after bytes none os ∧
      (after bytes none os).pos = ⟨none, 4, 2, 1⟩ := by
  intro bytes os
  have h : (after bytes none [.next, .next, .next, .next]).pos.byte =
      (after bytes none os).pos.byte := by decide +kernel
  exact ⟨h, (historyLaw bytes none os).interchangeable h, by decide +kernel⟩

end Calculator.Cursor
