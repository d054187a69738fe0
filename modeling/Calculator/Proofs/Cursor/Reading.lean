import Calculator.Proofs.Cursor.Segments

/-!
# Reading on

Where a cursor can get by reading (`Cursor.Reaches`): never to an earlier line, and behind graphic
bytes to the same line, with a column for each of them (`Cursor.pos_take_of_isGraphic`).
-/

namespace Calculator

namespace Ascii

theorem isNamePart_of_isDigit {b : UInt8} (h : isDigit b = true) : isNamePart b = true := by
  rw [isNamePart, h, Bool.or_true]

theorem isGraphic_of_isNamePart {b : UInt8} (h : isNamePart b = true) : isGraphic b = true := by
  simp only [isNamePart, isNameStart, isLetter, isDigit, isGraphic, Bool.and_eq_true,
    decide_eq_true_eq] at *
  grind

end Ascii

namespace Cursor
variable {c d e : Cursor} {b : UInt8} {n : Nat}

/-! ### Lines and columns -/

theorem line_le_startWith (b : UInt8) (rest : Bytes) (pos : Position) :
    pos.line ≤ (startWith b rest pos).pos.line := by
  unfold startWith
  split
  · exact Nat.le_refl _
  · split
    · exact Nat.le_succ _
    · exact Nat.le_refl _

theorem line_le_of_next? (h : c.next? = some (b, d)) : c.pos.line ≤ d.pos.line := by
  unfold next? at h
  split at h
  · cases h
  · split at h <;> cases h
    · exact Nat.le_refl _
    · exact line_le_startWith _ _ _

theorem line_le_take (n : Nat) (c : Cursor) : c.pos.line ≤ (c.take n).2.pos.line := by
  induction n generalizing c with
  | zero => exact Nat.le_refl _
  | succ n ih =>
    cases h : c.next? with
    | none => simp only [take, h, Nat.le_refl]
    | some p =>
      rw [take_succ h]
      exact Nat.le_trans (line_le_of_next? h) (ih _)

/-- A graphic byte goes on no character and breaks no line. -/
theorem pos_of_next?_graphic (h : c.next? = some (b, d)) (hb : Ascii.isGraphic b = true) :
    d.pos = { c.pos with byte := c.pos.byte + 1, col := c.pos.col + 1 } := by
  have hc : isContinuation b = false ∧ b ≠ 0x0a ∧ b ≠ 0x0d := by
    simp only [Ascii.isGraphic, isContinuation] at *
    grind
  have hr := rest_eq_of_next? h
  rw [next?, hr] at h
  simp only [hc, Bool.false_eq_true, and_false, if_false, Option.some.injEq, Prod.mk.injEq,
    true_and] at h
  rw [← h, startWith, if_neg fun hn => hc.2.2 hn.1, if_neg (not_or.mpr hc.2)]

/-- Each graphic byte takes a column. -/
theorem pos_take_of_isGraphic (hn : n ≤ c.rest.length)
    (hg : ∀ b ∈ c.rest.take n, Ascii.isGraphic b = true) :
    (c.take n).2.pos = { c.pos with byte := c.pos.byte + n, col := c.pos.col + n } := by
  induction n generalizing c with
  | zero => rfl
  | succ n ih =>
    cases h : c.next? with
    | none =>
      rw [next?_eq_none_iff.mp h] at hn
      cases hn
    | some p =>
      obtain ⟨b, d⟩ := p
      rw [rest_eq_of_next? h] at hn hg
      rw [List.take_succ_cons] at hg
      obtain ⟨hb, hg⟩ := List.forall_mem_cons.mp hg
      rw [take_succ h, ih (Nat.le_of_succ_le_succ hn) hg, pos_of_next?_graphic h hb,
        Nat.add_assoc, Nat.add_assoc, Nat.add_comm 1]

/-! ### Where reading leads -/

/-- Reading some of the bytes that are left leads from `c` to `d`. -/
def Reaches (c d : Cursor) : Prop := ∃ n ≤ c.rest.length, d = (c.take n).2

namespace Reaches

theorem refl (c : Cursor) : c.Reaches c := ⟨0, Nat.zero_le _, rfl⟩

theorem trans (h : c.Reaches d) (h' : d.Reaches e) : c.Reaches e := by
  obtain ⟨m, hm, rfl⟩ := h
  obtain ⟨n, hn, rfl⟩ := h'
  rw [take_rest, List.length_drop] at hn
  exact ⟨m + n, by omega, (take_add m n c).symm⟩

theorem of_next? (h : c.next? = some (b, d)) : c.Reaches d := by
  refine ⟨1, ?_, (take_succ h 0).symm⟩
  rw [rest_eq_of_next? h]
  exact Nat.succ_le_succ (Nat.zero_le _)

theorem takeWhile (p : UInt8 → Bool) (c : Cursor) : c.Reaches (c.takeWhile p).2 :=
  ⟨_, (List.takeWhile_prefix p).length_le, rfl⟩

/-- The byte tells how much was read. -/
theorem exists_byte_eq (h : c.Reaches d) :
    ∃ n ≤ c.rest.length, d = (c.take n).2 ∧ d.pos.byte = c.pos.byte + n := by
  obtain ⟨n, hn, rfl⟩ := h
  exact ⟨n, hn, rfl, take_byte hn⟩

end Reaches

end Cursor
end Calculator
