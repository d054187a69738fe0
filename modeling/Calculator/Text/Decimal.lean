import Calculator.Text.Ascii

/-! Numbers as decimal digits, and the numbers that runs of digits stand for. -/

namespace Calculator.Decimal

/-- The decimal digits of a number, without leading zeros. -/
def ofNat (n : Nat) : Bytes :=
  if n < 10 then [0x30 + n.toUInt8] else ofNat (n / 10) ++ [0x30 + (n % 10).toUInt8]

/-- The digits of an integer, after a minus sign if it is negative. -/
def ofInt : Int → Bytes
  | .ofNat n => ofNat n
  | .negSucc n => 0x2d :: ofNat (n + 1)

/-- The number that a run of digits stands for. -/
def value (digits : Bytes) : Nat := digits.foldl (fun n b => 10 * n + (b - 0x30).toNat) 0

private theorem value_append_digit (digits : Bytes) (b : UInt8) :
    value (digits ++ [b]) = 10 * value digits + (b - 0x30).toNat := by
  simp [value]

private theorem digit_toNat {d : Nat} (h : d < 10) : (0x30 + d.toUInt8 - 0x30).toNat = d := by
  have : d < 256 := by omega
  rw [UInt8.add_comm, UInt8.add_sub_cancel]
  simp [Nat.mod_eq_of_lt this]

theorem value_ofNat (n : Nat) : value (ofNat n) = n := by
  induction n using Nat.strongRecOn with
  | ind n ih =>
    rw [ofNat]
    split
    · next h => simpa [value] using digit_toNat h
    · next h =>
      rw [value_append_digit, ih _ (by omega), digit_toNat (Nat.mod_lt _ (by omega))]
      omega

theorem ofNat_ne_nil (n : Nat) : ofNat n ≠ [] := by
  rw [ofNat]
  split
  · exact List.cons_ne_nil _ _
  · exact List.append_ne_nil_of_right_ne_nil _ (List.cons_ne_nil _ _)

private theorem isDigit_digit : ∀ d < 10, Ascii.isDigit (0x30 + Nat.toUInt8 d) = true := by decide

theorem isDigit_of_mem_ofNat {n : Nat} {b : UInt8} (h : b ∈ ofNat n) : Ascii.isDigit b = true := by
  induction n using Nat.strongRecOn with
  | ind n ih =>
    rw [ofNat] at h
    split at h
    · next hn => exact List.mem_singleton.mp h ▸ isDigit_digit n hn
    · next hn =>
      rcases List.mem_append.mp h with h | h
      · exact ih _ (by omega) h
      · exact List.mem_singleton.mp h ▸ isDigit_digit _ (Nat.mod_lt n (by omega))

end Calculator.Decimal
