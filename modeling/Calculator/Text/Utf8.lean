import Calculator.Text.Ascii

/-! Reading bytes as UTF-8 without failing: each longest piece that starts like a character but
does not finish as one is read as the replacement character. -/

namespace Calculator.Utf8

def replacement : Char := Char.ofNat 0xfffd

/-- A character whose last `owed + 1` bytes are still to come. The next of them lies between
`low` and `high`, the others between 80 and BF; `code` holds the bits read so far. -/
structure Partial where
  owed : Nat
  low : UInt8
  high : UInt8
  code : Nat

/-- How a byte starts a character: as a whole one, as the head of a longer one, or not at all.
The ranges leave out overlong forms, surrogates and codes above 10FFFF. -/
inductive Head where
  | whole (c : Char)
  | more (p : Partial)
  | bad

def head (b : UInt8) : Head :=
  if b < 0x80 then .whole (Ascii.char b)
  else if b < 0xc2 then .bad
  else if b < 0xe0 then .more ⟨0, 0x80, 0xbf, b.toNat % 0x20⟩
  else if b = 0xe0 then .more ⟨1, 0xa0, 0xbf, 0⟩
  else if b = 0xed then .more ⟨1, 0x80, 0x9f, 0xd⟩
  else if b < 0xf0 then .more ⟨1, 0x80, 0xbf, b.toNat % 0x10⟩
  else if b = 0xf0 then .more ⟨2, 0x90, 0xbf, 0⟩
  else if b < 0xf4 then .more ⟨2, 0x80, 0xbf, b.toNat % 0x08⟩
  else if b = 0xf4 then .more ⟨2, 0x80, 0x8f, 4⟩
  else .bad

/-- The characters read from the bytes that follow an unfinished character, if there is one. -/
def decodeFrom : Option Partial → Bytes → List Char
  | none, [] => []
  | some _, [] => [replacement]
  | unfinished, b :: rest =>
    let restart : List Char :=
      match head b with
      | .whole c => c :: decodeFrom none rest
      | .more p => decodeFrom (some p) rest
      | .bad => replacement :: decodeFrom none rest
    match unfinished with
    | none => restart
    | some p =>
      if p.low ≤ b ∧ b ≤ p.high then
        let code := p.code * 0x40 + b.toNat % 0x40
        match p.owed with
        | 0 => Char.ofNat code :: decodeFrom none rest
        | owed + 1 => decodeFrom (some ⟨owed, 0x80, 0xbf, code⟩) rest
      else replacement :: restart

def decode (bytes : Bytes) : String := String.ofList (decodeFrom none bytes)

end Calculator.Utf8
