import Calculator.EvalError
import Calculator.Grammar
import Calculator.Lexer
import Calculator.Matcher

/-! Reading an expression and computing its value in one pass over its tokens. A budget bounds
how deep parentheses nest. The routines are defined together by recursion on the input that is
left; what each of them does is stated by `phrase_sum`, `phrase_product`, `phrase_unary`,
`phrase_primary` and `chain_eq`. -/

namespace Calculator

/-- How deep parentheses may nest unless the caller says otherwise. -/
def recursionLimit : Nat := 64

/-- A parse in progress. -/
structure Parser where
  lexer : Lexer
  /-- The next token, which the lexer is past already. -/
  token : Token
  /-- Where the token before the next one ends. -/
  prevEnd : Position
  /-- How many more levels of parentheses may be entered. -/
  budget : Nat
  /-- How many tokens were consumed, which is the index of the next one. -/
  taken : Nat := 0

/-- What a routine of the parser comes to: a value or an error, and the parse as it leaves it. -/
structure Outcome (α : Type) where
  result : Except EvalError α
  rest : Parser

/-- Goes on with the value, if there is one. -/
def Outcome.bind {α β : Type} (o : Outcome α) (next : α → Parser → Outcome β) : Outcome β :=
  match o with
  | ⟨.ok a, p⟩ => next a p
  | ⟨.error e, p⟩ => ⟨.error e, p⟩

namespace Parser

def ofLexer (lexer : Lexer) (limit : Nat := recursionLimit) : Parser :=
  { lexer := lexer.advance.2, token := lexer.advance.1, prevEnd := lexer.pos, budget := limit }

/-- Consumes the next token. -/
def advance (p : Parser) : Parser :=
  { p with
    lexer := p.lexer.advance.2
    token := p.lexer.advance.1
    prevEnd := p.token.span.stop
    taken := p.taken + 1 }

/-- Consumes a token that has to be one of a choice. -/
def expect (m : Matcher) (p : Parser) : Outcome Token :=
  if m.accepts p.token then ⟨.ok p.token, p.advance⟩
  else ⟨.error (.unexpectedToken m.expected p.token), p⟩

/-- Consumes a token if it is one of a choice. -/
def tryConsume (m : Matcher) (p : Parser) : Option Token × Parser :=
  if m.accepts p.token then (some p.token, p.advance) else (none, p)

/-- Enters a level of parentheses, if the budget allows. -/
def enter (p : Parser) : Outcome Unit :=
  match p.budget with
  | 0 => ⟨.error (.recursionLimit p.token.span), p⟩
  | budget + 1 => ⟨.ok (), { p with budget }⟩

/-- Gives back the level that was entered. -/
def leave (p : Parser) : Parser := { p with budget := p.budget + 1 }

/-- Runs a routine one level further in. The level is given back however the routine ends. -/
def bounded {α : Type} (body : Parser → Outcome α) (p : Parser) : Outcome α :=
  p.enter.bind fun _ q => ⟨(body q).result, (body q).rest.leave⟩

/-- The operator that goes on a chain of some level, if it is the next token. -/
def operator? (l : Level) (p : Parser) : Option BinOp :=
  l.operators.find? fun op => p.token.value = .other op.byte

/-- No more tokens than this are left, the end token apart. -/
def remaining (p : Parser) : Nat :=
  p.lexer.cursor.rest.length + (if p.token.isEof then 0 else 1)

theorem advance_remaining_le (p : Parser) : p.advance.remaining ≤ p.remaining :=
  Nat.le_trans p.lexer.advance_rest_le (Nat.le_add_right _ _)

theorem advance_remaining_lt {p : Parser} (h : p.token.isEof = false) :
    p.advance.remaining < p.remaining := by
  have hl := p.lexer.advance_rest_le
  unfold remaining
  rw [h]
  exact Nat.lt_succ_of_le hl

theorem expect_remaining_le (m : Matcher) (p : Parser) :
    (p.expect m).rest.remaining ≤ p.remaining := by
  unfold expect
  split
  · exact p.advance_remaining_le
  · exact Nat.le_refl _

theorem value_of_operator? {l : Level} {p : Parser} {op : BinOp} (h : p.operator? l = some op) :
    op ∈ l.operators ∧ p.token.value = .other op.byte :=
  ⟨List.mem_of_find?_eq_some h, by simpa using List.find?_some h⟩

private theorem advance_lt_of_value {p : Parser} {b : UInt8} (h : p.token.value = .other b) :
    p.advance.remaining < p.remaining :=
  advance_remaining_lt (by simp [Token.isEof, h])

/-- An outcome that leaves no more tokens than there were at the start. -/
private abbrev Step (p : Parser) := { o : Outcome Int32 // o.rest.remaining ≤ p.remaining }

private def fail (e : EvalError) (p : Parser) : Step p := ⟨⟨.error e, p⟩, Nat.le_refl _⟩

private def Step.weaken {p q : Parser} (s : Step q) (h : q.remaining ≤ p.remaining) : Step p :=
  ⟨s.1, Nat.le_trans s.2 h⟩

private def Step.andThen {p : Parser} (s : Step p)
    (next : Int32 → (q : Parser) → q.remaining ≤ p.remaining → Step q) : Step p :=
  match s with
  | ⟨⟨.error e, q⟩, h⟩ => ⟨⟨.error e, q⟩, h⟩
  | ⟨⟨.ok v, q⟩, h⟩ => (next v q h).weaken h

private theorem Step.weaken_val {p q : Parser} (s : Step q) (h : q.remaining ≤ p.remaining) :
    (s.weaken h).1 = s.1 := rfl

private theorem Step.andThen_val {p : Parser} {s : Step p}
    {f : Int32 → (q : Parser) → q.remaining ≤ p.remaining → Step q}
    {g : Int32 → Parser → Outcome Int32} (h : ∀ v q hq, (f v q hq).1 = g v q) :
    (s.andThen f).1 = s.1.bind g := by
  obtain ⟨⟨_ | v, q⟩, hq⟩ := s
  · rfl
  · exact h v q hq

/-- What the grammar asks for where a primary has to start. -/
def primaryStart : Matcher := .select [.kind .uint, .byte openParen]

theorem primaryStart_expected : primaryStart.expected = [.uint, .other openParen] := rfl

/-- Closes a level of parentheses around a value. -/
def close (v : Int32) (p : Parser) : Outcome Int32 :=
  (p.expect (.byte closeParen)).bind fun _ q => ⟨.ok v, q⟩

private theorem close_remaining_le (v : Int32) (p : Parser) :
    (p.close v).rest.remaining ≤ p.remaining := by
  have h := p.expect_remaining_le (.byte closeParen)
  unfold close Outcome.bind
  split <;> simp_all

/-- How far a level is from the innermost one. -/
private def rank : Level → Nat
  | .sum => 4
  | .product => 3
  | .unary => 2
  | .primary => 1

mutual
private def phraseStep (l : Level) (p : Parser) : Step p :=
  match l with
  | .sum =>
    (phraseStep .product p).andThen fun v q _ => chainStep .sum p.token.span.start v q
  | .product =>
    (phraseStep .unary p).andThen fun v q _ => chainStep .product p.token.span.start v q
  | .unary =>
    if p.token.value = .other UnOp.negate.byte then
      have hp := p.advance_remaining_le
      ((phraseStep .primary p.advance).andThen fun v q _ =>
        ⟨⟨.ok (UnOp.negate.apply v), q⟩, Nat.le_refl _⟩).weaken hp
    else phraseStep .primary p
  | .primary =>
    match hv : p.token.value with
    | .uint n => ⟨⟨.ok (literalValue n), p.advance⟩, p.advance_remaining_le⟩
    | .other b =>
      if b = openParen then
        match p.budget with
        | 0 => fail (.recursionLimit p.token.span) p
        | budget + 1 =>
          have hp : ({ p with budget } : Parser).advance.remaining < p.remaining :=
            advance_lt_of_value hv
          let body := (phraseStep .sum ({ p with budget } : Parser).advance).andThen
            fun v q _ => ⟨q.close v, close_remaining_le v q⟩
          ⟨⟨body.1.result, body.1.rest.leave⟩, Nat.le_trans body.2 (Nat.le_of_lt hp)⟩
      else fail (.unexpectedToken primaryStart.expected p.token) p
    | _ => fail (.unexpectedToken primaryStart.expected p.token) p
termination_by 5 * p.remaining + rank l
decreasing_by all_goals simp only [rank]; omega

private def chainStep (l : Level) (start : Position) (lhs : Int32) (p : Parser) : Step p :=
  match ho : p.operator? l with
  | none => ⟨⟨.ok lhs, p⟩, Nat.le_refl _⟩
  | some op =>
    have hp : p.advance.remaining < p.remaining := advance_lt_of_value (value_of_operator? ho).2
    ((phraseStep l.operand p.advance).andThen fun rhs q _ =>
      match op.apply lhs rhs with
      | .ok v => chainStep l start v q
      | .error .divisionByZero => fail (.divisionByZero ⟨start, q.prevEnd⟩) q).weaken
        (Nat.le_of_lt hp)
termination_by 5 * p.remaining
decreasing_by
  · have : rank l.operand ≤ 4 := by cases l <;> decide
    omega
  · omega
end

/-- Reads a phrase of some level and computes its value. -/
def phrase (l : Level) (p : Parser) : Outcome Int32 := (p.phraseStep l).1

/-- Goes on with a chain of which `lhs` is the value so far and `start` the beginning. -/
def chain (l : Level) (start : Position) (lhs : Int32) (p : Parser) : Outcome Int32 :=
  (p.chainStep l start lhs).1

/-- Reads a sum between parentheses. -/
def paren (p : Parser) : Outcome Int32 :=
  (p.expect (.byte openParen)).bind fun _ q => (q.phrase .sum).bind close

theorem phrase_remaining_le (l : Level) (p : Parser) :
    (p.phrase l).rest.remaining ≤ p.remaining := (p.phraseStep l).2

theorem phrase_sum (p : Parser) :
    p.phrase .sum = (p.phrase .product).bind (chain .sum p.token.span.start) := by
  unfold phrase
  rw [phraseStep]
  exact Step.andThen_val fun _ _ _ => rfl

theorem phrase_product (p : Parser) :
    p.phrase .product = (p.phrase .unary).bind (chain .product p.token.span.start) := by
  unfold phrase
  rw [phraseStep]
  exact Step.andThen_val fun _ _ _ => rfl

theorem phrase_unary (p : Parser) :
    p.phrase .unary =
      match p.tryConsume (.byte UnOp.negate.byte) with
      | (some _, q) => (q.phrase .primary).bind fun v r => ⟨.ok (UnOp.negate.apply v), r⟩
      | (none, q) => q.phrase .primary := by
  unfold phrase tryConsume
  rw [phraseStep]
  by_cases h : p.token.value = .other UnOp.negate.byte
  · rw [if_pos h, if_pos (Matcher.accepts_byte.mpr h)]
    simp only [Step.weaken_val]
    exact Step.andThen_val fun _ _ _ => rfl
  · rw [if_neg h, if_neg (mt Matcher.accepts_byte.mp h)]

theorem phrase_primary (p : Parser) :
    p.phrase .primary =
      match p.token.value with
      | .uint n => ⟨.ok (literalValue n), p.advance⟩
      | .other b =>
        if b = openParen then p.bounded paren
        else ⟨.error (.unexpectedToken primaryStart.expected p.token), p⟩
      | _ => ⟨.error (.unexpectedToken primaryStart.expected p.token), p⟩ := by
  unfold phrase
  rw [phraseStep]
  split
  · next hv => simp only [hv]
  · next b hv =>
    simp only [hv]
    split
    · next hb =>
      subst hb
      unfold bounded enter
      cases hp : p.budget with
      | zero => rfl
      | succ budget =>
        have ha : (Matcher.byte openParen).accepts p.token = true := Matcher.accepts_byte.mpr hv
        have hs : ({ p with budget } : Parser).paren =
            (({ p with budget } : Parser).advance.phrase .sum).bind close := by
          simp only [paren, expect, ha, if_true, Outcome.bind]
        simp only [Outcome.bind, hs]
        rw [Step.andThen_val (g := close) fun _ _ _ => rfl]
        rfl
    · rfl
  · next hu ho =>
    split
    · next hv => exact absurd hv (hu _)
    · next hv => exact absurd hv (ho _)
    · rfl

theorem chain_eq (l : Level) (start : Position) (lhs : Int32) (p : Parser) :
    p.chain l start lhs =
      match p.operator? l with
      | none => ⟨.ok lhs, p⟩
      | some op => (p.advance.phrase l.operand).bind fun rhs q =>
        match op.apply lhs rhs with
        | .ok v => q.chain l start v
        | .error .divisionByZero => ⟨.error (.divisionByZero ⟨start, q.prevEnd⟩), q⟩ := by
  unfold chain
  rw [chainStep]
  split
  · next h => simp only [h]
  · next op h =>
    simp only [h, Step.weaken_val]
    refine Step.andThen_val fun rhs q _ => ?_
    cases op.apply lhs rhs with
    | ok v => rfl
    | error e => cases e; rfl

/-- Reads one expression up to the end of the input. -/
def whole (p : Parser) : Outcome Int32 :=
  (p.phrase .sum).bind fun v q => (q.expect (.kind .eof)).bind fun _ r => ⟨.ok v, r⟩

/-- Reads the longest expression at the beginning of the input, and shows what comes next. -/
def leading (p : Parser) : Outcome (Int32 × Token) :=
  (p.phrase .sum).bind fun v q => ⟨.ok (v, q.token), q⟩

end Parser

end Calculator
