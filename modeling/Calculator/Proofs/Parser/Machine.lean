import Mathlib.Logic.Relation
import Calculator.Proofs.Parser.Rules

/-!
# The parser as a machine

The routines of the parser with those that wait on a stack (`Machine`). A step changes the parse in
one place at most, so a run passes every state that a parse is in between two changes. Called on
any stack, a routine comes back to this stack with its outcome (`Machine.passes_outcome`), and so
does the parse of a whole input (`Machine.passes_whole`).
-/

namespace Calculator

open Calculator.Parser (Call Gives Fails)

/-- A routine that waits for the one that it has called. -/
inductive Machine.Frame where
  /-- A phrase that begins at `start` waits for its first operand. -/
  | operand (l : Level) (start : Position)
  /-- A chain waits for the operand behind an operator. -/
  | link (l : Level) (start : Position) (lhs : Int32) (op : BinOp)
  /-- A sign waits for what it negates. -/
  | sign
  /-- An opening parenthesis waits for the sum behind it. -/
  | body
  /-- A primary waits for the parentheses that it has taken a level of the budget for. -/
  | level
  /-- The parse of a whole input waits for its sum. -/
  | whole

inductive Machine.Control where
  | call (c : Call)
  /-- Parentheses are to be read. -/
  | paren
  /-- A routine has come to its end. -/
  | back (r : Except EvalError Int32)

structure Machine where
  control : Machine.Control
  /-- The routines that wait, the innermost first. -/
  stack : List Machine.Frame
  parser : Parser

namespace Machine

/-- Consumes a token that has to be one of a choice, and goes on or gives up. -/
def expect (choice : Matcher) (p : Parser) (k : List Frame) (next : Parser → Machine) : Machine :=
  match p.expect choice with
  | ⟨.ok _, q⟩ => next q
  | ⟨.error e, q⟩ => ⟨.back (.error e), k, q⟩

/-- What a routine does up to its first call or its end. -/
def start (p : Parser) (k : List Frame) : Call → Machine
  | .phrase .sum => ⟨.call (.phrase .product), .operand .sum p.token.span.start :: k, p⟩
  | .phrase .product => ⟨.call (.phrase .unary), .operand .product p.token.span.start :: k, p⟩
  | .phrase .unary =>
    match p.tryConsume (.byte UnOp.negate.byte) with
    | (some _, q) => ⟨.call (.phrase .primary), .sign :: k, q⟩
    | (none, q) => ⟨.call (.phrase .primary), k, q⟩
  | .phrase .primary =>
    match p.token.value with
    | .uint n => ⟨.back (.ok (literalValue n)), k, p.advance⟩
    | .other b =>
      if b = openParen then
        match p.enter with
        | ⟨.ok (), q⟩ => ⟨.paren, .level :: k, q⟩
        | ⟨.error e, q⟩ => ⟨.back (.error e), k, q⟩
      else ⟨.back (.error (.unexpectedToken Parser.primaryStart.expected p.token)), k, p⟩
    | _ => ⟨.back (.error (.unexpectedToken Parser.primaryStart.expected p.token)), k, p⟩
  | .chain l start lhs =>
    match p.operator? l with
    | none => ⟨.back (.ok lhs), k, p⟩
    | some op => ⟨.call (.phrase l.operand), .link l start lhs op :: k, p.advance⟩

/-- What a routine does with the result of the one it has waited for. The level of parentheses is
given back whatever the result is, and all other routines hand errors on. -/
def resume (p : Parser) (k : List Frame) : Frame → Except EvalError Int32 → Machine
  | .level, r => ⟨.back r, k, p.leave⟩
  | _, .error e => ⟨.back (.error e), k, p⟩
  | .operand l start, .ok v => ⟨.call (.chain l start v), k, p⟩
  | .link l start lhs op, .ok rhs =>
    match op.apply lhs rhs with
    | .ok v => ⟨.call (.chain l start v), k, p⟩
    | .error .divisionByZero => ⟨.back (.error (.divisionByZero ⟨start, p.prevEnd⟩)), k, p⟩
  | .sign, .ok v => ⟨.back (.ok (UnOp.negate.apply v)), k, p⟩
  | .body, .ok v => expect (.byte closeParen) p k fun q => ⟨.back (.ok v), k, q⟩
  | .whole, .ok v => expect (.kind .eof) p k fun q => ⟨.back (.ok v), k, q⟩

/-- The next state, unless there is no routine left that could go on. -/
def step? (m : Machine) : Option Machine :=
  match m.control, m.stack with
  | .call c, k => some (start m.parser k c)
  | .paren, k =>
    some (expect (.byte openParen) m.parser k fun q => ⟨.call (.phrase .sum), .body :: k, q⟩)
  | .back _, [] => none
  | .back r, f :: k => some (resume m.parser k f r)

/-- A run that begins at `m` passes `m'`. -/
abbrev Passes : Machine → Machine → Prop := Relation.ReflTransGen fun m m' => m.step? = some m'

section
variable {l : Level} {p : Parser} {k : List Frame} {first : Position} {a b v : Int32} {op : BinOp}

/-! ### Steps -/

theorem start_joined (hl : l.operators ≠ []) :
    start p k (.phrase l) =
      ⟨.call (.phrase l.operand), .operand l p.token.span.start :: k, p⟩ := by
  cases l with
  | sum | product => rfl
  | unary | primary => exact absurd rfl hl

theorem start_negated (h : p.token.value = .other UnOp.negate.byte) :
    start p k (.phrase .unary) = ⟨.call (.phrase .primary), .sign :: k, p.advance⟩ := by
  rw [start, Parser.tryConsume, if_pos (Matcher.accepts_byte.mpr h)]

theorem start_unsigned (h : p.token.value ≠ .other UnOp.negate.byte) :
    start p k (.phrase .unary) = ⟨.call (.phrase .primary), k, p⟩ := by
  rw [start, Parser.tryConsume, if_neg (mt Matcher.accepts_byte.mp h)]

theorem start_literal {n : UInt32} (h : p.token.value = .uint n) :
    start p k (.phrase .primary) = ⟨.back (.ok (literalValue n)), k, p.advance⟩ := by
  rw [start, h]

theorem start_noOperand (hu : ∀ n, p.token.value ≠ .uint n)
    (ho : p.token.value ≠ .other openParen) :
    start p k (.phrase .primary) =
      ⟨.back (.error (.unexpectedToken Parser.primaryStart.expected p.token)), k, p⟩ := by
  rw [start]
  split
  · next hv => exact absurd hv (hu _)
  · next hv => rw [if_neg fun hb => ho (by rw [hv, hb])]
  · rfl

theorem start_tooDeep (h : p.token.value = .other openParen) (hb : p.budget = 0) :
    start p k (.phrase .primary) =
      ⟨.back (.error (.recursionLimit p.token.span)), k, p⟩ := by
  rw [start, h]
  simp only [if_true, Parser.enter, hb]

theorem start_level {budget : Nat} (h : p.token.value = .other openParen)
    (hb : p.budget = budget + 1) :
    start p k (.phrase .primary) = ⟨.paren, .level :: k, { p with budget }⟩ := by
  rw [start, h]
  simp only [if_true, Parser.enter, hb]

theorem start_done (h : p.operator? l = none) :
    start p k (.chain l first a) = ⟨.back (.ok a), k, p⟩ := by
  rw [start, h]

theorem start_link (h : p.operator? l = some op) :
    start p k (.chain l first a) =
      ⟨.call (.phrase l.operand), .link l first a op :: k, p.advance⟩ := by
  rw [start, h]

theorem resume_link (h : op.apply a b = .ok v) :
    resume p k (.link l first a op) (.ok b) = ⟨.call (.chain l first v), k, p⟩ := by
  rw [resume, h]

theorem resume_link_error (h : op.apply a b = .error .divisionByZero) :
    resume p k (.link l first a op) (.ok b) =
      ⟨.back (.error (.divisionByZero ⟨first, p.prevEnd⟩)), k, p⟩ := by
  rw [resume, h]

theorem expect_accepted {choice : Matcher} (h : choice.accepts p.token)
    (next : Parser → Machine) : expect choice p k next = next p.advance := by
  rw [expect, Parser.expect, if_pos h]

theorem expect_refused {choice : Matcher} (h : ¬ choice.accepts p.token)
    (next : Parser → Machine) :
    expect choice p k next =
      ⟨.back (.error (.unexpectedToken choice.expected p.token)), k, p⟩ := by
  rw [expect, Parser.expect, if_neg h]

theorem resume_closed (h : p.token.value = .other closeParen) :
    resume p k .body (.ok v) = ⟨.back (.ok v), k, p.advance⟩ :=
  expect_accepted (Matcher.accepts_byte.mpr h) _

theorem resume_unclosed (h : p.token.value ≠ .other closeParen) :
    resume p k .body (.ok v) =
      ⟨.back (.error (.unexpectedToken [.other closeParen] p.token)), k, p⟩ :=
  expect_refused (mt Matcher.accepts_byte.mp h) _

end

/-! ### Runs -/

/-- A routine has come to its outcome, and others wait for it. -/
def ended (o : Outcome Int32) (k : List Frame) : Machine := ⟨.back o.result, k, o.rest⟩

/-- Giving a value back behind one more token. -/
theorem expect_eq_ended (choice : Matcher) (p : Parser) (k : List Frame) (v : Int32) :
    expect choice p k (fun q => ⟨.back (.ok v), k, q⟩) =
      ended ((p.expect choice).bind fun _ q => ⟨.ok v, q⟩) k := by
  rw [expect]
  rcases p.expect choice with ⟨_ | _, q⟩ <;> rfl

section
variable {c : Call} {p q : Parser} {k : List Frame} {f : Frame} {r : Except EvalError Int32}
  {m : Machine}

theorem passes_start (h : start p k c = m) : Passes ⟨.call c, k, p⟩ m :=
  .single (congrArg some h)

theorem passes_resume (h : resume p k f r = m) : Passes ⟨.back r, f :: k, p⟩ m :=
  .single (congrArg some h)

theorem passes_open (h : p.token.value = .other openParen) :
    Passes ⟨.paren, k, p⟩ ⟨.call (.phrase .sum), .body :: k, p.advance⟩ :=
  .single (congrArg some (expect_accepted (Matcher.accepts_byte.mpr h) _))

/-- Behind the opening parenthesis, with one level of the budget taken. -/
theorem passes_inner {budget : Nat} (ho : p.token.value = .other openParen)
    (hb : p.budget = budget + 1) :
    Passes ⟨.call (.phrase .primary), k, p⟩
      ⟨.call (.phrase .sum), .body :: .level :: k, p.inner budget⟩ :=
  (passes_start (start_level ho hb)).trans (passes_open (p := { p with budget }) ho)

theorem passes_of_gives {v : Int32} (h : Gives c p v q) :
    Passes ⟨.call c, k, p⟩ ⟨.back (.ok v), k, q⟩ := by
  induction h generalizing k with
  | joined hl _ _ ih ihc =>
    exact (passes_start (start_joined hl)).trans <| ih.trans <| (passes_resume rfl).trans ihc
  | negated hs _ ih =>
    exact (passes_start (start_negated hs)).trans <| ih.trans <| passes_resume rfl
  | unsigned hs _ ih => exact (passes_start (start_unsigned hs)).trans ih
  | literal hu => exact passes_start (start_literal hu)
  | paren ho hb _ hc ih =>
    exact (passes_inner ho hb).trans <| ih.trans <|
      (passes_resume (resume_closed hc)).trans <| passes_resume rfl
  | done ho => exact passes_start (start_done ho)
  | link ho _ hv _ ih ihc =>
    exact (passes_start (start_link ho)).trans <| ih.trans <|
      (passes_resume (resume_link hv)).trans ihc

theorem passes_of_fails {e : EvalError} (h : Fails c p e q) :
    Passes ⟨.call c, k, p⟩ ⟨.back (.error e), k, q⟩ := by
  induction h generalizing k with
  | operand hl _ ih =>
    exact (passes_start (start_joined hl)).trans <| ih.trans <| passes_resume rfl
  | joined hl hg _ ihc =>
    exact (passes_start (start_joined hl)).trans <| (passes_of_gives hg).trans <|
      (passes_resume rfl).trans ihc
  | negated hs _ ih =>
    exact (passes_start (start_negated hs)).trans <| ih.trans <| passes_resume rfl
  | unsigned hs _ ih => exact (passes_start (start_unsigned hs)).trans ih
  | noOperand hu ho => exact passes_start (start_noOperand hu ho)
  | tooDeep ho hb => exact passes_start (start_tooDeep ho hb)
  | paren ho hb _ ih =>
    exact (passes_inner ho hb).trans <| ih.trans <|
      (passes_resume rfl).trans <| passes_resume rfl
  | unclosed ho hb hg hc =>
    exact (passes_inner ho hb).trans <| (passes_of_gives hg).trans <|
      (passes_resume (resume_unclosed hc)).trans <| passes_resume rfl
  | linkOperand ho _ ih =>
    exact (passes_start (start_link ho)).trans <| ih.trans <| passes_resume rfl
  | zeroDivisor ho hg hv =>
    exact (passes_start (start_link ho)).trans <| (passes_of_gives hg).trans <|
      passes_resume (resume_link_error hv)
  | link ho hg hv _ ihc =>
    exact (passes_start (start_link ho)).trans <| (passes_of_gives hg).trans <|
      (passes_resume (resume_link hv)).trans ihc

/-- A routine that is called comes back with its outcome to those that wait. -/
theorem passes_outcome (c : Call) (p : Parser) (k : List Frame) :
    Passes ⟨.call c, k, p⟩ (ended (c.outcome p) k) := by
  cases Parser.ends c p with
  | gives h => rw [h.outcome]; exact passes_of_gives h
  | fails h => rw [h.outcome]; exact passes_of_fails h

/-- A routine that waits for a sum goes on with its value. -/
theorem passes_bind {next : Int32 → Parser → Outcome Int32} (p : Parser) (k : List Frame)
    (hv : ∀ v q, resume q k f (.ok v) = ended (next v q) k)
    (he : ∀ e q, resume q k f (.error e) = ended ⟨.error e, q⟩ k) :
    Passes ⟨.call (.phrase .sum), f :: k, p⟩ (ended ((p.phrase .sum).bind next) k) := by
  refine (passes_outcome (.phrase .sum) p (f :: k)).trans ?_
  rw [Call.outcome]
  rcases p.phrase .sum with ⟨e | v, q⟩
  · exact passes_resume (he e q)
  · exact passes_resume (hv v q)

theorem passes_paren (p : Parser) (k : List Frame) : Passes ⟨.paren, k, p⟩ (ended p.paren k) := by
  by_cases ho : (Matcher.byte openParen).accepts p.token
  · have hp : p.paren = (p.advance.phrase .sum).bind Parser.close := by
      rw [Parser.paren, Parser.expect, if_pos ho]
      rfl
    rw [hp]
    exact (passes_open (Matcher.accepts_byte.mp ho)).trans <|
      passes_bind _ k (fun v q => expect_eq_ended _ q k v) fun _ _ => rfl
  · have hp : p.paren = ⟨.error (.unexpectedToken [.other openParen] p.token), p⟩ := by
      rw [Parser.paren, Parser.expect, if_neg ho]
      rfl
    rw [hp]
    exact .single (congrArg some (expect_refused ho _))

theorem passes_whole (p : Parser) :
    Passes ⟨.call (.phrase .sum), [.whole], p⟩ (ended p.whole []) :=
  passes_bind p [] (fun v q => expect_eq_ended _ q [] v) fun _ _ => rfl

/-- What is passed on the way to the end of a run is followed by this end. -/
theorem Passes.to_end {m m' : Machine} (h : Passes m ⟨.back r, [], q⟩) (hm : Passes m m') :
    Passes m' ⟨.back r, [], q⟩ := by
  have hu : Relator.RightUnique fun m m' : Machine => m.step? = some m' := by
    intro a b c hb hc
    exact Option.some.inj (hb.symm.trans hc)
  rcases Relation.ReflTransGen.total_of_right_unique hu h hm with hend | hend
  · rcases hend.cases_head with rfl | ⟨_, hs, -⟩
    · exact .refl
    · cases hs
  · exact hend

end

end Machine
end Calculator
