import Calculator.Evaluate
import Calculator.Proofs.Lexer.Calls
import Calculator.Proofs.Parser.Machine

/-!
# The invariant of the parser

Between any two steps of an evaluation the next token, the lexer and the end of the token before
belong to one place in the input, and the budget lacks one level for each level of parentheses that
is open (`Machine.Invariant`). So every routine gives the budget back that it was called with
(`Parser.Restores`). `Lexer.evaluationLaw` states this for both ways to evaluate an input.
-/

namespace Calculator

namespace Lexer

/-- Where the token before the `i`th one ends. In front of the first one this is where the lexer
begins. -/
def stopBefore? (l : Lexer) : Nat → Option Position
  | 0 => some l.pos
  | i + 1 => (l.token? i).map (·.span.stop)

theorem token?_eq_advance (l : Lexer) (i : Nat) :
    l.token? i = some (l.after (.replicate i .advance)).advance.1 := by
  induction i generalizing l with
  | zero => exact l.token?_zero
  | succ i ih => exact (l.token?_succ i).trans (ih _)

theorem after_replicate_succ (l : Lexer) (i : Nat) :
    l.after (.replicate (i + 1) .advance) = (l.after (.replicate i .advance)).advance.2 := by
  rw [List.replicate_succ', after_append]
  rfl

end Lexer

namespace Parser

/-- The next token is the `i`th one that the lexer `l` gives, and no more was read than this. -/
structure StandsAt (l : Lexer) (i : Nat) (p : Parser) : Prop where
  token : l.token? i = some p.token
  lexer : p.lexer = l.after (.replicate (i + 1) .advance)
  pos : p.lexer.pos = p.token.span.stop
  prevEnd : l.stopBefore? i = some p.prevEnd

theorem standsAt_ofLexer (l : Lexer) (limit : Nat) : (ofLexer l limit).StandsAt l 0 where
  token := l.token?_zero
  lexer := rfl
  pos := rfl
  prevEnd := rfl

namespace StandsAt
variable {l : Lexer} {i : Nat} {p : Parser}

theorem advance (h : p.StandsAt l i) : p.advance.StandsAt l (i + 1) where
  token := by
    rw [l.token?_eq_advance, ← h.lexer]
    rfl
  lexer := by
    rw [l.after_replicate_succ, ← h.lexer]
    rfl
  pos := rfl
  prevEnd := by
    rw [Lexer.stopBefore?, h.token]
    rfl

theorem withBudget (h : p.StandsAt l i) (budget : Nat) :
    ({ p with budget } : Parser).StandsAt l i where
  token := h.token
  lexer := h.lexer
  pos := h.pos
  prevEnd := h.prevEnd

end StandsAt

/-- What routines leave as it was. -/
structure Restores (p : Parser) : Prop where
  phrase (l : Level) : (p.phrase l).rest.budget = p.budget
  chain (l : Level) (start : Position) (lhs : Int32) : (p.chain l start lhs).rest.budget = p.budget
  paren : p.paren.rest.budget = p.budget
  whole : p.whole.rest.budget = p.budget
  leading : p.leading.rest.budget = p.budget
  expect_budget (choice : Matcher) : (p.expect choice).rest.budget = p.budget
  /-- A token that is refused is not consumed. -/
  expect {choice : Matcher} {e : EvalError} {q : Parser} (h : p.expect choice = ⟨.error e, q⟩) :
    q = p
  tryConsume {choice : Matcher} {q : Parser} (h : p.tryConsume choice = (none, q)) : q = p
  /-- A level that the budget does not allow is not taken. -/
  enter {e : EvalError} {q : Parser} (h : p.enter = ⟨.error e, q⟩) : q = p

end Parser

namespace Machine

open Calculator.Parser (Call)

/-- How many of the routines that wait do so for parentheses, one inside the other. -/
def levels : List Frame → Nat
  | [] => 0
  | .level :: k => levels k + 1
  | _ :: k => levels k

def nesting (m : Machine) : Nat := levels m.stack

/-! ### What a step does -/

/-- How a step changes the parse and the number of open levels: in one of four ways. -/
inductive Moves (m m' : Machine) : Prop
  | stays (hp : m'.parser = m.parser) (hn : m'.nesting = m.nesting)
  | consumes (hp : m'.parser = m.parser.advance) (hn : m'.nesting = m.nesting)
  | enters {budget : Nat} (hb : m.parser.budget = budget + 1)
    (hp : m'.parser = { m.parser with budget }) (hn : m'.nesting = m.nesting + 1)
  | leaves (hp : m'.parser = m.parser.leave) (hn : m.nesting = m'.nesting + 1)

theorem moves_expect {m : Machine} {choice : Matcher} {k : List Frame} {next : Parser → Machine}
    (hk : levels k = m.nesting) (hp : ∀ q, (next q).parser = q)
    (hn : ∀ q, (next q).nesting = m.nesting) : Moves m (expect choice m.parser k next) := by
  by_cases h : choice.accepts m.parser.token
  · rw [expect_accepted h]
    exact .consumes (hp _) (hn _)
  · rw [expect_refused h]
    exact .stays rfl hk

theorem moves_primary (p : Parser) (k : List Frame) :
    Moves ⟨.call (.phrase .primary), k, p⟩ (start p k (.phrase .primary)) := by
  by_cases hu : ∃ n, p.token.value = .uint n
  · rw [start_literal hu.choose_spec]
    exact .consumes rfl rfl
  by_cases ho : p.token.value = .other openParen
  · cases hb : p.budget with
    | zero =>
      rw [start_tooDeep ho hb]
      exact .stays rfl rfl
    | succ budget =>
      rw [start_level ho hb]
      exact .enters hb rfl rfl
  · rw [start_noOperand (not_exists.mp hu) ho]
    exact .stays rfl rfl

theorem moves_start (c : Call) (p : Parser) (k : List Frame) :
    Moves ⟨.call c, k, p⟩ (start p k c) := by
  cases c with
  | phrase l =>
    cases l with
    | sum | product => exact .stays rfl rfl
    | unary =>
      by_cases hs : p.token.value = .other UnOp.negate.byte
      · rw [start_negated hs]
        exact .consumes rfl rfl
      · rw [start_unsigned hs]
        exact .stays rfl rfl
    | primary => exact moves_primary p k
  | chain l first a =>
    cases ho : p.operator? l with
    | none =>
      rw [start_done ho]
      exact .stays rfl rfl
    | some op =>
      rw [start_link ho]
      exact .consumes rfl rfl

theorem moves_resume (f : Frame) (r : Except EvalError Int32) (p : Parser) (k : List Frame) :
    Moves ⟨.back r, f :: k, p⟩ (resume p k f r) := by
  cases f with
  | level => exact .leaves rfl rfl
  | operand | sign => cases r <;> exact .stays rfl rfl
  | body | whole =>
    cases r with
    | error e => exact .stays rfl rfl
    | ok v => exact moves_expect (m := ⟨_, _, p⟩) rfl (fun _ => rfl) fun _ => rfl
  | link l first a op =>
    cases r with
    | error e => exact .stays rfl rfl
    | ok b =>
      cases hv : op.apply a b with
      | ok v =>
        rw [resume_link hv]
        exact .stays rfl rfl
      | error e =>
        cases e
        rw [resume_link_error hv]
        exact .stays rfl rfl

theorem moves_of_step {m m' : Machine} (h : m.step? = some m') : Moves m m' := by
  obtain ⟨control, k, p⟩ := m
  cases control with
  | call c =>
    obtain rfl := Option.some.inj h
    exact moves_start c p k
  | paren =>
    obtain rfl := Option.some.inj h
    exact moves_expect (m := ⟨_, _, p⟩) rfl (fun _ => rfl) fun _ => rfl
  | back r =>
    cases k with
    | nil => cases h
    | cons f k =>
      obtain rfl := Option.some.inj h
      exact moves_resume f r p k

/-! ### What every step keeps -/

theorem Moves.budget_add_nesting {m m' : Machine} (h : Moves m m') :
    m'.parser.budget + m'.nesting = m.parser.budget + m.nesting := by
  cases h with
  | stays hp hn => rw [hp, hn]
  | consumes hp hn => rw [hp, hn, Parser.advance]
  | enters hb hp hn =>
    rw [hp, hn, hb]
    exact (Nat.succ_add_eq_add_succ _ _).symm
  | leaves hp hn =>
    rw [hp, hn, Parser.leave]
    exact Nat.succ_add_eq_add_succ _ _

theorem Passes.budget_add_nesting {m m' : Machine} (h : Passes m m') :
    m'.parser.budget + m'.nesting = m.parser.budget + m.nesting := by
  induction h with
  | refl => rfl
  | tail _ hs ih => exact (moves_of_step hs).budget_add_nesting.trans ih

theorem Moves.standsAt {m m' : Machine} {l : Lexer} {i : Nat} (h : Moves m m')
    (hs : m.parser.StandsAt l i) : ∃ i', m'.parser.StandsAt l i' := by
  cases h with
  | stays hp => exact ⟨i, hp ▸ hs⟩
  | consumes hp => exact ⟨i + 1, hp ▸ hs.advance⟩
  | enters _ hp => exact ⟨i, hp ▸ hs.withBudget _⟩
  | leaves hp => exact ⟨i, hp ▸ hs.withBudget _⟩

/-- The invariant of an evaluation of the input of a lexer under a limit. -/
structure Invariant (l : Lexer) (limit : Nat) (m : Machine) : Prop where
  standsAt : ∃ i, m.parser.StandsAt l i
  budget : m.parser.budget + m.nesting = limit

theorem Invariant.of_step {l : Lexer} {limit : Nat} {m m' : Machine} (h : m.Invariant l limit)
    (hs : m.step? = some m') : m'.Invariant l limit where
  standsAt := h.standsAt.elim fun _ => (moves_of_step hs).standsAt
  budget := (moves_of_step hs).budget_add_nesting.trans h.budget

theorem Invariant.of_passes {l : Lexer} {limit : Nat} {m m' : Machine} (h : m.Invariant l limit)
    (hm : Passes m m') : m'.Invariant l limit := by
  induction hm with
  | refl => exact h
  | tail _ hs ih => exact ih.of_step hs

/-! ### Evaluations -/

/-- The evaluation of an input that one expression makes up begins. -/
def whole (l : Lexer) (limit : Nat) : Machine :=
  ⟨.call (.phrase .sum), [.whole], .ofLexer l limit⟩

/-- The evaluation of the expression that an input begins with begins. -/
def leading (l : Lexer) (limit : Nat) : Machine :=
  ⟨.call (.phrase .sum), [], .ofLexer l limit⟩

theorem invariant_whole (l : Lexer) (limit : Nat) : (whole l limit).Invariant l limit where
  standsAt := ⟨0, Parser.standsAt_ofLexer l limit⟩
  budget := rfl

theorem invariant_leading (l : Lexer) (limit : Nat) : (leading l limit).Invariant l limit where
  standsAt := ⟨0, Parser.standsAt_ofLexer l limit⟩
  budget := rfl

end Machine

namespace Parser

theorem leading_eq (p : Parser) :
    p.leading = ⟨(p.phrase .sum).result.map (·, (p.phrase .sum).rest.token),
      (p.phrase .sum).rest⟩ := by
  rw [leading]
  rcases p.phrase .sum with ⟨_ | v, q⟩ <;> rfl

theorem outcome_budget (c : Call) (p : Parser) : (c.outcome p).rest.budget = p.budget :=
  (Machine.passes_outcome c p []).budget_add_nesting

theorem restores (p : Parser) : p.Restores where
  phrase l := outcome_budget (.phrase l) p
  chain l start lhs := outcome_budget (.chain l start lhs) p
  paren := (Machine.passes_paren p []).budget_add_nesting
  whole := (Machine.passes_whole p).budget_add_nesting
  leading := by
    rw [leading_eq]
    exact outcome_budget (.phrase .sum) p
  expect_budget choice := by
    rw [Parser.expect]
    split <;> rfl
  expect h := by
    rw [Parser.expect] at h
    split at h <;> cases h
    rfl
  tryConsume h := by
    rw [Parser.tryConsume] at h
    split at h <;> cases h
    rfl
  enter h := by
    rw [Parser.enter] at h
    split at h <;> cases h
    rfl

end Parser

namespace Lexer

open Machine (Passes)

/-- The runs of the parser in the two ways to evaluate an input. -/
structure EvaluationLaw (l : Lexer) (limit : Nat) : Prop where
  /-- Each state is on the way to the value or the error. -/
  whole : ∃ q, ∀ m, Passes (.whole l limit) m → Passes m ⟨.back (l.evaluate limit), [], q⟩
  leading : ∃ r q, l.evaluateLeading limit = r.map (·, q.token) ∧
    ∀ m, Passes (.leading l limit) m → Passes m ⟨.back r, [], q⟩
  /-- The routines that are called on the way are those of the parser. -/
  call (c : Parser.Call) (p : Parser) (k : List Machine.Frame) :
    Passes ⟨.call c, k, p⟩ (.ended (c.outcome p) k)
  paren (p : Parser) (k : List Machine.Frame) : Passes ⟨.paren, k, p⟩ (.ended p.paren k)
  invariant {m : Machine} (h : Passes (.whole l limit) m ∨ Passes (.leading l limit) m) :
    m.Invariant l limit
  nesting_le {m : Machine} (h : Passes (.whole l limit) m ∨ Passes (.leading l limit) m) :
    m.nesting ≤ limit
  /-- However a routine ends, and whatever it is called on. -/
  restores (p : Parser) : p.Restores

theorem invariant_of_passes {l : Lexer} {limit : Nat} {m : Machine}
    (h : Passes (.whole l limit) m ∨ Passes (.leading l limit) m) : m.Invariant l limit :=
  h.elim (Machine.invariant_whole l limit).of_passes (Machine.invariant_leading l limit).of_passes

/-- In both ways to evaluate an input, under any limit, the invariant holds in all states. No more
levels of parentheses than the limit are ever open, and every routine gives the budget back. -/
theorem evaluationLaw (l : Lexer) (limit : Nat) : EvaluationLaw l limit where
  whole := ⟨_, fun _ h => (Machine.passes_whole (.ofLexer l limit)).to_end h⟩
  leading := by
    refine ⟨_, _, ?_, fun _ h =>
      (Machine.passes_outcome (.phrase .sum) (.ofLexer l limit) []).to_end h⟩
    rw [evaluateLeading, Parser.leading_eq]
    rfl
  call := Machine.passes_outcome
  paren := Machine.passes_paren
  invariant h := invariant_of_passes h
  nesting_le h := (invariant_of_passes h).budget ▸ Nat.le_add_left _ _
  restores := Parser.restores

/-- Behind a parenthesis that the limit just allows, the budget is used up until it is closed. -/
theorem budget_in_parentheses :
    ∃ m, Passes (.whole (ofBytes [0x28]) 1) m ∧ m.nesting = 1 ∧ m.parser.budget = 0 ∧
      (∃ i, m.parser.StandsAt (ofBytes [0x28]) i) ∧
      ∃ q, Passes m ⟨.back ((ofBytes [0x28]).evaluate 1), [], q⟩ := by
  let p : Parser := .ofLexer (ofBytes [0x28]) 1
  have ho : p.token.value = .other openParen := by decide +kernel
  have hm : Passes (.whole (ofBytes [0x28]) 1)
      ⟨.call (.phrase .sum), [.body, .level, .operand .product p.token.span.start,
        .operand .sum p.token.span.start, .whole], p.inner 0⟩ :=
    .head rfl <| .head rfl <|
      (Machine.passes_start (Machine.start_unsigned (ho ▸ by decide))).trans <|
        Machine.passes_inner ho rfl
  have law := evaluationLaw (ofBytes [0x28]) 1
  obtain ⟨q, hq⟩ := law.whole
  exact ⟨_, hm, rfl, Nat.add_right_cancel (law.invariant (.inl hm)).budget,
    (law.invariant (.inl hm)).standsAt, q, hq _ hm⟩

end Lexer
end Calculator
