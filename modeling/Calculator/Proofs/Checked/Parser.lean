import Calculator.Proofs.Checked.Lexer
import Calculator.Proofs.OnePass

/-!
# A parser over a lexer that checks

The routines of the parser over a checked lexer. Cases that the program takes for impossible break
them off, and so do a division by zero that was not tested for and a budget that is no word. Where a
routine of the parser comes to something, the checked one comes to the same if it is given the depth
of calls that the tokens ask for (`Checked.Parser.follows_routine`).
-/

namespace Calculator.Checked

structure Parser where
  lexer : Lexer
  /-- The next token, which the lexer is past already. -/
  token : Token
  /-- Where the token before the next one ends. -/
  prevEnd : Position
  /-- How many more levels of parentheses may be entered. -/
  budget : Nat

/-- A routine of the parser, which leaves a parse behind also where it fails. -/
abbrev Routine := ExceptT EvalError (StateT Parser Run)

namespace Parser

open Calculator.Parser (Call Gives Fails primaryStart)

def ofLexer (l : Lexer) (limit : Nat) : Run Parser := do
  let (token, lexer) ← l.advance
  pure { lexer, token, prevEnd := l.cursor.pos, budget := limit }

def nextToken : Routine Token := return (← get).token

def lastEnd : Routine Position := return (← get).prevEnd

/-- Consumes the next token. -/
def advance : Routine Token := fun p => do
  let (next, lexer) ← p.lexer.advance
  pure (.ok p.token, { p with lexer, token := next, prevEnd := p.token.span.stop })

/-- Consumes a token that has to be one of a choice. -/
def expect (m : Matcher) : Routine Token := do
  let t ← nextToken
  if m.accepts t then advance else throw (.unexpectedToken m.expected t)

/-- Consumes a token if it is one of a choice. -/
def tryConsume (m : Matcher) : Routine (Option Token) := do
  let t ← nextToken
  if m.accepts t then return some (← advance) else return none

/-- Enters a level of parentheses, if the budget allows. -/
def enter : Routine Unit := fun p =>
  match p.budget with
  | 0 => pure (.error (.recursionLimit p.token.span), p)
  | budget + 1 => pure (.ok (), { p with budget })

/-- Gives back the level that was entered. -/
def leave (p : Parser) : Run Parser := do
  let budget ← add p.budget 1
  pure { p with budget }

/-- Runs a routine one level further in. The level is given back however the routine ends. -/
def bounded (body : Routine Int32) : Routine Int32 := do
  enter
  fun p => do
    let (r, p) ← body p
    let p ← p.leave
    pure (r, p)

/-- The operator that a token is. -/
def operator (t : Token) : Run BinOp :=
  match t.value with
  | .other b =>
    match BinOp.ofByte? b with
    | some op => pure op
    | none => throw .unreachable
  | _ => throw .unreachable

/-- Consumes an operator that goes on a chain of some level, if that is the next token. -/
def tryOperator (l : Level) : Routine (Option BinOp) := do
  match ← tryConsume (.anyOf (l.operators.map BinOp.byte)) with
  | none => return none
  | some t => return some (← operator t)

/-- The value of a literal, which is the next token. -/
def literal : Routine Int32 := do
  let t ← expect (.kind .uint)
  match t.value with
  | .uint n => return literalValue n
  | _ => throwThe Fault .unreachable

/-- The value of an operation at the end of a chain that begins at `start`. -/
def operate (start : Position) (op : BinOp) (lhs rhs : Int32) : Routine Int32 := do
  match ← apply op lhs rhs with
  | .ok v => return v
  | .error .divisionByZero => throw (.divisionByZero ⟨start, ← lastEnd⟩)

-- The first argument of the routines bounds how many calls of them can be inside each other.
mutual
/-- Reads a phrase of some level and computes its value. -/
def phrase : Nat → Level → Routine Int32
  | 0, _ => fun _ => unfinished
  | depth + 1, .sum => do
    let t ← nextToken
    let lhs ← phrase depth .product
    chain depth .sum t.span.start lhs
  | depth + 1, .product => do
    let t ← nextToken
    let lhs ← phrase depth .unary
    chain depth .product t.span.start lhs
  | depth + 1, .unary => do
    match ← tryConsume (.byte UnOp.negate.byte) with
    | some _ => return UnOp.negate.apply (← phrase depth .primary)
    | none => phrase depth .primary
  | depth + 1, .primary => do
    let t ← nextToken
    if (Matcher.kind .uint).accepts t then literal
    else if (Matcher.byte openParen).accepts t then bounded (paren depth)
    else throw (.unexpectedToken primaryStart.expected t)

/-- Goes on with a chain of which `lhs` is the value so far and `start` the beginning. -/
def chain : Nat → Level → Position → Int32 → Routine Int32
  | 0, _, _, _ => fun _ => unfinished
  | depth + 1, l, start, lhs => do
    match ← tryOperator l with
    | none => return lhs
    | some op =>
      let rhs ← phrase depth l.operand
      let v ← operate start op lhs rhs
      chain depth l start v

/-- Reads a sum between parentheses. -/
def paren : Nat → Routine Int32
  | 0 => fun _ => unfinished
  | depth + 1 => do
    let _ ← expect (.byte openParen)
    let v ← phrase depth .sum
    let _ ← expect (.byte closeParen)
    return v
end

/-- Reads one expression up to the end of the input. -/
def whole (depth : Nat) : Routine Int32 := do
  let v ← phrase depth .sum
  let _ ← expect (.kind .eof)
  return v

/-- Reads the longest expression at the beginning of the input, and shows what comes next. -/
def leading (depth : Nat) : Routine (Int32 × Token) := do
  let v ← phrase depth .sum
  return (v, ← nextToken)

/-- A checked parse is where a parse over the same bytes is. -/
structure Tracks (bytes : Bytes) (k : Parser) (p : Calculator.Parser) : Prop where
  lexer : k.lexer.Tracks bytes p.lexer
  token : k.token = p.token
  prevEnd : k.prevEnd = p.prevEnd
  budget : k.budget = p.budget
  budget_lt : p.budget < UInt64.size

/-- From where a parse is followed, a routine comes to the outcome `o`. -/
def Follows {α : Type} (bytes : Bytes) (x : Routine α) (p : Calculator.Parser) (o : Outcome α) :
    Prop :=
  ∀ k : Parser, k.Tracks bytes p → Answers (Tracks bytes) (x k) o.result o.rest

namespace Follows
variable {α β : Type} {bytes : Bytes} {x : Routine α} {f : α → Routine β} {p q : Calculator.Parser}
  {a : α} {e : EvalError} {o : Outcome β}

protected theorem pure (a : α) (p : Calculator.Parser) : Follows bytes (pure a) p ⟨.ok a, p⟩ :=
  fun _ h => .pure h

protected theorem throw (e : EvalError) (p : Calculator.Parser) :
    Follows bytes (throw e : Routine α) p ⟨.error e, p⟩ :=
  fun _ h => .pure h

theorem bind (hx : Follows bytes x p ⟨.ok a, q⟩) (hf : Follows bytes (f a) q o) :
    Follows bytes (x >>= f) p o :=
  fun k h => (hx k h).bind fun k' h' => hf k' h'

theorem bind_error (hx : Follows bytes x p ⟨.error e, q⟩) :
    Follows bytes (x >>= f) p ⟨.error e, q⟩ :=
  fun k h => (hx k h).bind fun _ h' => .pure h'

/-- A routine can be followed step by step, whatever the first step comes to. -/
theorem bind_outcome {o : Outcome α} {g : α → Calculator.Parser → Outcome β}
    (hx : Follows bytes x p o) (hf : ∀ a q, Follows bytes (f a) q (g a q)) :
    Follows bytes (x >>= f) p (o.bind g) := by
  rcases o with ⟨e | a, q⟩
  · exact hx.bind_error
  · exact hx.bind (hf a q)

theorem lift {x : Run α} (hx : x = Pure.pure a) (p : Calculator.Parser) :
    Follows bytes (liftM x) p ⟨.ok a, p⟩ := by
  subst hx
  exact fun k h => .pure h

end Follows

section
variable {bytes : Bytes} {p q : Calculator.Parser}

theorem follows_nextToken (p : Calculator.Parser) :
    Follows bytes nextToken p ⟨.ok p.token, p⟩ :=
  fun k h => ⟨k, by rw [← h.token]; rfl, h⟩

theorem follows_lastEnd (p : Calculator.Parser) :
    Follows bytes lastEnd p ⟨.ok p.prevEnd, p⟩ :=
  fun k h => ⟨k, by rw [← h.prevEnd]; rfl, h⟩

theorem follows_advance (p : Calculator.Parser) :
    Follows bytes advance p ⟨.ok p.token, p.advance⟩ := by
  intro k h
  refine h.lexer.advance.bind fun lexer hl => ?_
  dsimp only
  rw [h.token]
  exact .pure ⟨hl, rfl, rfl, h.budget, h.budget_lt⟩

theorem follows_expect (m : Matcher) (p : Calculator.Parser) :
    Follows bytes (expect m) p (p.expect m) := by
  refine (follows_nextToken p).bind ?_
  unfold Calculator.Parser.expect
  split
  · exact follows_advance p
  · exact .throw _ p

theorem follows_expect_byte {b : UInt8} (h : p.token.value = .other b) :
    Follows bytes (expect (.byte b)) p ⟨.ok p.token, p.advance⟩ := by
  have he : Follows bytes _ p _ := follows_expect (.byte b) p
  rwa [Calculator.Parser.expect, if_pos (Matcher.accepts_byte.mpr h)] at he

theorem follows_expect_other {b : UInt8} (h : p.token.value ≠ .other b) :
    Follows bytes (expect (.byte b)) p ⟨.error (.unexpectedToken [.other b] p.token), p⟩ := by
  have he : Follows bytes _ p _ := follows_expect (.byte b) p
  rwa [Calculator.Parser.expect, if_neg (mt Matcher.accepts_byte.mp h)] at he

theorem follows_tryConsume_of_accepts {m : Matcher} (h : m.accepts p.token = true) :
    Follows bytes (tryConsume m) p ⟨.ok (some p.token), p.advance⟩ := by
  refine (follows_nextToken p).bind ?_
  rw [if_pos h]
  exact (follows_advance p).bind (.pure _ _)

theorem follows_tryConsume_of_not_accepts {m : Matcher} (h : ¬m.accepts p.token = true) :
    Follows bytes (tryConsume m) p ⟨.ok none, p⟩ := by
  refine (follows_nextToken p).bind ?_
  rw [if_neg h]
  exact .pure _ _

theorem accepts_uint_iff {t : Token} :
    (Matcher.kind .uint).accepts t = true ↔ ∃ n, t.value = .uint n := by
  simp only [Matcher.accepts, Matcher.kind, Token.kind, List.mem_singleton, decide_eq_true_eq]
  cases t.value <;> simp [Token.Value.kind]

/-- What a literal is expected to be has a value. -/
theorem follows_literal {n : UInt32} (h : p.token.value = .uint n) :
    Follows bytes literal p ⟨.ok (literalValue n), p.advance⟩ := by
  have he : Follows bytes _ p _ := follows_expect (.kind .uint) p
  rw [Calculator.Parser.expect, if_pos (accepts_uint_iff.mpr ⟨n, h⟩)] at he
  refine he.bind ?_
  rw [h]
  exact .pure _ _

/-! ### Operators -/

theorem accepts_operators_iff {l : Level} {t : Token} :
    (Matcher.anyOf (l.operators.map BinOp.byte)).accepts t = true ↔
      ∃ op ∈ l.operators, t.value = .other op.byte := by
  simp only [Matcher.accepts, Matcher.anyOf, Token.kind, List.map_map, decide_eq_true_eq,
    List.mem_map, Function.comp_apply]
  refine exists_congr fun op => and_congr_right fun _ => ?_
  cases t.value <;> simp [Token.Value.kind, eq_comm]

/-- What the choice of operators lets through is an operator. -/
theorem operator_eq {l : Level} {op : BinOp} (ho : p.operator? l = some op) :
    operator p.token = pure op := by
  have hb : BinOp.ofByte? op.byte = some op := BinOp.ofByte?_eq_some_iff.mpr rfl
  rw [operator, (Calculator.Parser.value_of_operator? ho).2]
  dsimp only
  rw [hb]

theorem follows_tryOperator_none {l : Level} (ho : p.operator? l = none) :
    Follows bytes (tryOperator l) p ⟨.ok none, p⟩ := by
  refine (follows_tryConsume_of_not_accepts fun ha => ?_).bind (.pure none p)
  obtain ⟨op, hm, hv⟩ := accepts_operators_iff.mp ha
  cases ho.symm.trans (Calculator.Parser.operator?_eq_some hm hv)

theorem follows_tryOperator_some {l : Level} {op : BinOp} (ho : p.operator? l = some op) :
    Follows bytes (tryOperator l) p ⟨.ok (some op), p.advance⟩ := by
  have ha := accepts_operators_iff.mpr ⟨op, Calculator.Parser.value_of_operator? ho⟩
  refine (follows_tryConsume_of_accepts ha).bind ?_
  exact .bind (.lift (operator_eq ho) p.advance) (.pure (some op) p.advance)

theorem follows_operate_ok {op : BinOp} {a b v : Int32} (hv : op.apply a b = .ok v)
    (start : Position) (p : Calculator.Parser) :
    Follows bytes (operate start op a b) p ⟨.ok v, p⟩ := by
  refine .bind (.lift (apply_eq op a b) p) ?_
  rw [hv]
  exact .pure v p

theorem follows_operate_error {op : BinOp} {a b : Int32}
    (hv : op.apply a b = .error .divisionByZero) (start : Position) (p : Calculator.Parser) :
    Follows bytes (operate start op a b) p ⟨.error (.divisionByZero ⟨start, p.prevEnd⟩), p⟩ := by
  refine .bind (.lift (apply_eq op a b) p) ?_
  rw [hv]
  exact (follows_lastEnd p).bind (.throw _ p)

/-! ### Levels of parentheses -/

theorem follows_enter {budget : Nat} (hb : p.budget = budget + 1) :
    Follows bytes enter p ⟨.ok (), { p with budget }⟩ := by
  intro k h
  have hlt := h.budget_lt
  rw [enter, h.budget, hb]
  exact .pure ⟨h.lexer, h.token, h.prevEnd, rfl, by dsimp only; omega⟩

theorem follows_enter_of_zero (hb : p.budget = 0) :
    Follows bytes enter p ⟨.error (.recursionLimit p.token.span), p⟩ := by
  intro k h
  rw [enter, h.budget, hb]
  dsimp only
  rw [h.token]
  exact .pure h

/-- A level that is given back makes a word where there was one before it was taken. -/
theorem Follows.bounded {x : Routine Int32} {o : Outcome Int32} {budget : Nat}
    (hx : Follows bytes x { p with budget } o) (hb : p.budget = budget + 1)
    (hr : o.rest.budget = budget) : Follows bytes (bounded x) p ⟨o.result, o.rest.leave⟩ := by
  intro k h
  have hlt := h.budget_lt
  rw [hb, ← hr] at hlt
  refine (follows_enter hb).bind (fun k h => (hx k h).bind fun k h => ?_) k h
  dsimp only
  rw [leave, h.budget, add_of_lt hlt]
  exact .pure ⟨h.lexer, h.token, h.prevEnd, rfl, hlt⟩

/-! ### Phrases -/

section
variable {depth : Nat}

theorem phrase_joined {l : Level} (hl : l.operators ≠ []) :
    phrase (depth + 1) l = (do
      let t ← nextToken
      let lhs ← phrase depth l.operand
      chain depth l t.span.start lhs) := by
  cases l with
  | sum | product => rw [phrase]; rfl
  | unary | primary => exact absurd rfl hl

theorem follows_phrase_literal {n : UInt32} (h : p.token.value = .uint n) :
    Follows bytes (phrase (depth + 1) .primary) p ⟨.ok (literalValue n), p.advance⟩ := by
  rw [phrase]
  refine (follows_nextToken p).bind ?_
  rw [if_pos (accepts_uint_iff.mpr ⟨n, h⟩)]
  exact follows_literal h

theorem follows_phrase_noOperand (hu : ∀ n, p.token.value ≠ .uint n)
    (ho : p.token.value ≠ .other openParen) :
    Follows bytes (phrase (depth + 1) .primary) p
      ⟨.error (.unexpectedToken primaryStart.expected p.token), p⟩ := by
  rw [phrase]
  refine (follows_nextToken p).bind ?_
  rw [if_neg (mt accepts_uint_iff.mp (not_exists.mpr hu)), if_neg (mt Matcher.accepts_byte.mp ho)]
  exact .throw _ p

/-- At an opening parenthesis, a primary is what the routine for parentheses comes to. -/
theorem follows_phrase_paren {o : Outcome Int32} (ho : p.token.value = .other openParen)
    (hx : Follows bytes (bounded (paren depth)) p o) :
    Follows bytes (phrase (depth + 1) .primary) p o := by
  rw [phrase]
  refine (follows_nextToken p).bind ?_
  rw [if_neg (mt accepts_uint_iff.mp fun ⟨n, hn⟩ => by rw [ho] at hn; cases hn),
    if_pos (Matcher.accepts_byte.mpr ho)]
  exact hx

theorem follows_paren {budget : Nat} {o : Outcome Int32} (ho : p.token.value = .other openParen)
    (hx : Follows bytes (do
      let v ← phrase depth .sum
      let _ ← expect (.byte closeParen)
      return v) (p.inner budget) o) :
    Follows bytes (paren (depth + 1)) { p with budget } o := by
  rw [paren]
  exact (follows_expect_byte (p := { p with budget }) ho).bind hx

end

/-! ### The depth of calls -/

/-- The routine that a call is one of. -/
def routine (depth : Nat) : Call → Routine Int32
  | .phrase l => phrase depth l
  | .chain l start lhs => chain depth l start lhs

/-- How many levels are below a level. -/
def rank : Level → Nat
  | .sum => 3
  | .product => 2
  | .unary => 1
  | .primary => 0

/-- No more calls than this are inside each other. Each token lets them nest five deeper. -/
def nesting : Call → Calculator.Parser → Nat
  | .phrase l, p => 5 * p.remaining + rank l + 1
  | .chain .., p => 5 * p.remaining + 1

section
variable {l : Level} {a b c : Int32} {start : Position} {op : BinOp}

theorem nesting_operand (hl : l.operators ≠ []) (p : Calculator.Parser) :
    nesting (.phrase l.operand) p < nesting (.phrase l) p := by
  cases l with
  | sum | product => exact Nat.lt_succ_self _
  | unary | primary => exact absurd rfl hl

theorem nesting_joined (hl : l.operators ≠ []) (hg : Gives (.phrase l.operand) p a q) :
    nesting (.chain l start a) q < nesting (.phrase l) p := by
  have hr := hg.remaining_le
  cases l with
  | sum | product => simp only [nesting, rank]; omega
  | unary | primary => exact absurd rfl hl

theorem nesting_negated (hs : p.token.value = .other UnOp.negate.byte) :
    nesting (.phrase .primary) p.advance < nesting (.phrase .unary) p := by
  have := Calculator.Parser.advance_remaining_lt (Calculator.Parser.isEof_of_other hs)
  simp only [nesting, rank]
  omega

theorem nesting_unsigned (p : Calculator.Parser) :
    nesting (.phrase .primary) p < nesting (.phrase .unary) p := Nat.lt_succ_self _

/-- Parentheses take a call of their own. -/
theorem nesting_inner (ho : p.token.value = .other openParen) (budget : Nat) :
    nesting (.phrase .sum) (p.inner budget) + 1 < nesting (.phrase .primary) p := by
  have : (p.inner budget).remaining < p.remaining :=
    Calculator.Parser.advance_remaining_lt (p := p) (Calculator.Parser.isEof_of_other ho)
  simp only [nesting, rank]
  omega

theorem nesting_linkOperand (ho : p.operator? l = some op) :
    nesting (.phrase l.operand) p.advance < nesting (.chain l start a) p := by
  have hv := (Calculator.Parser.value_of_operator? ho).2
  have := Calculator.Parser.advance_remaining_lt (Calculator.Parser.isEof_of_other hv)
  have : rank l.operand ≤ 2 := by cases l <;> decide
  simp only [nesting]
  omega

theorem nesting_link (ho : p.operator? l = some op) (hg : Gives (.phrase l.operand) p.advance b q) :
    nesting (.chain l start c) q < nesting (.chain l start a) p := by
  have hv := (Calculator.Parser.value_of_operator? ho).2
  have := Calculator.Parser.advance_remaining_lt (Calculator.Parser.isEof_of_other hv)
  have := hg.remaining_le
  simp only [nesting]
  omega

end

theorem exists_eq_succ {c : Call} {depth : Nat} (hd : nesting c p ≤ depth) :
    ∃ d, depth = d + 1 :=
  Nat.exists_eq_succ_of_ne_zero fun h => by cases c <;> simp [nesting, h] at hd

/-- A call inside another one needs less depth. -/
theorem le_of_nested {m n depth : Nat} (h : m < n) (hd : n ≤ depth + 1) : m ≤ depth :=
  Nat.le_of_lt_succ (Nat.lt_of_lt_of_le h hd)

/-- Parentheses come to what is inside of them, one level further out. -/
theorem follows_parenthesized {depth budget : Nat} {o : Outcome Int32}
    (ho : p.token.value = .other openParen) (hb : p.budget = budget + 1)
    (hd : nesting (.phrase .primary) p ≤ depth + 1)
    (hx : ∀ depth, nesting (.phrase .sum) (p.inner budget) ≤ depth →
      Follows bytes (do
        let v ← phrase depth .sum
        let _ ← expect (.byte closeParen)
        return v) (p.inner budget) o)
    (hr : o.rest.budget = budget) :
    Follows bytes (phrase (depth + 1) .primary) p ⟨o.result, o.rest.leave⟩ := by
  have hn := le_of_nested (nesting_inner ho budget) hd
  obtain ⟨depth, rfl⟩ := Nat.exists_eq_succ_of_ne_zero (Nat.ne_zero_of_lt hn)
  have hi := hx depth (Nat.le_of_lt_succ hn)
  exact follows_phrase_paren ho ((follows_paren ho hi).bounded hb hr)

/-- Where a routine gives a value, the checked one gives it too. -/
theorem follows_of_gives {c : Call} {v : Int32} {depth : Nat} (h : Gives c p v q)
    (hd : nesting c p ≤ depth) : Follows bytes (routine depth c) p ⟨.ok v, q⟩ := by
  induction h generalizing depth with
  | @joined l p q r a v hl hg _ ih ihc =>
    obtain ⟨depth, rfl⟩ := exists_eq_succ hd
    rw [routine, phrase_joined hl]
    refine (follows_nextToken p).bind ?_
    exact (ih (le_of_nested (nesting_operand hl p) hd)).bind
      (ihc (le_of_nested (nesting_joined hl hg) hd))
  | negated hs _ ih =>
    obtain ⟨depth, rfl⟩ := exists_eq_succ hd
    rw [routine, phrase]
    refine (follows_tryConsume_of_accepts (Matcher.accepts_byte.mpr hs)).bind ?_
    exact (ih (le_of_nested (nesting_negated hs) hd)).bind (.pure _ _)
  | @unsigned p q v hs _ ih =>
    obtain ⟨depth, rfl⟩ := exists_eq_succ hd
    rw [routine, phrase]
    refine (follows_tryConsume_of_not_accepts (mt Matcher.accepts_byte.mp hs)).bind ?_
    exact ih (le_of_nested (nesting_unsigned p) hd)
  | literal hu =>
    obtain ⟨depth, rfl⟩ := exists_eq_succ hd
    exact follows_phrase_literal hu
  | @paren p q budget v ho hb hg hc ih =>
    obtain ⟨depth, rfl⟩ := exists_eq_succ hd
    obtain ⟨ts, hts⟩ := hg.exists_consumes
    refine follows_parenthesized (o := ⟨.ok v, q.advance⟩) ho hb hd (fun d hd => ?_) hts.budget
    exact (ih hd).bind ((follows_expect_byte hc).bind (.pure _ _))
  | done ho =>
    obtain ⟨depth, rfl⟩ := exists_eq_succ hd
    rw [routine, chain]
    exact (follows_tryOperator_none ho).bind (.pure _ _)
  | link ho hg hv _ ih ihc =>
    obtain ⟨depth, rfl⟩ := exists_eq_succ hd
    rw [routine, chain]
    refine (follows_tryOperator_some ho).bind ?_
    refine (ih (le_of_nested (nesting_linkOperand ho) hd)).bind ?_
    exact (follows_operate_ok hv _ _).bind (ihc (le_of_nested (nesting_link ho hg) hd))

/-- Where a routine fails, the checked one fails with the same error and does not break off. -/
theorem follows_of_fails {c : Call} {e : EvalError} {depth : Nat} (h : Fails c p e q)
    (hd : nesting c p ≤ depth) : Follows bytes (routine depth c) p ⟨.error e, q⟩ := by
  induction h generalizing depth with
  | @operand l p q e hl _ ih =>
    obtain ⟨depth, rfl⟩ := exists_eq_succ hd
    rw [routine, phrase_joined hl]
    refine (follows_nextToken p).bind ?_
    exact (ih (le_of_nested (nesting_operand hl p) hd)).bind_error
  | @joined l p q r a e hl hg _ ihc =>
    obtain ⟨depth, rfl⟩ := exists_eq_succ hd
    rw [routine, phrase_joined hl]
    refine (follows_nextToken p).bind ?_
    exact (follows_of_gives hg (le_of_nested (nesting_operand hl p) hd)).bind
      (ihc (le_of_nested (nesting_joined hl hg) hd))
  | negated hs _ ih =>
    obtain ⟨depth, rfl⟩ := exists_eq_succ hd
    rw [routine, phrase]
    refine (follows_tryConsume_of_accepts (Matcher.accepts_byte.mpr hs)).bind ?_
    exact (ih (le_of_nested (nesting_negated hs) hd)).bind_error
  | @unsigned p q e hs _ ih =>
    obtain ⟨depth, rfl⟩ := exists_eq_succ hd
    rw [routine, phrase]
    refine (follows_tryConsume_of_not_accepts (mt Matcher.accepts_byte.mp hs)).bind ?_
    exact ih (le_of_nested (nesting_unsigned p) hd)
  | noOperand hu ho =>
    obtain ⟨depth, rfl⟩ := exists_eq_succ hd
    exact follows_phrase_noOperand hu ho
  | tooDeep ho hb =>
    obtain ⟨depth, rfl⟩ := exists_eq_succ hd
    exact follows_phrase_paren ho (follows_enter_of_zero hb).bind_error
  | @paren p q budget e ho hb hf ih =>
    obtain ⟨depth, rfl⟩ := exists_eq_succ hd
    obtain ⟨ts, hts⟩ := hf.exists_consumes
    refine follows_parenthesized (o := ⟨.error e, q⟩) ho hb hd (fun d hd => ?_) hts.budget
    exact (ih hd).bind_error
  | @unclosed p q budget v ho hb hg hc =>
    obtain ⟨depth, rfl⟩ := exists_eq_succ hd
    obtain ⟨ts, hts⟩ := hg.exists_consumes
    refine follows_parenthesized (o := ⟨.error _, q⟩) ho hb hd (fun d hd => ?_) hts.budget
    exact (follows_of_gives hg hd).bind (follows_expect_other hc).bind_error
  | linkOperand ho _ ih =>
    obtain ⟨depth, rfl⟩ := exists_eq_succ hd
    rw [routine, chain]
    refine (follows_tryOperator_some ho).bind ?_
    exact (ih (le_of_nested (nesting_linkOperand ho) hd)).bind_error
  | zeroDivisor ho hg hv =>
    obtain ⟨depth, rfl⟩ := exists_eq_succ hd
    rw [routine, chain]
    refine (follows_tryOperator_some ho).bind ?_
    refine (follows_of_gives hg (le_of_nested (nesting_linkOperand ho) hd)).bind ?_
    exact (follows_operate_error hv _ _).bind_error
  | link ho hg hv _ ih =>
    obtain ⟨depth, rfl⟩ := exists_eq_succ hd
    rw [routine, chain]
    refine (follows_tryOperator_some ho).bind ?_
    refine (follows_of_gives hg (le_of_nested (nesting_linkOperand ho) hd)).bind ?_
    exact (follows_operate_ok hv _ _).bind (ih (le_of_nested (nesting_link ho hg) hd))

/-- With this much depth, a checked routine comes to what the routine comes to. -/
theorem follows_routine {depth : Nat} (c : Call) (p : Calculator.Parser)
    (hd : nesting c p ≤ depth) : Follows bytes (routine depth c) p (c.outcome p) := by
  cases Calculator.Parser.ends c p with
  | gives h =>
    rw [h.outcome]
    exact follows_of_gives h hd
  | fails h =>
    rw [h.outcome]
    exact follows_of_fails h hd

/-! ### The entry points -/

theorem follows_whole {depth : Nat} (hd : nesting (.phrase .sum) p ≤ depth) :
    Follows bytes (whole depth) p p.whole :=
  (follows_routine (.phrase .sum) p hd).bind_outcome fun _ q =>
    (follows_expect (.kind .eof) q).bind_outcome fun _ _ => .pure _ _

theorem follows_leading {depth : Nat} (hd : nesting (.phrase .sum) p ≤ depth) :
    Follows bytes (leading depth) p p.leading :=
  (follows_routine (.phrase .sum) p hd).bind_outcome fun _ q =>
    (follows_nextToken q).bind (.pure _ _)

end

theorem Tracks.ofLexer {bytes : Bytes} {k : Lexer} {l : Calculator.Lexer} {limit : Nat}
    (h : k.Tracks bytes l) (hl : limit < UInt64.size) :
    ∃ p, ofLexer k limit = pure p ∧ p.Tracks bytes (.ofLexer l limit) := by
  obtain ⟨k', hk, h'⟩ := h.advance
  exact ⟨_, by rw [Parser.ofLexer, hk, pure_bind], h', rfl, h.cursor.pos, rfl, hl⟩

end Parser

namespace Lexer

/-- The result of a routine that begins at the next token. -/
def parse {α : Type} (x : Routine α) (k : Lexer) (limit : Nat) : Run (Except EvalError α) := do
  let p ← Parser.ofLexer k limit
  let (result, _) ← x p
  pure result

/-- The value of the expression that the input consists of. -/
def evaluate (depth : Nat) (k : Lexer) (limit : Nat := recursionLimit) :
    Run (Except EvalError Int32) :=
  k.parse (Parser.whole depth) limit

/-- The value of the longest expression that the input begins with, and the first token that is
not part of it. -/
def evaluateLeading (depth : Nat) (k : Lexer) (limit : Nat := recursionLimit) :
    Run (Except EvalError (Int32 × Token)) :=
  k.parse (Parser.leading depth) limit

variable {bytes : Bytes} {k : Lexer} {l : Calculator.Lexer} {limit depth : Nat}

theorem parse_eq {α : Type} {x : Routine α} {o : Outcome α} (h : k.Tracks bytes l)
    (hl : limit < UInt64.size) (hx : Parser.Follows bytes x (.ofLexer l limit) o) :
    k.parse x limit = pure o.result := by
  obtain ⟨p, hp, ht⟩ := Parser.Tracks.ofLexer h hl
  obtain ⟨p', hp', -⟩ := hx p ht
  rw [parse, hp, pure_bind, hp', pure_bind]

/-- Calls nest no deeper than there are bytes for it. -/
theorem nesting_ofLexer_le (h : k.Tracks bytes l) (limit : Nat) :
    Parser.nesting (.phrase .sum) (.ofLexer l limit) ≤ 5 * bytes.length + 4 := by
  have hl := Calculator.Parser.ofLexer_remaining_le l limit
  have := h.cursor.counts.byte_add_length
  simp only [Parser.nesting, Parser.rank]
  omega

theorem evaluate_eq (h : k.Tracks bytes l) (hl : limit < UInt64.size)
    (hd : 5 * bytes.length + 4 ≤ depth) : k.evaluate depth limit = pure (l.evaluate limit) :=
  parse_eq h hl (Parser.follows_whole (Nat.le_trans (nesting_ofLexer_le h limit) hd))

theorem evaluateLeading_eq (h : k.Tracks bytes l) (hl : limit < UInt64.size)
    (hd : 5 * bytes.length + 4 ≤ depth) :
    k.evaluateLeading depth limit = pure (l.evaluateLeading limit) :=
  parse_eq h hl (Parser.follows_leading (Nat.le_trans (nesting_ofLexer_le h limit) hd))

end Lexer
end Calculator.Checked
