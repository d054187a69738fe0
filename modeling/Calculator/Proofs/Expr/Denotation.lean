import Calculator.Expr

/-!
# Expressions apart from their places

The token values of an expression, its value by exact arithmetic reduced to 32 bits, the same
expression laid over other places, and chains of operators as a first part and links. The value
that `Expr.evaluate` computes is the one the laws of arithmetic give (`Expr.evaluate_eq_ok_iff`),
and an expression laid over tokens with its values has those tokens (`Expr.tokens_placed`).
-/

namespace Calculator

/-! ### The tokens of the grammar -/

theorem Token.ofByte_span {t : Token} {b : UInt8} (h : t.value = .other b) :
    ofByte b t.span = t := by
  cases t
  simp_all [ofByte]

@[simp] theorem closeParen_ne_openParen : closeParen ≠ openParen := by decide

@[simp] theorem openParen_ne_closeParen : openParen ≠ closeParen := by decide

namespace BinOp

@[simp] theorem byte_ne_openParen (op : BinOp) : op.byte ≠ openParen := by cases op <;> decide

@[simp] theorem byte_ne_closeParen (op : BinOp) : op.byte ≠ closeParen := by cases op <;> decide

@[simp] theorem closeParen_ne_byte (op : BinOp) : closeParen ≠ op.byte := by cases op <;> decide

/-- The operators of a level are not those of its operands. -/
theorem byte_ne_byte {l : Level} :
    ∀ op ∈ l.operators, ∀ op' ∈ l.operand.operators, op.byte ≠ op'.byte := by
  cases l <;> decide

end BinOp

namespace UnOp

@[simp] theorem negate_byte_ne_openParen : negate.byte ≠ openParen := by decide

@[simp] theorem openParen_ne_negate_byte : openParen ≠ negate.byte := by decide

@[simp] theorem negate_byte_ne_closeParen : negate.byte ≠ closeParen := by decide

end UnOp

/-! ### Arithmetic -/

/-- The exact result of an operation, reduced to 32 bits. Quotients are rounded towards zero, and
there is none by zero. -/
def BinOp.denote (op : BinOp) (a b : Int32) : Option Int32 :=
  match op with
  | .add => some (.ofInt (a.toInt + b.toInt))
  | .subtract => some (.ofInt (a.toInt - b.toInt))
  | .multiply => some (.ofInt (a.toInt * b.toInt))
  | .divide => if b.toInt = 0 then none else some (.ofInt (a.toInt.tdiv b.toInt))

theorem BinOp.toOption_apply (op : BinOp) (a b : Int32) :
    (op.apply a b).toOption = op.denote a b := by
  cases op with
  | add | subtract | multiply => simp [apply, denote, Except.toOption]
  | divide =>
    have hb : b.toInt = 0 ↔ b = 0 := by rw [← Int32.toInt_inj, Int32.toInt_zero]
    have hq : Int32.ofInt (a.toInt.tdiv b.toInt) = a / b := by
      apply Int32.toInt.inj
      rw [Int32.toInt_ofInt, Int32.toInt_div]
    by_cases h : b = 0
    · simp [apply, denote, h, Except.toOption]
    · simp [apply, denote, hb, h, hq, Except.toOption]

theorem literalValue_eq (n : UInt32) : literalValue n = .ofInt n.toNat := by
  rw [Int32.ofInt_eq_ofNat, ← UInt32.toInt32_ofNat', UInt32.ofNat_toNat, literalValue]

namespace Expr

/-! ### Token values and denotation -/

/-- The token values of an expression from left to right. -/
def values {l : Level} (e : Expr l) : List Token.Value := e.tokens.map (·.value)

@[simp] theorem values_literal (n : UInt32) (span : Span) :
    (literal n span).values = [.uint n] := rfl

@[simp] theorem values_paren (opening : Span) (body : Expr .sum) (closing : Span) :
    (paren opening body closing).values =
      .other openParen :: (body.values ++ [.other closeParen]) := by
  simp [values, tokens, Token.ofByte]

@[simp] theorem values_negated (sign : Span) (e : Expr .primary) :
    (negated sign e).values = .other UnOp.negate.byte :: e.values := rfl

@[simp] theorem values_factor (e : Expr .unary) : (factor e).values = e.values := rfl

@[simp] theorem values_product (left : Expr .product) (op : BinOp)
    (h : op ∈ Level.product.operators) (sign : Span) (right : Expr .unary) :
    (product left op h sign right).values = left.values ++ .other op.byte :: right.values := by
  simp [values, tokens, Token.ofByte]

@[simp] theorem values_term (e : Expr .product) : (term e).values = e.values := rfl

@[simp] theorem values_sum (left : Expr .sum) (op : BinOp)
    (h : op ∈ Level.sum.operators) (sign : Span) (right : Expr .product) :
    (sum left op h sign right).values = left.values ++ .other op.byte :: right.values := by
  simp [values, tokens, Token.ofByte]

theorem length_values {l : Level} (e : Expr l) : e.values.length = e.tokens.length :=
  List.length_map _

/-- The value of an expression by the laws of arithmetic, if no divisor is zero. -/
def denote {l : Level} : Expr l → Option Int32
  | .literal n _ => some (.ofInt n.toNat)
  | .paren _ e _ | .unsigned e | .factor e | .term e => e.denote
  | .negated _ e => e.denote.map fun a => .ofInt (-a.toInt)
  | .product left op _ _ right | .sum left op _ _ right => do
    let a ← left.denote
    let b ← right.denote
    op.denote a b

private theorem toOption_evaluate {l : Level} (e : Expr l) :
    e.evaluate.toOption = e.denote := by
  induction e with
  | literal n => simp [evaluate, denote, literalValue_eq, Except.toOption]
  | paren _ _ _ ih | unsigned _ ih | factor _ ih | term _ ih => exact ih
  | negated _ e ih =>
    simp only [evaluate, denote, ← ih]
    cases e.evaluate <;> simp [Except.map, Except.toOption, UnOp.apply]
  | product left op _ _ right ihl ihr | sum left op _ _ right ihl ihr =>
    simp only [evaluate, denote, ← ihl, ← ihr]
    cases left.evaluate with
    | error => rfl
    | ok a =>
      cases right.evaluate with
      | error => rfl
      | ok b =>
        refine Eq.trans ?_ (op.toOption_apply a b)
        simp only [bind, Except.bind]
        cases op.apply a b <;> rfl

/-- The value of an expression is the one that the laws of arithmetic give it. -/
theorem evaluate_eq_ok_iff {l : Level} (e : Expr l) {v : Int32} :
    e.evaluate = .ok v ↔ e.denote = some v := by
  rw [← toOption_evaluate]
  cases e.evaluate <;> simp [Except.toOption]

/-! ### Chains -/

/-- An operand as a phrase of the level above. -/
def single : {l : Level} → Expr l.operand → Expr l
  | .sum, e => .term e
  | .product, e => .factor e
  | .unary, e => .unsigned e
  | .primary, e => e

/-- An operator of a level and the operand behind it. -/
structure Link (l : Level) where
  op : BinOp
  mem : op ∈ l.operators
  sign : Span := {}
  operand : Expr l.operand

/-- A chain with one more link at its end. -/
def extend : {l : Level} → Expr l → Link l → Expr l
  | .sum, e, k => .sum e k.op k.mem k.sign k.operand
  | .product, e, k => .product e k.op k.mem k.sign k.operand
  | .unary, _, k | .primary, _, k => absurd k.mem List.not_mem_nil

/-- A phrase followed by links, which operate on it from left to right. -/
def chain {l : Level} (first : Expr l) (links : List (Link l)) : Expr l := links.foldl extend first

section
variable {l : Level} (e : Expr l) (k : Link l)

theorem tokens_single (e : Expr l.operand) : (single e : Expr l).tokens = e.tokens := by
  cases l <;> rfl

theorem depth_single (e : Expr l.operand) : (single e : Expr l).depth = e.depth := by
  cases l <;> rfl

theorem evaluate_single (e : Expr l.operand) : (single e : Expr l).evaluate = e.evaluate := by
  cases l <;> rfl

theorem tokens_extend :
    (e.extend k).tokens = e.tokens ++ .ofByte k.op.byte k.sign :: k.operand.tokens := by
  cases l with
  | sum | product => rfl
  | unary | primary => exact absurd k.mem List.not_mem_nil

theorem depth_extend : (e.extend k).depth = max e.depth k.operand.depth := by
  cases l with
  | sum | product => rfl
  | unary | primary => exact absurd k.mem List.not_mem_nil

theorem evaluate_extend :
    (e.extend k).evaluate = (do
      let a ← e.evaluate
      let b ← k.operand.evaluate
      match k.op.apply a b with
      | .ok v => .ok v
      | .error .divisionByZero => .error ⟨e.start, k.operand.stop⟩) := by
  cases l with
  | sum | product => rfl
  | unary | primary => exact absurd k.mem List.not_mem_nil

theorem evaluate_extend_eq_ok_iff {v : Int32} :
    (e.extend k).evaluate = .ok v ↔
      ∃ a b, e.evaluate = .ok a ∧ k.operand.evaluate = .ok b ∧ k.op.apply a b = .ok v := by
  rw [evaluate_extend]
  cases e.evaluate with
  | error => simp [bind, Except.bind]
  | ok a =>
    cases k.operand.evaluate with
    | error => simp [bind, Except.bind]
    | ok b => cases h : k.op.apply a b <;> simp [bind, Except.bind, h]

theorem evaluate_extend_eq_error {span : Span} (h : (e.extend k).evaluate = .error span) :
    e.evaluate = .error span ∨
      (∃ a, e.evaluate = .ok a ∧ k.operand.evaluate = .error span) ∨
      ∃ a b, e.evaluate = .ok a ∧ k.operand.evaluate = .ok b ∧
        k.op.apply a b = .error .divisionByZero ∧ span = ⟨e.start, k.operand.stop⟩ := by
  rw [evaluate_extend] at h
  cases ha : e.evaluate with
  | error => simp_all [bind, Except.bind]
  | ok a =>
    cases hb : k.operand.evaluate with
    | error => simp_all [bind, Except.bind]
    | ok b => cases hv : k.op.apply a b <;> simp_all [bind, Except.bind]

end

/-- Parentheses nest no deeper in a chain than in its parts. -/
theorem depth_chain_le {l : Level} {first : Expr l} {links : List (Link l)} {n : Nat}
    (hf : first.depth ≤ n) (hl : ∀ k ∈ links, k.operand.depth ≤ n) :
    (first.chain links).depth ≤ n := by
  induction links generalizing first with
  | nil => exact hf
  | cons k links ih =>
    refine ih ?_ fun k hk => hl k (List.mem_cons_of_mem _ hk)
    rw [depth_extend]
    exact Nat.max_le.mpr ⟨hf, hl k List.mem_cons_self⟩

/-! ### Places -/

/-- The expression over other places: its tokens, from left to right, take up the spans of the
list. -/
def placed {l : Level} : Expr l → List Span → Expr l
  | .literal n _, spans => .literal n (spans.headD {})
  | .paren _ body _, spans =>
    .paren (spans.headD {}) (body.placed spans.tail)
      ((spans.drop (body.tokens.length + 1)).headD {})
  | .unsigned e, spans => .unsigned (e.placed spans)
  | .negated _ e, spans => .negated (spans.headD {}) (e.placed spans.tail)
  | .factor e, spans => .factor (e.placed spans)
  | .product left op h _ right, spans =>
    .product (left.placed spans) op h ((spans.drop left.tokens.length).headD {})
      (right.placed (spans.drop (left.tokens.length + 1)))
  | .term e, spans => .term (e.placed spans)
  | .sum left op h _ right, spans =>
    .sum (left.placed spans) op h ((spans.drop left.tokens.length).headD {})
      (right.placed (spans.drop (left.tokens.length + 1)))

@[simp] theorem depth_placed {l : Level} (e : Expr l) (spans : List Span) :
    (e.placed spans).depth = e.depth := by
  induction e generalizing spans <;> simp_all [placed, depth]

@[simp] theorem denote_placed {l : Level} (e : Expr l) (spans : List Span) :
    (e.placed spans).denote = e.denote := by
  induction e generalizing spans <;> simp_all [placed, denote]

private theorem drop_length_spans {ts rest : List Token} {n : Nat} (h : n = ts.length) :
    ((ts ++ rest).map (·.span)).drop n = rest.map (·.span) := by
  rw [List.map_append, h, ← List.length_map (·.span), List.drop_left]

/-- An expression laid over tokens that begin with its values has the tokens they begin with. -/
theorem tokens_placed {l : Level} (e : Expr l) {ts : List Token}
    (h : ts.map (·.value) = e.values) (rest : List Token) :
    (e.placed ((ts ++ rest).map (·.span))).tokens = ts := by
  induction e generalizing ts rest with
  | literal n =>
    rw [values_literal] at h
    obtain ⟨t, rfl, ht⟩ := List.map_eq_singleton_iff.mp h
    simp [placed, tokens, ← ht]
  | paren _ body _ ih =>
    rw [values_paren] at h
    obtain ⟨opening, us, rfl, ho, h⟩ := List.map_eq_cons_iff.mp h
    obtain ⟨inner, last, rfl, hb, h⟩ := List.map_eq_append_iff.mp h
    obtain ⟨closing, rfl, hc⟩ := List.map_eq_singleton_iff.mp h
    have hn : body.tokens.length + 1 = (opening :: inner).length := by
      simp [← length_values, ← hb]
    have hs : opening :: (inner ++ [closing]) ++ rest =
        (opening :: inner) ++ (closing :: rest) := by simp
    have hi : (body.placed (inner.map (·.span) ++ closing.span :: rest.map (·.span))).tokens =
        inner := by simpa using ih hb (closing :: rest)
    rw [placed, hs, drop_length_spans hn]
    simp [tokens, hi, Token.ofByte_span ho, Token.ofByte_span hc]
  | unsigned _ ih | factor _ ih | term _ ih => exact ih h rest
  | negated _ e ih =>
    rw [values_negated] at h
    obtain ⟨sign, us, rfl, hs, h⟩ := List.map_eq_cons_iff.mp h
    simp only [placed, tokens, List.cons_append, List.map_cons, List.headD_cons, List.tail_cons,
      ih h rest, Token.ofByte_span hs]
  | product left op _ _ right ihl ihr | sum left op _ _ right ihl ihr =>
    rw [values, tokens, List.map_append] at h
    obtain ⟨us, vs, rfl, hl, h⟩ := List.map_eq_append_iff.mp h
    obtain ⟨sign, ws, rfl, hs, hr⟩ := List.map_eq_cons_iff.mp h
    have hn : left.tokens.length = us.length := by simpa using (congrArg List.length hl).symm
    have h1 : (us ++ sign :: ws) ++ rest = us ++ (sign :: (ws ++ rest)) := by simp
    have h2 : us ++ (sign :: (ws ++ rest)) = (us ++ [sign]) ++ (ws ++ rest) := by simp
    have hn' : left.tokens.length + 1 = (us ++ [sign]).length := by simp [hn]
    rw [placed, h1, drop_length_spans hn, tokens, ihl hl, h2, drop_length_spans hn', ihr hr]
    simp [Token.ofByte_span hs]

end Expr
end Calculator
