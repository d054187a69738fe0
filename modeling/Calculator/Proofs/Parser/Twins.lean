import Calculator.Proofs.Parser.Budget
import Calculator.Proofs.Parser.Phrases

/-!
# Two parses of the same token values

Two parses that stand at the same index of lists of tokens go the same way as long as the tokens
have the same values: they give the same value (`Parser.Gives.aligned`) or fail with errors that
tell the same and are at the same tokens (`Parser.Fails.aligned`). Only the tokens up to the end of
what is read matter, and the next one where the call has to know it (`Parser.Call.lookahead`,
`EvalError.lookahead`). Of lists with the same values throughout, `Parser.Gives.twin` and
`Parser.Fails.twin` tell the same without counting tokens.
-/

namespace Calculator

/-- A stretch from the start of one token of a list to the end of another. -/
structure Span.Joins (s : Span) (ts : List Token) (i j : Nat) : Prop where
  start_eq : ts[i]?.map (·.span.start) = some s.start
  stop_eq : ts[j]?.map (·.span.stop) = some s.stop

/-- What an error tells apart from places. -/
def EvalError.unplaced : EvalError → EvalError
  | .unexpectedToken expected actual => .unexpectedToken expected { actual with span := {} }
  | .divisionByZero _ => .divisionByZero {}
  | .recursionLimit _ => .recursionLimit {}

/-- Errors that tell the same and extend from the same token to the same token. -/
structure EvalError.Twin (ts us : List Token) (e e' : EvalError) : Prop where
  unplaced_eq : e'.unplaced = e.unplaced
  joins : ∃ i j, e.span.Joins ts i j ∧ e'.span.Joins us i j

theorem Span.joins_token {ts : List Token} {i : Nat} {t : Token} (h : ts[i]? = some t) :
    t.span.Joins ts i i := by
  constructor <;> rw [h] <;> rfl

namespace EvalError.Twin
variable {ts us : List Token} {i : Nat} {t u : Token}

theorem unexpectedToken (ht : ts[i]? = some t) (hu : us[i]? = some u) (hv : u.value = t.value)
    (expected : List Token.Kind) :
    Twin ts us (.unexpectedToken expected t) (.unexpectedToken expected u) where
  unplaced_eq := by rw [unplaced, unplaced, hv]
  joins := ⟨i, i, Span.joins_token ht, Span.joins_token hu⟩

theorem recursionLimit (ht : ts[i]? = some t) (hu : us[i]? = some u) :
    Twin ts us (.recursionLimit t.span) (.recursionLimit u.span) where
  unplaced_eq := rfl
  joins := ⟨i, i, Span.joins_token ht, Span.joins_token hu⟩

end EvalError.Twin

namespace Parser

/-- A parse of a list of tokens: behind those that were consumed, the others are to come. -/
structure At (ts : List Token) (p : Parser) : Prop where
  upcoming_eq : p.upcoming = ts.drop p.taken

namespace At
variable {ts us : List Token} {p q : Parser}

theorem ofLexer (l : Lexer) (limit : Nat) : At l.ahead (Parser.ofLexer l limit) :=
  ⟨upcoming_ofLexer l limit⟩

theorem getElem?_taken (h : At ts p) : ts[p.taken]? = some p.token := by
  have h0 : (ts.drop p.taken)[0]? = some p.token := by
    rw [← h.upcoming_eq]
    rfl
  rwa [List.getElem?_drop, Nat.add_zero] at h0

theorem consumes (h : At ts p) (hc : Consumes p us q) : At ts q := by
  have hu := hc.upcoming
  rw [h.upcoming_eq] at hu
  constructor
  rw [hc.taken, ← List.drop_drop, hu, List.drop_left]

/-- `prevEnd` is where the last token that was consumed ends. -/
theorem map_stop_of_consumes {ws : List Token} {t : Token} (h : At ts p)
    (hc : Consumes p (ws ++ [t]) q) : ts[q.taken - 1]?.map (·.span.stop) = some q.prevEnd := by
  have hu : ts.drop p.taken = ws ++ t :: q.upcoming := by
    rw [← h.upcoming_eq, hc.upcoming, List.append_assoc]
    rfl
  have hi : q.taken - 1 = p.taken + ws.length := by
    rw [hc.taken, List.length_append]
    rfl
  rw [hi, ← List.getElem?_drop, hu, List.getElem?_append_right (Nat.le_refl _), Nat.sub_self,
    hc.prevEnd, List.getLast?_concat]
  rfl

theorem map_stop {l : Level} {v : Int32} (h : At ts p) (hg : Gives (.phrase l) p v q) :
    ts[q.taken - 1]?.map (·.span.stop) = some q.prevEnd := by
  obtain ⟨e, he⟩ := hg.reads
  obtain ⟨t, ht, -⟩ := e.getLast?_tokens
  obtain ⟨ws, hws⟩ := List.getLast?_eq_some_iff.mp ht
  exact h.map_stop_of_consumes (hws ▸ he.consumes)

end At

/-- The same call at the same place. -/
inductive Call.Twin (ts us : List Token) : Call → Call → Prop
  | phrase (l : Level) : Twin ts us (.phrase l) (.phrase l)
  | chain (l : Level) (a : Int32) {i : Nat} {start start' : Position}
    (hs : ts[i]?.map (·.span.start) = some start) (hs' : us[i]?.map (·.span.start) = some start') :
    Twin ts us (.chain l start a) (.chain l start' a)

/-! ### The same values up to an index -/

/-- Two parses at the same index of lists of tokens whose first `n` have the same values. -/
structure Aligned (n : Nat) (ts us : List Token) (p q : Parser) : Prop where
  values_eq : (ts.take n).map (·.value) = (us.take n).map (·.value)
  left : At ts p
  right : At us q
  taken_eq : q.taken = p.taken
  budget_eq : q.budget = p.budget

namespace Aligned
variable {n : Nat} {ts us : List Token} {p q : Parser}

section
variable (h : Aligned n ts us p q) (hn : p.taken < n)
include h hn

theorem getElem?_left : (ts.take n)[p.taken]? = some p.token := by
  rw [List.getElem?_take_of_lt hn]
  exact h.left.getElem?_taken

theorem getElem?_right : (us.take n)[p.taken]? = some q.token := by
  rw [List.getElem?_take_of_lt hn, ← h.taken_eq]
  exact h.right.getElem?_taken

theorem value_eq : q.token.value = p.token.value := by
  have hv : ((ts.take n).map (·.value))[p.taken]? = ((us.take n).map (·.value))[p.taken]? := by
    rw [h.values_eq]
  rw [List.getElem?_map, List.getElem?_map, h.getElem?_left hn, h.getElem?_right hn] at hv
  exact (Option.some.inj hv).symm

theorem operator?_eq (l : Level) : q.operator? l = p.operator? l := by
  rw [operator?, operator?, h.value_eq hn]

theorem advance (ht : p.token.isEof = false) : Aligned n ts us p.advance q.advance where
  values_eq := h.values_eq
  left := h.left.consumes (.advance ht)
  right := h.right.consumes (.advance (by rwa [Token.isEof, h.value_eq hn]))
  taken_eq := congrArg (· + 1) h.taken_eq
  budget_eq := h.budget_eq

theorem advance_operator {l : Level} {op : BinOp} (ho : p.operator? l = some op) :
    Aligned n ts us p.advance q.advance :=
  h.advance hn (isEof_of_other (value_of_operator? ho).2)

theorem chain (l : Level) (a : Int32) : Call.Twin (ts.take n) (us.take n)
    (.chain l p.token.span.start a) (.chain l q.token.span.start a) :=
  .chain l a (i := p.taken) (by rw [h.getElem?_left hn]; rfl) (by rw [h.getElem?_right hn]; rfl)

end

theorem withBudget (h : Aligned n ts us p q) (budget : Nat) :
    Aligned n ts us { p with budget } { q with budget } where
  values_eq := h.values_eq
  left := ⟨h.left.upcoming_eq⟩
  right := ⟨h.right.upcoming_eq⟩
  taken_eq := h.taken_eq
  budget_eq := rfl

theorem inner (h : Aligned n ts us p q) (hn : p.taken < n) (ht : p.token.isEof = false)
    (budget : Nat) : Aligned n ts us (p.inner budget) (q.inner budget) :=
  (h.withBudget budget).advance hn ht

theorem leave (h : Aligned n ts us p q) : Aligned n ts us p.leave q.leave := by
  have hb : q.leave = { q with budget := p.budget + 1 } := by rw [Parser.leave, h.budget_eq]
  rw [hb]
  exact h.withBudget _

end Aligned

/-! ### How far calls look -/

/-- Whether a call has to know the token behind what it reads. -/
def Call.lookahead : Call → Nat
  | .phrase .sum | .phrase .product | .chain _ _ _ => 1
  | .phrase .unary | .phrase .primary => 0

theorem Call.lookahead_le : (c : Call) → c.lookahead ≤ 1
  | .phrase .sum | .phrase .product | .chain _ _ _ => Nat.le_refl 1
  | .phrase .unary | .phrase .primary => Nat.zero_le 1

theorem lookahead_joined {l : Level} (hl : l.operators ≠ []) : (Call.phrase l).lookahead = 1 := by
  cases l with
  | sum | product => rfl
  | unary | primary => exact absurd rfl hl

theorem Call.add_lookahead_le (c : Call) {i n : Nat} (h : i < n) : i + c.lookahead ≤ n :=
  Nat.le_trans (Nat.add_le_add_left c.lookahead_le i) h

/-- The divisor of a chain is read without looking at what comes behind it. -/
theorem lookahead_divisor {l : Level} {p : Parser} {op : BinOp} {a b : Int32} {e : ArithError}
    (ho : p.operator? l = some op) (hv : op.apply a b = .error e) :
    (Call.phrase l.operand).lookahead = 0 := by
  have hm := (value_of_operator? ho).1
  cases op with
  | add | subtract | multiply => cases hv
  | divide =>
    cases l with
    | product => rfl
    | sum | unary | primary => simp [Level.operators] at hm

end Parser

/-- Whether the token that an error is about is the next one. A division by zero comes up behind
its divisor. -/
def EvalError.lookahead : EvalError → Nat
  | .divisionByZero _ => 0
  | .unexpectedToken _ _ | .recursionLimit _ => 1

namespace Parser

theorem Gives.taken_lt {c : Call} {p q : Parser} {v : Int32} (h : Gives c p v q) :
    p.taken < q.taken + c.lookahead := by
  induction h with
  | joined hl hg hc =>
    rw [lookahead_joined hl]
    exact Nat.lt_succ_of_le (Nat.le_trans hg.taken_le hc.taken_le)
  | negated _ hg => exact hg.taken_le
  | unsigned _ _ ih => exact ih
  | literal => exact Nat.lt_succ_self _
  | paren _ _ hg => exact Nat.lt_succ_of_lt hg.taken_le
  | done => exact Nat.lt_succ_self _
  | link _ hg _ hc => exact Nat.lt_succ_of_lt (Nat.le_trans hg.taken_le hc.taken_le)

theorem Fails.taken_lt {c : Call} {p q : Parser} {e : EvalError} (h : Fails c p e q) :
    p.taken < q.taken + e.lookahead := by
  induction h with
  | operand _ _ ih | unsigned _ _ ih => exact ih
  | joined _ hg _ ih => exact Nat.lt_of_le_of_lt hg.taken_le ih
  | negated _ hf | paren _ _ hf | linkOperand _ hf => exact Nat.lt_add_right _ hf.taken_le
  | noOperand | tooDeep => exact Nat.lt_succ_self _
  | unclosed _ _ hg | zeroDivisor _ hg => exact Nat.lt_add_right _ hg.taken_le
  | link _ hg _ _ ih => exact Nat.lt_trans hg.taken_le ih

/-! ### The same way -/

section
variable {n : Nat} {ts us : List Token} {c c' : Call} {p q r : Parser}

/-- A call that gives a value gives it on all tokens with the same values as far as it looks. -/
theorem Gives.aligned {v : Int32} (h : Gives c p v r) (hc : c.Twin (ts.take n) (us.take n) c')
    (ha : Aligned n ts us p q) (hn : r.taken + c.lookahead ≤ n) :
    ∃ r', Gives c' q v r' ∧ Aligned n ts us r r' := by
  have hp : p.taken < n := Nat.lt_of_lt_of_le h.taken_lt hn
  -- What is read first ends before the index, since the rest of the call looks up to there.
  induction h generalizing c' q with
  | joined hl hg hch ih ihc =>
    cases hc
    rw [lookahead_joined hl] at hn
    have hs := Nat.lt_of_lt_of_le hch.taken_lt hn
    obtain ⟨q', hg', ha'⟩ := ih (.phrase _) ha (Call.add_lookahead_le _ hs) hp
    obtain ⟨r', hc', hr⟩ := ihc (ha.chain hp _ _) ha' hn hs
    exact ⟨r', .joined hl hg' hc', hr⟩
  | negated hs hg ih =>
    cases hc
    obtain ⟨r', hg', hr⟩ := ih (.phrase _) (ha.advance hp (isEof_of_other hs)) hn
      (Nat.lt_of_lt_of_le hg.taken_lt hn)
    exact ⟨r', .negated ((ha.value_eq hp).trans hs) hg', hr⟩
  | unsigned hs _ ih =>
    cases hc
    obtain ⟨r', hg, hr⟩ := ih (.phrase _) ha hn hp
    exact ⟨r', .unsigned (ha.value_eq hp ▸ hs) hg, hr⟩
  | literal hu =>
    cases hc
    exact ⟨_, .literal ((ha.value_eq hp).trans hu), ha.advance hp (isEof_of_uint hu)⟩
  | @paren p s budget v ho hb hg hcl ih =>
    cases hc
    have hs : s.taken < n := hn
    obtain ⟨r', hg', hr⟩ := ih (.phrase _) (ha.inner hp (isEof_of_other ho) _) hn
      (Nat.lt_of_lt_of_le hg.taken_lt hn)
    exact ⟨_, .paren ((ha.value_eq hp).trans ho) (ha.budget_eq.trans hb) hg'
      ((hr.value_eq hs).trans hcl), (hr.advance hs (isEof_of_other hcl)).leave⟩
  | done ho =>
    cases hc
    exact ⟨q, .done ((ha.operator?_eq hp _).trans ho), ha⟩
  | link ho hg hv hch ih ihc =>
    cases hc with
    | chain _ _ hs hs' =>
      have hq := Nat.lt_of_lt_of_le hch.taken_lt hn
      have ht := Nat.lt_of_lt_of_le hg.taken_lt (Call.add_lookahead_le _ hq)
      obtain ⟨q', hg', ha'⟩ := ih (.phrase _) (ha.advance_operator hp ho)
        (Call.add_lookahead_le _ hq) ht
      obtain ⟨r', hc', hr⟩ := ihc (.chain _ _ hs hs') ha' hn hq
      exact ⟨r', .link ((ha.operator?_eq hp _).trans ho) hg' hv hc', hr⟩

/-- A call that fails does so on all tokens with the same values up to the one it fails at. -/
theorem Fails.aligned {e : EvalError} (h : Fails c p e r)
    (hc : c.Twin (ts.take n) (us.take n) c') (ha : Aligned n ts us p q)
    (hn : r.taken + e.lookahead ≤ n) :
    ∃ e' r', Fails c' q e' r' ∧ e.Twin (ts.take n) (us.take n) e' := by
  have hp : p.taken < n := Nat.lt_of_lt_of_le h.taken_lt hn
  induction h generalizing c' q with
  | operand hl _ ih =>
    cases hc
    obtain ⟨e', r', hf, he⟩ := ih (.phrase _) ha hn hp
    exact ⟨e', r', .operand hl hf, he⟩
  | joined hl hg hf ihc =>
    cases hc
    have hs := Nat.lt_of_lt_of_le hf.taken_lt hn
    obtain ⟨q', hg', ha'⟩ := hg.aligned (.phrase _) ha (Call.add_lookahead_le _ hs)
    obtain ⟨e', r', hf', he⟩ := ihc (ha.chain hp _ _) ha' hn hs
    exact ⟨e', r', .joined hl hg' hf', he⟩
  | negated hs hf ih =>
    cases hc
    obtain ⟨e', r', hf', he⟩ := ih (.phrase _) (ha.advance hp (isEof_of_other hs)) hn
      (Nat.lt_of_lt_of_le hf.taken_lt hn)
    exact ⟨e', r', .negated ((ha.value_eq hp).trans hs) hf', he⟩
  | unsigned hs _ ih =>
    cases hc
    obtain ⟨e', r', hf, he⟩ := ih (.phrase _) ha hn hp
    exact ⟨e', r', .unsigned (ha.value_eq hp ▸ hs) hf, he⟩
  | noOperand hu ho =>
    cases hc
    have hv := ha.value_eq hp
    exact ⟨_, _, .noOperand (hv ▸ hu) (hv ▸ ho),
      .unexpectedToken (ha.getElem?_left hp) (ha.getElem?_right hp) hv _⟩
  | tooDeep ho hb =>
    cases hc
    exact ⟨_, _, .tooDeep ((ha.value_eq hp).trans ho) (ha.budget_eq.trans hb),
      .recursionLimit (ha.getElem?_left hp) (ha.getElem?_right hp)⟩
  | paren ho hb hf ih =>
    cases hc
    obtain ⟨e', r', hf', he⟩ := ih (.phrase _) (ha.inner hp (isEof_of_other ho) _) hn
      (Nat.lt_of_lt_of_le hf.taken_lt hn)
    exact ⟨e', _, .paren ((ha.value_eq hp).trans ho) (ha.budget_eq.trans hb) hf', he⟩
  | @unclosed p s budget v ho hb hg hcl =>
    cases hc
    have hs : s.taken < n := hn
    obtain ⟨r', hg', hr⟩ := hg.aligned (.phrase _) (ha.inner hp (isEof_of_other ho) _) hs
    have hv := hr.value_eq hs
    exact ⟨_, _, .unclosed ((ha.value_eq hp).trans ho) (ha.budget_eq.trans hb) hg' (hv ▸ hcl),
      .unexpectedToken (hr.getElem?_left hs) (hr.getElem?_right hs) hv _⟩
  | linkOperand ho hf ih =>
    cases hc
    obtain ⟨e', r', hf', he⟩ := ih (.phrase _) (ha.advance_operator hp ho) hn
      (Nat.lt_of_lt_of_le hf.taken_lt hn)
    exact ⟨e', r', .linkOperand ((ha.operator?_eq hp _).trans ho) hf', he⟩
  | @zeroDivisor l start a b p s op ho hg hv =>
    cases hc with
    | chain _ _ hs hs' =>
      -- The divisor alone is read, so that the token behind it may be any.
      have hd := ha.advance_operator hp ho
      obtain ⟨r', hg', hr⟩ := hg.aligned (.phrase _) hd (by rwa [lookahead_divisor ho hv])
      have hle : p.taken + 1 ≤ s.taken := hg.taken_le
      have hlt : s.taken - 1 < n := by omega
      have hstop := hd.left.map_stop hg
      have hstop' := hd.right.map_stop hg'
      rw [hr.taken_eq] at hstop'
      rw [← List.getElem?_take_of_lt hlt] at hstop hstop'
      exact ⟨_, r', .zeroDivisor ((ha.operator?_eq hp _).trans ho) hg' hv, rfl, _, s.taken - 1,
        ⟨hs, hstop⟩, hs', hstop'⟩
  | link ho hg hv hf ihc =>
    cases hc with
    | chain _ _ hs hs' =>
      have ht := Nat.lt_of_lt_of_le hf.taken_lt hn
      obtain ⟨q', hg', ha'⟩ := hg.aligned (.phrase _) (ha.advance_operator hp ho)
        (Call.add_lookahead_le _ ht)
      obtain ⟨e', r', hf', he⟩ := ihc (.chain _ _ hs hs') ha' hn ht
      exact ⟨e', r', .link ((ha.operator?_eq hp _).trans ho) hg' hv hf', he⟩

end

/-! ### The same values throughout -/

/-- Two parses at the same index of lists of tokens with the same values. -/
structure Twin (ts us : List Token) (p q : Parser) : Prop where
  values_eq : ts.map (·.value) = us.map (·.value)
  left : At ts p
  right : At us q
  taken_eq : q.taken = p.taken
  budget_eq : q.budget = p.budget

section
variable {ts us : List Token} {c c' : Call} {p q r : Parser}

namespace Twin

theorem getElem?_right (h : Twin ts us p q) : us[p.taken]? = some q.token := by
  rw [← h.taken_eq]
  exact h.right.getElem?_taken

theorem aligned (h : Twin ts us p q) (n : Nat) : Aligned n ts us p q where
  values_eq := by rw [List.map_take, List.map_take, h.values_eq]
  left := h.left
  right := h.right
  taken_eq := h.taken_eq
  budget_eq := h.budget_eq

theorem value_eq (h : Twin ts us p q) : q.token.value = p.token.value :=
  (h.aligned _).value_eq (Nat.lt_succ_self _)

theorem isEof_eq (h : Twin ts us p q) : q.token.isEof = p.token.isEof := by
  rw [Token.isEof, Token.isEof, h.value_eq]

end Twin

theorem Gives.twin {v : Int32} (h : Gives c p v r) (hc : c.Twin ts us c') (ht : Twin ts us p q) :
    ∃ r', Gives c' q v r' ∧ Twin ts us r r' := by
  let n := r.taken + c.lookahead + ts.length + us.length
  have hts : ts.take n = ts := List.take_of_length_le (by omega)
  have hus : us.take n = us := List.take_of_length_le (by omega)
  obtain ⟨r', hg, hr⟩ := h.aligned (n := n) (by rwa [hts, hus]) (ht.aligned n) (by omega)
  exact ⟨r', hg, ht.values_eq, hr.left, hr.right, hr.taken_eq, hr.budget_eq⟩

theorem Fails.twin {e : EvalError} (h : Fails c p e r) (hc : c.Twin ts us c')
    (ht : Twin ts us p q) : ∃ e' r', Fails c' q e' r' ∧ e.Twin ts us e' := by
  let n := r.taken + e.lookahead + ts.length + us.length
  have hts : ts.take n = ts := List.take_of_length_le (by omega)
  have hus : us.take n = us := List.take_of_length_le (by omega)
  obtain ⟨e', r', hf, he⟩ := h.aligned (n := n) (by rwa [hts, hus]) (ht.aligned n) (by omega)
  rw [hts, hus] at he
  exact ⟨e', r', hf, he⟩

end

end Parser
end Calculator
