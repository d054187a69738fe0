import Mathlib.Order.Bounds.Basic
import Calculator.Evaluate
import Calculator.Proofs.Parser.Budget
import Calculator.Proofs.Parser.Failures

/-!
# What the recursion limit does

The limit stops an evaluation at the first parenthesis that opens with as many others open as the
limit allows, unless the evaluation fails before it gets there, and has no other effect
(`Lexer.limitLaw`).
-/

namespace Calculator

/-! ### The law -/

/-- The token with the index `i` is a parenthesis that opens in a sentence, where an operand can
stand, and `depth` others are open before it. -/
structure OpensAtDepth (tokens : List Token) (depth i : Nat) : Prop where
  opening : tokens[i]?.map (·.value) = some (.other openParen)
  operand (n : UInt32) : Viable ((tokens.take i).map (·.value) ++ [.uint n])
  viable : Viable ((tokens.take (i + 1)).map (·.value))
  depth_eq : ((tokens.take i).map (·.value)).count (.other openParen) =
    ((tokens.take i).map (·.value)).count (.other closeParen) + depth

/-- A result other than that the recursion limit was reached. -/
def WithinLimit {α : Type} (result : Except EvalError α) : Prop :=
  ∀ span, result ≠ .error (.recursionLimit span)

/-- An evaluation ends with an error before the token with the index `i` is consumed. -/
def FailsBefore {α : Type} (result : Except EvalError α) (taken i : Nat) : Prop :=
  (∃ e, result = .error e) ∧ taken ≤ i

/-- How the result with a limit, and the number of tokens consumed for it, depend on the limit.
The ample limit is one that is never reached. -/
structure LimitLaw {α : Type} (tokens : List Token) (result : Nat → Except EvalError α)
    (taken : Nat → Nat) (ample limit : Nat) : Prop where
  withinLimit : WithinLimit (result ample)
  /-- The limit stops an evaluation that gets to the first parenthesis that opens too deep. -/
  cut {i : Nat} {t : Token} (hi : IsLeast {j | OpensAtDepth tokens limit j} i)
    (ht : tokens[i]? = some t) (hr : ¬ FailsBefore (result ample) (taken ample) i) :
    result limit = .error (.recursionLimit t.span)
  /-- It has no effect on an evaluation that does not. -/
  same (hr : ∀ i, IsLeast {j | OpensAtDepth tokens limit j} i →
    FailsBefore (result ample) (taken ample) i) : result limit = result ample
  stable (hl : WithinLimit (result limit)) {m : Nat} (hm : limit ≤ m) : result m = result limit
  /-- Parentheses side by side do not add up. -/
  siblings {l : Level} {first : Expr l} {links : List (Expr.Link l)} {v : Token.Value}
    {rest : List Token.Value} (hf : first.depth ≤ limit)
    (hk : ∀ k ∈ links, k.operand.depth ≤ limit)
    (ht : tokens.map (·.value) = (first.chain links).values ++ v :: rest)
    (hv : ∀ op : BinOp, v ≠ .other op.byte) : WithinLimit (result limit)

/-! ### Parentheses that open at some depth -/

theorem Progress.Step.of_openParen {bound : Nat} {s s' : Progress}
    (h : Step bound s (.other openParen) s') : s.AtOperand ∧ s.depth < bound := by
  cases h with
  | opening h _ hd => exact ⟨h, hd⟩
  | sign hb => exact absurd hb UnOp.openParen_ne_negate_byte
  | operator hb => exact absurd hb.symm (BinOp.byte_ne_openParen _)
  | closing hb => exact absurd hb openParen_ne_closeParen

private theorem take_succ_values {tokens : List Token} {i : Nat} {v : Token.Value}
    (h : tokens[i]?.map (·.value) = some v) :
    (tokens.take (i + 1)).map (·.value) = (tokens.take i).map (·.value) ++ [v] := by
  obtain ⟨t, ht, rfl⟩ := Option.map_eq_some_iff.mp h
  rw [List.take_add_one, ht, Option.toList_some, List.map_append, List.map_singleton]

theorem opensAtDepth_iff {tokens : List Token} {depth i : Nat} :
    OpensAtDepth tokens depth i ↔
      tokens[i]?.map (·.value) = some (.other openParen) ∧
        ∃ bound s, Progress.Run bound {} ((tokens.take i).map (·.value)) s ∧
          s.AtOperand ∧ s.depth = depth := by
  constructor
  · intro h
    obtain ⟨bound, s', hr⟩ := viable_iff.mp h.viable
    rw [take_succ_values h.opening] at hr
    obtain ⟨s, hs, -⟩ := hr.of_append
    have hc := hs.count_start
    have hd := h.depth_eq
    exact ⟨h.opening, bound, s, hs, (hr.of_concat hs).of_openParen.1, by omega⟩
  · rintro ⟨ho, bound, s, hr, hs, rfl⟩
    refine ⟨ho, fun n => ?_, ?_, hr.count_start⟩
    · exact viable_iff.mpr ⟨bound, _, hr.concat (.literal hs n)⟩
    · rw [take_succ_values ho, viable_iff]
      exact ⟨max bound (s.depth + 1), _, (hr.mono (Nat.le_max_left _ _)).concat
        (.opening hs rfl (Nat.lt_of_succ_le (Nat.le_max_right _ _)))⟩

/-- No parenthesis opens at a depth among tokens that are read with no more than that open. -/
theorem OpensAtDepth.length_le {ts rest : List Token} {depth i : Nat} {s : Progress}
    (h : OpensAtDepth (ts ++ rest) depth i)
    (hr : Progress.Run depth {} (ts.map (·.value)) s) : ts.length ≤ i := by
  refine Nat.le_of_not_lt fun hi => ?_
  obtain ⟨ho, bound, t, ht, -, hd⟩ := opensAtDepth_iff.mp h
  have hv := take_succ_values ho
  rw [List.take_append_of_le_length hi] at hv
  rw [List.take_append_of_le_length (Nat.le_of_lt hi)] at hv ht
  have hp : (ts.take (i + 1)).map (·.value) <+: ts.map (·.value) :=
    (List.take_prefix _ _).map _
  obtain ⟨t', hr'⟩ := hr.of_isPrefix hp
  rw [hv] at hr'
  have hlt := (hr'.of_concat ht).of_openParen.2
  omega

/-- Nor does one open behind them if they are complete and no operator comes next. -/
theorem not_opensAtDepth {ts rest : List Token} {t : Token} {depth : Nat}
    (hr : Progress.Run depth {} (ts.map (·.value)) ⟨.operator, 0⟩)
    (ht : ∀ op : BinOp, t.value ≠ .other op.byte) (i : Nat) :
    ¬ OpensAtDepth (ts ++ t :: rest) depth i := by
  intro h
  have hi := h.length_le hr
  obtain ⟨-, bound, s, hs, ha, -⟩ := opensAtDepth_iff.mp h
  rw [List.take_append, List.take_of_length_le hi, List.map_append] at hs
  obtain ⟨s', hs', hs⟩ := hs.of_append
  cases hs'.unique hr
  generalize i - ts.length = k at hs
  cases k with
  | zero =>
    cases hs
    simp [Progress.AtOperand] at ha
  | succ k =>
    rw [List.take_succ_cons, List.map_cons] at hs
    generalize t.value = v at ht hs
    cases hs with
    | cons hv hs =>
      cases hv with
      | operator hb => exact ht _ (congrArg _ hb)
      | literal h | opening h => simp [Progress.AtOperand] at h
      | eof =>
        cases hs.eq_of_nothing
        simp [Progress.AtOperand] at ha

namespace Parser

/-- Where a sum has a value, no parenthesis opens deeper than the budget allows. -/
theorem Gives.not_opensAtDepth {p q : Parser} {v : Int32} (h : Gives (.phrase .sum) p v q)
    (i : Nat) : ¬ OpensAtDepth p.upcoming p.budget i := by
  obtain ⟨e, he⟩ := h.reads
  rw [he.consumes.upcoming]
  exact Calculator.not_opensAtDepth he.run_start h.settled.ne_byte i

/-! ### Entry points -/

/-- What reads a sum and concludes with something on which the budget has no influence. -/
structure EntryPoint {α : Type} (run : Parser → Outcome α) : Prop where
  of_fails {p q : Parser} {e : EvalError} (h : Fails (.phrase .sum) p e q) : run p = ⟨.error e, q⟩
  raise {p q : Parser} {v : Int32} (h : Gives (.phrase .sum) p v q) (n : Nat) :
    run (p.raise n) = ⟨(run p).result, (run p).rest.raise n⟩
  withinLimit {p q : Parser} {v : Int32} (h : Gives (.phrase .sum) p v q) :
    WithinLimit (run p).result
  taken_le {p q : Parser} {v : Int32} (h : Gives (.phrase .sum) p v q) :
    q.taken ≤ (run p).rest.taken

theorem entryPoint_whole : EntryPoint whole where
  of_fails := whole_of_fails
  raise {p q v} h n := by
    cases ht : q.token.isEof with
    | true => rw [whole_of_eof (h.raise n) ht, whole_of_eof h ht]; rfl
    | false => rw [whole_of_trailing (h.raise n) ht, whole_of_trailing h ht]; rfl
  withinLimit {p q v} h := by
    cases ht : q.token.isEof with
    | true => rw [whole_of_eof h ht]; exact nofun
    | false => rw [whole_of_trailing h ht]; exact nofun
  taken_le {p q v} h := by
    cases ht : q.token.isEof with
    | true => rw [whole_of_eof h ht]; exact Nat.le_succ _
    | false => rw [whole_of_trailing h ht]

theorem entryPoint_leading : EntryPoint leading where
  of_fails := leading_of_fails
  raise h n := by rw [leading_of_gives (h.raise n), leading_of_gives h]; rfl
  withinLimit h := by rw [leading_of_gives h]; exact nofun
  taken_le h := by rw [leading_of_gives h]

namespace EntryPoint
variable {α : Type} {run : Parser → Outcome α} {p : Parser}

/-- Unless it is used up, the budget could as well be larger. -/
theorem raise_eq (h : EntryPoint run) (hl : WithinLimit (run p).result) (n : Nat) :
    run (p.raise n) = ⟨(run p).result, (run p).rest.raise n⟩ := by
  cases ends (.phrase .sum) p with
  | gives hg => exact h.raise hg n
  | @fails e q hf =>
    rw [h.of_fails hf] at hl ⊢
    refine h.of_fails (hf.raise (fun span he => hl span ?_) n)
    rw [he]

/-- Where the budget was used up, a larger one gets further. -/
theorem taken_lt_raise (h : EntryPoint run) {span : Span}
    (hr : (run p).result = .error (.recursionLimit span)) (n : Nat) :
    (run p).rest.taken < (run (p.raise (n + 1))).rest.taken := by
  cases ends (.phrase .sum) p with
  | gives hg => exact absurd hr (h.withinLimit hg span)
  | @fails e q hf =>
    rw [h.of_fails hf] at hr ⊢
    cases hr
    have ht := hf.taken_lt_raise n
    cases ends (.phrase .sum) (p.raise (n + 1)) with
    | gives hg =>
      rw [hg.outcome] at ht
      exact Nat.lt_of_lt_of_le ht (h.taken_le hg)
    | fails hf' =>
      rw [hf'.outcome] at ht
      rwa [h.of_fails hf']

/-- The budget is used up at the first parenthesis that opens too deep. -/
theorem exists_isLeast (h : EntryPoint run) {span : Span}
    (hr : (run p).result = .error (.recursionLimit span)) :
    ∃ i t, IsLeast {j | OpensAtDepth p.upcoming p.budget j} i ∧ p.upcoming[i]? = some t ∧
      t.span = span ∧ (run p).rest.taken = p.taken + i := by
  cases ends (.phrase .sum) p with
  | gives hg => exact absurd hr (h.withinLimit hg span)
  | @fails e q hf =>
    rw [h.of_fails hf] at hr ⊢
    cases hr
    obtain ⟨ts, s, hc, hrun, rfl, ho, hs, hd⟩ := hf.stops_start
    have hi := hc.getElem?_upcoming
    refine ⟨ts.length, q.token, ⟨?_, fun j hj => ?_⟩, hi, rfl, hc.taken⟩
    · refine opensAtDepth_iff.mpr ⟨?_, p.budget, s, ?_, hs, hd⟩
      · rw [hi, Option.map_some, ho]
      · rwa [hc.take_upcoming]
    · have hj : OpensAtDepth p.upcoming p.budget j := hj
      rw [hc.upcoming] at hj
      exact hj.length_le hrun

/-- What fails does so before a parenthesis is consumed that opens too deep. -/
theorem failsBefore (h : EntryPoint run) {i : Nat} (hi : OpensAtDepth p.upcoming p.budget i) :
    FailsBefore (run p).result (run p).rest.taken (p.taken + i) := by
  cases ends (.phrase .sum) p with
  | gives hg => exact absurd hi (hg.not_opensAtDepth i)
  | @fails e q hf =>
    obtain ⟨ts, s, hc, hrun, -⟩ := hf.stops_start
    rw [h.of_fails hf]
    rw [hc.upcoming] at hi
    refine ⟨⟨e, rfl⟩, ?_⟩
    rw [hc.taken]
    exact Nat.add_le_add_left (hi.length_le hrun) _

/-- A budget is not used up where no more tokens are left than it allows parentheses. -/
theorem withinLimit_of_remaining_le (h : EntryPoint run) (hb : p.remaining ≤ p.budget) :
    WithinLimit (run p).result := by
  intro span hr
  cases ends (.phrase .sum) p with
  | gives hg => exact h.withinLimit hg span hr
  | @fails e q hf =>
    rw [h.of_fails hf] at hr
    cases hr
    obtain ⟨ts, s, hc, hrun, -, ho, -, hd⟩ := hf.stops_start
    have hle := hc.remaining_le
    have hlt := advance_remaining_lt (isEof_of_other ho)
    have hcount := hrun.count_start
    have hlen := (ts.map (·.value)).count_le_length (a := .other openParen)
    rw [List.length_map] at hlen
    omega

end EntryPoint

end Parser

theorem withinLimit_or {α : Type} (result : Except EvalError α) :
    WithinLimit result ∨ ∃ span, result = .error (.recursionLimit span) := by
  by_cases h : ∃ span, result = .error (.recursionLimit span)
  · exact .inr h
  · exact .inl (not_exists.mp h)

namespace Parser.EntryPoint
variable {α : Type} {run : Parser → Outcome α} {l : Lexer} {limit m : Nat}

/-- What does not reach its limit goes the same way with a larger one. -/
private theorem agree_of_le (h : EntryPoint run) (hl : WithinLimit (run (ofLexer l limit)).result)
    (hm : limit ≤ m) :
    (run (ofLexer l m)).result = (run (ofLexer l limit)).result ∧
      (run (ofLexer l m)).rest.taken = (run (ofLexer l limit)).rest.taken := by
  obtain ⟨n, rfl⟩ := Nat.exists_eq_add_of_le hm
  have hr : run (ofLexer l (limit + n)) = _ := h.raise_eq hl n
  rw [hr]
  exact ⟨rfl, rfl⟩

private theorem agree (h : EntryPoint run) (hl : WithinLimit (run (ofLexer l limit)).result)
    (hm : WithinLimit (run (ofLexer l m)).result) :
    (run (ofLexer l m)).result = (run (ofLexer l limit)).result ∧
      (run (ofLexer l m)).rest.taken = (run (ofLexer l limit)).rest.taken := by
  rcases Nat.le_total limit m with hle | hle
  · exact h.agree_of_le hl hle
  · obtain ⟨hr, ht⟩ := h.agree_of_le hm hle
    exact ⟨hr.symm, ht.symm⟩

private theorem exists_isLeast_ahead (h : EntryPoint run) {span : Span}
    (hr : (run (ofLexer l limit)).result = .error (.recursionLimit span)) :
    ∃ i t, IsLeast {j | OpensAtDepth l.ahead limit j} i ∧ l.ahead[i]? = some t ∧ t.span = span ∧
      (run (ofLexer l limit)).rest.taken = i := by
  obtain ⟨i, t, hi, ht, hs, hc⟩ := h.exists_isLeast hr
  rw [upcoming_ofLexer] at hi ht
  exact ⟨i, t, hi, ht, hs, hc.trans (Nat.zero_add _)⟩

private theorem failsBefore_ahead (h : EntryPoint run) {i : Nat}
    (hi : OpensAtDepth l.ahead limit i) :
    FailsBefore (run (ofLexer l limit)).result (run (ofLexer l limit)).rest.taken i := by
  rw [← upcoming_ofLexer l limit] at hi
  obtain ⟨he, ht⟩ := h.failsBefore (p := ofLexer l limit) hi
  exact ⟨he, Nat.le_trans ht (Nat.le_of_eq (Nat.zero_add i))⟩

section
variable {ample : Nat} (hw : WithinLimit (run (ofLexer l ample)).result)
include hw

private theorem cut (h : EntryPoint run) {i : Nat} {t : Token}
    (hi : IsLeast {j | OpensAtDepth l.ahead limit j} i) (ht : l.ahead[i]? = some t)
    (hr : ¬ FailsBefore (run (ofLexer l ample)).result (run (ofLexer l ample)).rest.taken i) :
    (run (ofLexer l limit)).result = .error (.recursionLimit t.span) := by
  rcases withinLimit_or (run (ofLexer l limit)).result with hl | ⟨span, hl⟩
  · obtain ⟨hres, htaken⟩ := h.agree hl hw
    rw [hres, htaken] at hr
    exact absurd (h.failsBefore_ahead hi.1) hr
  · obtain ⟨j, t', hj, ht', hs, -⟩ := h.exists_isLeast_ahead hl
    cases hi.unique hj
    cases ht.symm.trans ht'
    rw [hs]
    exact hl

private theorem same (h : EntryPoint run)
    (hr : ∀ i, IsLeast {j | OpensAtDepth l.ahead limit j} i →
      FailsBefore (run (ofLexer l ample)).result (run (ofLexer l ample)).rest.taken i) :
    (run (ofLexer l limit)).result = (run (ofLexer l ample)).result := by
  rcases withinLimit_or (run (ofLexer l limit)).result with hl | ⟨span, hl⟩
  · exact (h.agree hw hl).1
  · obtain ⟨i, -, hi, -, -, htaken⟩ := h.exists_isLeast_ahead hl
    -- A run that reached its limit stops where one with a larger limit goes on.
    have hlt : limit < ample := by
      refine Nat.lt_of_not_le fun hle => ?_
      exact hw span ((h.agree_of_le hw hle).1.symm.trans hl)
    obtain ⟨n, rfl⟩ := Nat.exists_eq_add_of_lt hlt
    have hgt := h.taken_lt_raise hl n
    rw [htaken] at hgt
    exact absurd (hr i hi).2 (Nat.not_le_of_lt hgt)

end

private theorem siblings (h : EntryPoint run) {lvl : Level} {first : Expr lvl}
    {links : List (Expr.Link lvl)} {v : Token.Value} {rest : List Token.Value}
    (hf : first.depth ≤ limit) (hk : ∀ k ∈ links, k.operand.depth ≤ limit)
    (ht : l.ahead.map (·.value) = (first.chain links).values ++ v :: rest)
    (hv : ∀ op : BinOp, v ≠ .other op.byte) : WithinLimit (run (ofLexer l limit)).result := by
  intro span hr
  obtain ⟨i, -, hi, -⟩ := h.exists_isLeast_ahead hr
  obtain ⟨ts, us, hts, hvs, hus⟩ := List.map_eq_append_iff.mp ht
  obtain ⟨t, us, rfl, rfl, -⟩ := List.map_eq_cons_iff.mp hus
  have hd : 0 + (first.chain links).depth ≤ limit := by
    rw [Nat.zero_add]
    exact Expr.depth_chain_le hf hk
  have hrun : Progress.Run limit {} (ts.map (·.value)) ⟨.operator, 0⟩ := by
    rw [hvs]
    exact Progress.run_values _ (.inl rfl) hd
  rw [hts] at hi
  exact not_opensAtDepth hrun hv i hi.1

theorem law (h : EntryPoint run) (l : Lexer) {ample : Nat}
    (ha : l.cursor.rest.length ≤ ample) (limit : Nat) :
    LimitLaw l.ahead (fun m => (run (ofLexer l m)).result)
      (fun m => (run (ofLexer l m)).rest.taken) ample limit := by
  have hw : WithinLimit (run (ofLexer l ample)).result :=
    h.withinLimit_of_remaining_le (Nat.le_trans (ofLexer_remaining_le l ample) ha)
  exact {
    withinLimit := hw
    cut := h.cut hw
    same := h.same hw
    stable := fun hl _ hm => (h.agree_of_le hl hm).1
    siblings := h.siblings }

end Parser.EntryPoint

namespace Lexer

/-- With a limit, an evaluation stops at the first parenthesis that opens with as many others open
as the limit allows, if with an ample limit it gets there; if not, the limit has no effect. -/
theorem limitLaw (bytes : Bytes) (source : Option SourceId) (ample limit : Nat)
    (h : bytes.length ≤ ample) :
    LimitLaw (ofBytes bytes source).tokens ((ofBytes bytes source).evaluate ·)
        (fun m => (Parser.ofLexer (ofBytes bytes source) m).whole.rest.taken) ample limit ∧
      LimitLaw (ofBytes bytes source).tokens ((ofBytes bytes source).evaluateLeading ·)
        (fun m => (Parser.ofLexer (ofBytes bytes source) m).leading.rest.taken) ample limit :=
  ⟨Parser.entryPoint_whole.law (ofBytes bytes source) h limit,
    Parser.entryPoint_leading.law (ofBytes bytes source) h limit⟩

/-- In `((1))`, the limit 1 stops the evaluation at the second parenthesis. -/
theorem evaluate_second_parenthesis :
    (ofBytes [0x28, 0x28, 0x31, 0x29, 0x29]).evaluate 1 =
      .error (.recursionLimit ⟨⟨none, 1, 1, 2⟩, ⟨none, 2, 1, 3⟩⟩) := by
  have law := (limitLaw [0x28, 0x28, 0x31, 0x29, 0x29] none 5 1 (by decide)).1
  refine law.cut (i := 1) (t := .ofByte openParen ⟨⟨none, 1, 1, 2⟩, ⟨none, 2, 1, 3⟩⟩) ⟨?_, ?_⟩
    (by decide +kernel) ?_
  · refine opensAtDepth_iff.mpr ⟨by decide +kernel, 1, ⟨.operand, 1⟩, ?_, .inl rfl, rfl⟩
    have ht : ((ofBytes [0x28, 0x28, 0x31, 0x29, 0x29]).tokens.take 1).map (·.value) =
        [.other openParen] := by decide +kernel
    rw [ht]
    exact .cons (.opening (.inl rfl) rfl Nat.zero_lt_one) .nil
  · intro j hj
    refine Nat.one_le_iff_ne_zero.mpr ?_
    rintro rfl
    exact absurd hj.depth_eq nofun
  · have hr : (ofBytes [0x28, 0x28, 0x31, 0x29, 0x29]).evaluate 5 = .ok 1 := by decide +kernel
    rintro ⟨⟨e, he⟩, -⟩
    cases hr.symm.trans he

end Lexer
end Calculator
