import Calculator.Proofs.Parser.Phrases
import Calculator.Proofs.Parser.Twins

/-!
# Sums in place of others

Where sums in parentheses are replaced by others that denote the same (`Replaced`), parses that do
not run out of budget go the same way: they give the same value (`Parser.Gives.replaced`) or fail
with errors that tell the same apart from places (`Parser.Fails.replaced`).
-/

namespace Calculator

/-- Token values that are the same, apart from sums in parentheses that denote the same. -/
inductive Replaced : List Token.Value → List Token.Value → Prop
  | nil : Replaced [] []
  | cons (v : Token.Value) {us ws : List Token.Value} : Replaced us ws → Replaced (v :: us) (v :: ws)
  | paren {x y : Expr .sum} {a : Int32} {us ws : List Token.Value} (hx : x.denote = some a)
    (hy : y.denote = some a) : Replaced us ws →
    Replaced (.other openParen :: (x.values ++ .other closeParen :: us))
      (.other openParen :: (y.values ++ .other closeParen :: ws))

namespace Replaced

theorem refl : (us : List Token.Value) → Replaced us us
  | [] => .nil
  | v :: us => .cons v (refl us)

theorem append {us ws : List Token.Value} (h : Replaced us ws) :
    (ts : List Token.Value) → Replaced (ts ++ us) (ts ++ ws)
  | [] => h
  | v :: ts => .cons v (h.append ts)

end Replaced

theorem Expr.depth_le_length {l : Level} (e : Expr l) : e.depth ≤ e.values.length := by
  induction e with
  | literal => exact Nat.zero_le _
  | paren _ _ _ ih =>
    simp only [depth, values_paren, List.length_cons, List.length_append]
    omega
  | unsigned _ ih | factor _ ih | term _ ih => exact ih
  | negated _ _ ih => exact Nat.le_succ_of_le ih
  | product _ _ _ _ _ ihl ihr | sum _ _ _ _ _ ihl ihr =>
    simp only [depth, values_product, values_sum, List.length_append, List.length_cons]
    omega

namespace Parser

/-- The same call, wherever the chain began. -/
inductive Call.Same : Call → Call → Prop
  | phrase (l : Level) : Same (.phrase l) (.phrase l)
  | chain (l : Level) (start start' : Position) (a : Int32) :
    Same (.chain l start a) (.chain l start' a)

/-- Two parses in front of token values of which the one are the other after replacements. Neither
has as few parentheses left to enter as could make it run out of them. -/
structure Parallel (p q : Parser) : Prop where
  replaced : Replaced (p.upcoming.map (·.value)) (q.upcoming.map (·.value))
  left : p.upcoming.length ≤ p.budget
  right : q.upcoming.length ≤ q.budget

/-- A sum that comes next is read up to the token behind it, unless this is an operator. -/
theorem exists_gives_of_values {p : Parser} {x : Expr .sum} {a : Int32} {w : Token.Value}
    {ws : List Token.Value} (hu : p.upcoming.map (·.value) = x.values ++ w :: ws)
    (hx : x.denote = some a) (hd : x.depth ≤ p.budget) (hw : ∀ op : BinOp, w ≠ .other op.byte) :
    ∃ q, Gives (.phrase .sum) p a q ∧ q.upcoming.map (·.value) = w :: ws ∧
      q.budget = p.budget := by
  obtain ⟨ts, us, hts, hv, h⟩ := List.map_eq_append_iff.mp hu
  obtain ⟨t, rest, rfl, rfl, rfl⟩ := List.map_eq_cons_iff.mp h
  generalize hy : x.placed ((ts ++ t :: rest).map (·.span)) = y
  have hu' : p.upcoming = y.tokens ++ t :: rest := by rw [← hy, x.tokens_placed hv, hts]
  have he : y.evaluate = .ok a := by rwa [y.evaluate_eq_ok_iff, ← hy, x.denote_placed]
  have hr := reaches y hu' (by rwa [← hy, x.depth_placed]) (detached_cons fun op _ => hw op)
  obtain ⟨q, hq, hg⟩ := hr.exists_reads hu' hw he
  exact ⟨q, hg, by rw [hq.consumes.upcoming_eq hu', List.map_cons], hq.consumes.budget⟩

theorem value_of_values {p : Parser} {v : Token.Value} {vs : List Token.Value}
    (h : p.upcoming.map (·.value) = v :: vs) : p.token.value = v := (List.cons.inj h).1

theorem values_advance {p : Parser} {v : Token.Value} {vs : List Token.Value}
    (h : p.upcoming.map (·.value) = v :: vs) (ht : p.token.isEof = false) :
    p.advance.upcoming.map (·.value) = vs := by
  rw [upcoming_eq_cons ht] at h
  exact (List.cons.inj h).2

/-- A sum in parentheses that comes next is read, if the budget is as large as what is left. -/
theorem exists_gives_paren {p : Parser} {x : Expr .sum} {a : Int32} {ws : List Token.Value}
    (hu : p.upcoming.map (·.value) = .other openParen :: (x.values ++ .other closeParen :: ws))
    (hx : x.denote = some a) (hb : p.upcoming.length ≤ p.budget) :
    ∃ q, Gives (.phrase .primary) p a q ∧ q.upcoming.map (·.value) = ws ∧
      q.upcoming.length ≤ q.budget := by
  have ho := value_of_values hu
  have hlen := congrArg List.length hu
  simp only [List.length_map, List.length_cons, List.length_append] at hlen
  obtain ⟨budget, hn⟩ : ∃ budget, p.budget = budget + 1 := ⟨p.budget - 1, by omega⟩
  have hi : (p.inner budget).upcoming.map (·.value) = x.values ++ .other closeParen :: ws :=
    values_advance hu (isEof_of_other ho)
  have hd : x.depth ≤ (p.inner budget).budget := by
    have hle := x.depth_le_length
    have hbudget : (p.inner budget).budget = budget := rfl
    omega
  have hne (op : BinOp) : Token.Value.other closeParen ≠ .other op.byte := by simp
  obtain ⟨q, hg, hq, hqb⟩ := exists_gives_of_values hi hx hd hne
  have hc := value_of_values hq
  have hq' : q.advance.leave.upcoming.map (·.value) = ws := values_advance hq (isEof_of_other hc)
  refine ⟨_, .paren ho hn hg hc, hq', ?_⟩
  have hlen' := congrArg List.length hq'
  have hbudget : q.advance.leave.budget = budget + 1 := congrArg (· + 1) hqb
  rw [List.length_map] at hlen'
  omega

namespace Parallel
variable {p q : Parser}

theorem value_eq (h : Parallel p q) : q.token.value = p.token.value := by
  obtain ⟨h, -, -⟩ := h
  generalize hu : p.upcoming.map (·.value) = us at h
  generalize hw : q.upcoming.map (·.value) = ws at h
  cases h with
  | nil => cases hu
  | cons v => rw [value_of_values hu, value_of_values hw]
  | paren => rw [value_of_values hu, value_of_values hw]

theorem isEof_eq (h : Parallel p q) : q.token.isEof = p.token.isEof := by
  rw [Token.isEof, Token.isEof, h.value_eq]

theorem operator?_eq (h : Parallel p q) (l : Level) : q.operator? l = p.operator? l := by
  rw [operator?, operator?, h.value_eq]

private theorem length_advance {p : Parser} (ht : p.token.isEof = false) :
    p.upcoming.length = p.advance.upcoming.length + 1 := by
  rw [upcoming_eq_cons ht, List.length_cons]

theorem advance (h : Parallel p q) (ht : p.token.isEof = false)
    (ho : p.token.value ≠ .other openParen) : Parallel p.advance q.advance := by
  have ht' : q.token.isEof = false := h.isEof_eq.trans ht
  have hl : p.advance.upcoming.length ≤ p.budget := by
    have := length_advance ht
    have := h.left
    omega
  have hr : q.advance.upcoming.length ≤ q.budget := by
    have := length_advance ht'
    have := h.right
    omega
  refine ⟨?_, hl, hr⟩
  have hrep := h.replaced
  generalize hu : p.upcoming.map (·.value) = us at hrep
  generalize hw : q.upcoming.map (·.value) = ws at hrep
  cases hrep with
  | nil => cases hu
  | cons v hrep => rwa [values_advance hu ht, values_advance hw ht']
  | paren => exact absurd (value_of_values hu) ho

theorem advance_operator (h : Parallel p q) {l : Level} {op : BinOp}
    (ho : p.operator? l = some op) : Parallel p.advance q.advance := by
  have ht := (value_of_operator? ho).2
  exact h.advance (isEof_of_other ht) (by simp [ht])

theorem leave (h : Parallel p q) : Parallel p.leave q.leave :=
  ⟨h.replaced, Nat.le_succ_of_le h.left, Nat.le_succ_of_le h.right⟩

/-- What comes of an opening parenthesis: both parses go in, or both get over the whole sum. -/
inductive Opening (p q : Parser) : Prop
  | inside {b b' : Nat} (hb : p.budget = b + 1) (hb' : q.budget = b' + 1)
    (h : Parallel (p.inner b) (q.inner b')) : Opening p q
  | past {a : Int32} {r s : Parser} (hp : Gives (.phrase .primary) p a r)
    (hq : Gives (.phrase .primary) q a s) (h : Parallel r s) : Opening p q

theorem opening (h : Parallel p q) (ho : p.token.value = .other openParen) : Opening p q := by
  have hrep := h.replaced
  generalize hu : p.upcoming.map (·.value) = us at hrep
  generalize hw : q.upcoming.map (·.value) = ws at hrep
  cases hrep with
  | nil => cases hu
  | cons v hrep =>
    have ht := isEof_of_other ho
    have ht' := h.isEof_eq.trans ht
    have hl := length_advance ht
    have hr := length_advance ht'
    have hlb := h.left
    have hrb := h.right
    obtain ⟨b, hb⟩ : ∃ b, p.budget = b + 1 := ⟨p.budget - 1, by omega⟩
    obtain ⟨b', hb'⟩ : ∃ b', q.budget = b' + 1 := ⟨q.budget - 1, by omega⟩
    refine .inside hb hb' ⟨?_, ?_, ?_⟩
    · have hp : (p.inner b).upcoming.map (·.value) = _ := values_advance hu ht
      have hq : (q.inner b').upcoming.map (·.value) = _ := values_advance hw ht'
      rwa [hp, hq]
    · change p.advance.upcoming.length ≤ b
      omega
    · change q.advance.upcoming.length ≤ b'
      omega
  | paren hx hy hrep =>
    obtain ⟨r, hgr, hr, hrb⟩ := exists_gives_paren hu hx h.left
    obtain ⟨s, hgs, hs, hsb⟩ := exists_gives_paren hw hy h.right
    exact .past hgr hgs ⟨by rwa [hr, hs], hrb, hsb⟩

end Parallel

section
variable {c c' : Call} {p q r : Parser}

theorem Gives.replaced {v : Int32} (h : Gives c p v r) (hc : c.Same c') (hp : Parallel p q) :
    ∃ s, Gives c' q v s ∧ Parallel r s := by
  induction h generalizing c' q with
  | joined hl _ _ ih ihc =>
    cases hc
    obtain ⟨q', hg, hp'⟩ := ih (.phrase _) hp
    obtain ⟨s, hc, hs⟩ := ihc (.chain _ _ _ _) hp'
    exact ⟨s, .joined hl hg hc, hs⟩
  | negated hs _ ih =>
    cases hc
    obtain ⟨s, hg, hr⟩ := ih (.phrase _) (hp.advance (isEof_of_other hs) (by simp [hs]))
    exact ⟨s, .negated (hp.value_eq.trans hs) hg, hr⟩
  | unsigned hs _ ih =>
    cases hc
    obtain ⟨s, hg, hr⟩ := ih (.phrase _) hp
    exact ⟨s, .unsigned (hp.value_eq ▸ hs) hg, hr⟩
  | literal hu =>
    cases hc
    exact ⟨_, .literal (hp.value_eq.trans hu), hp.advance (isEof_of_uint hu) (by simp [hu])⟩
  | @paren p r budget v ho hb hg hcl ih =>
    cases hc
    cases hp.opening ho with
    | inside hb₁ hb' hp' =>
      cases hb.symm.trans hb₁
      obtain ⟨s, hg', hr⟩ := ih (.phrase _) hp'
      exact ⟨_, .paren (hp.value_eq.trans ho) hb' hg' (hr.value_eq.trans hcl),
        (hr.advance (isEof_of_other hcl) (by simp [hcl])).leave⟩
    | past hgp hgq hrs =>
      cases (Gives.paren ho hb hg hcl).outcome.symm.trans hgp.outcome
      exact ⟨_, hgq, hrs⟩
  | done ho =>
    cases hc
    exact ⟨q, .done ((hp.operator?_eq _).trans ho), hp⟩
  | link ho _ hv _ ih ihc =>
    cases hc
    obtain ⟨q', hg, hp'⟩ := ih (.phrase _) (hp.advance_operator ho)
    obtain ⟨s, hc, hs⟩ := ihc (.chain _ _ _ _) hp'
    exact ⟨s, .link ((hp.operator?_eq _).trans ho) hg hv hc, hs⟩

theorem Fails.replaced {e : EvalError} (h : Fails c p e r) (hc : c.Same c') (hp : Parallel p q) :
    ∃ e' s, Fails c' q e' s ∧ e'.unplaced = e.unplaced := by
  induction h generalizing c' q with
  | operand hl _ ih =>
    cases hc
    obtain ⟨e', s, hf, he⟩ := ih (.phrase _) hp
    exact ⟨e', s, .operand hl hf, he⟩
  | joined hl hg _ ih =>
    cases hc
    obtain ⟨q', hg', hp'⟩ := hg.replaced (.phrase _) hp
    obtain ⟨e', s, hf, he⟩ := ih (.chain _ _ _ _) hp'
    exact ⟨e', s, .joined hl hg' hf, he⟩
  | negated hs _ ih =>
    cases hc
    obtain ⟨e', s, hf, he⟩ := ih (.phrase _) (hp.advance (isEof_of_other hs) (by simp [hs]))
    exact ⟨e', s, .negated (hp.value_eq.trans hs) hf, he⟩
  | unsigned hs _ ih =>
    cases hc
    obtain ⟨e', s, hf, he⟩ := ih (.phrase _) hp
    exact ⟨e', s, .unsigned (hp.value_eq ▸ hs) hf, he⟩
  | noOperand hu ho =>
    cases hc
    have hv := hp.value_eq
    exact ⟨_, q, .noOperand (hv ▸ hu) (hv ▸ ho), by rw [EvalError.unplaced, EvalError.unplaced, hv]⟩
  | tooDeep ho hb =>
    have hlt := hp.left
    rw [hb] at hlt
    exact absurd hlt (Nat.not_succ_le_zero _)
  | paren ho hb hf ih =>
    cases hc
    cases hp.opening ho with
    | inside hb₁ hb' hp' =>
      cases hb.symm.trans hb₁
      obtain ⟨e', s, hf', he⟩ := ih (.phrase _) hp'
      exact ⟨e', _, .paren (hp.value_eq.trans ho) hb' hf', he⟩
    | past hgp => cases (Fails.paren ho hb hf).outcome.symm.trans hgp.outcome
  | unclosed ho hb hg hcl =>
    cases hc
    cases hp.opening ho with
    | inside hb₁ hb' hp' =>
      cases hb.symm.trans hb₁
      obtain ⟨s, hg', hr⟩ := hg.replaced (.phrase _) hp'
      have hv := hr.value_eq
      exact ⟨_, _, .unclosed (hp.value_eq.trans ho) hb' hg' (hv ▸ hcl),
        by rw [EvalError.unplaced, EvalError.unplaced, hv]⟩
    | past hgp => cases (Fails.unclosed ho hb hg hcl).outcome.symm.trans hgp.outcome
  | linkOperand ho _ ih =>
    cases hc
    obtain ⟨e', s, hf, he⟩ := ih (.phrase _) (hp.advance_operator ho)
    exact ⟨e', s, .linkOperand ((hp.operator?_eq _).trans ho) hf, he⟩
  | zeroDivisor ho hg hv =>
    cases hc
    obtain ⟨s, hg', -⟩ := hg.replaced (.phrase _) (hp.advance_operator ho)
    exact ⟨_, s, .zeroDivisor ((hp.operator?_eq _).trans ho) hg' hv, rfl⟩
  | link ho hg hv _ ih =>
    cases hc
    obtain ⟨q', hg', hp'⟩ := hg.replaced (.phrase _) (hp.advance_operator ho)
    obtain ⟨e', s, hf, he⟩ := ih (.chain _ _ _ _) hp'
    exact ⟨e', s, .link ((hp.operator?_eq _).trans ho) hg' hv hf, he⟩

end

end Parser
end Calculator
