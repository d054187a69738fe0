import Mathlib.Control.Monad.Basic
import Calculator.Evaluate
import Calculator.Proofs.Lexer.Calls
import Calculator.Proofs.Lexer.Partition
import Calculator.Proofs.Parser.Failures

/-!
# One pass over the tokens

Evaluation ends for every input and every limit, and goes over the tokens once: each of them is
consumed at most once, every routine that gives a value has consumed one, and the lexer is asked
for no more than one token behind the last (`Lexer.evaluate_onePass`).
-/

namespace Calculator

theorem Outcome.bind_eq_ok {α β : Type} {o : Outcome α} {next : α → Parser → Outcome β} {b : β}
    {q : Parser} (h : o.bind next = ⟨.ok b, q⟩) :
    ∃ a p, o = ⟨.ok a, p⟩ ∧ next a p = ⟨.ok b, q⟩ := by
  rcases o with ⟨e | a, p⟩
  · cases h
  · exact ⟨a, p, rfl, h⟩

namespace Parser
variable {p q r : Parser} {ts : List Token} {t : Token} {v : Int32} {e : EvalError}

theorem expect_eq_ok {m : Matcher} (h : p.expect m = ⟨.ok t, q⟩) :
    m.accepts p.token = true ∧ q = p.advance := by
  unfold expect at h
  split at h
  · next ha =>
    cases h
    exact ⟨ha, rfl⟩
  · cases h

/-! ### Tokens are used up -/

/-- A routine has consumed a token, or more of them. -/
def Progresses (p q : Parser) : Prop := ∃ t ts, Consumes p (t :: ts) q

theorem Gives.progresses {l : Level} (h : Gives (.phrase l) p v q) : Progresses p q := by
  obtain ⟨e, he⟩ := h.reads
  obtain ⟨t, ht, -⟩ := e.head?_tokens
  obtain ⟨ts, hts⟩ := List.head?_eq_some_iff.mp ht
  have hc := he.consumes
  rw [hts] at hc
  exact ⟨t, ts, hc⟩

theorem phrase_progresses {l : Level} (h : p.phrase l = ⟨.ok v, q⟩) : Progresses p q :=
  (phrase_eq_ok_iff.mp h).progresses

theorem paren_progresses (h : p.paren = ⟨.ok v, q⟩) : Progresses p q := by
  obtain ⟨_, p₁, hopen, h⟩ := Outcome.bind_eq_ok h
  obtain ⟨ho, rfl⟩ := expect_eq_ok hopen
  obtain ⟨w, r, hbody, h⟩ := Outcome.bind_eq_ok h
  obtain ⟨_, r₁, hclose, h⟩ := Outcome.bind_eq_ok h
  obtain ⟨hc, rfl⟩ := expect_eq_ok hclose
  cases h
  obtain ⟨t, ts, hts⟩ := phrase_progresses hbody
  have hp := isEof_of_other (Matcher.accepts_byte.mp ho)
  have hr := isEof_of_other (Matcher.accepts_byte.mp hc)
  exact ⟨p.token, (t :: ts) ++ [r.token], .step hp (hts.trans (.advance hr))⟩

theorem Fails.exists_consumes (h : Fails (.phrase .sum) p e q) : ∃ ts, Consumes p ts q := by
  obtain ⟨ts, -, hc, -⟩ := h.stops_start
  exact ⟨ts, hc⟩

namespace Consumes

theorem isEof_eq_false (h : Consumes p ts q) : ∀ t ∈ ts, t.isEof = false := by
  induction h with
  | refl => exact fun _ ht => absurd ht List.not_mem_nil
  | step ht _ ih => exact List.forall_mem_cons.mpr ⟨ht, ih⟩

theorem length_lt (h : Consumes p ts q) : ts.length < p.upcoming.length := by
  have hpos : 0 < q.upcoming.length := List.length_pos_of_ne_nil (List.cons_ne_nil _ _)
  rw [h.upcoming, List.length_append]
  omega

/-- At the end, all tokens but the last one were consumed. -/
theorem length_of_isEof (h : Consumes p ts q) (he : q.token.isEof = true) :
    ts.length + 1 = p.upcoming.length := by
  rw [h.upcoming, upcoming_of_eof he, List.length_append, List.length_singleton]

end Consumes

/-- The tokens that a run consumes are different ones. -/
theorem Consumes.nodup {bytes : Bytes} {source : Option SourceId} {limit : Nat}
    (h : Consumes (ofLexer (.ofBytes bytes source) limit) ts q) : ts.Nodup := by
  have hp := Lexer.tokens_partition bytes source
  rw [Lexer.tokens_ofBytes, ← upcoming_ofLexer, h.upcoming] at hp
  have hord := (List.pairwise_append.mp hp.ordered).1
  refine hord.imp_of_mem fun {s t} hs _ hst => ?_
  have hlt := (hp.written (List.mem_append_left _ hs) (h.isEof_eq_false s hs)).1
  rintro rfl
  omega

/-! ### The lexer -/

/-- How many tokens the lexer was asked for: the consumed ones and the next one. -/
def scans (p : Parser) : Nat := p.taken + 1

/-- The lexer of a parse is where that many calls take it. -/
def Asked (l : Lexer) (p : Parser) : Prop := p.lexer = l.after (List.replicate p.scans .advance)

namespace Asked
variable {l : Lexer}

theorem ofLexer (l : Lexer) (limit : Nat) : Asked l (.ofLexer l limit) := rfl

theorem advance (h : Asked l p) : Asked l p.advance := by
  have hn : p.advance.scans = p.scans + 1 := rfl
  rw [Asked, hn, List.replicate_succ', Lexer.after_append, ← h]
  rfl

theorem consumes (h : Asked l p) (hc : Consumes p ts q) : Asked l q := by
  induction hc with
  | refl => exact h
  | step _ _ ih => exact ih h.advance

end Asked

/-! ### Runs -/

/-- What a parse over all tokens of a lexer has done when it is at `q`. -/
structure OnePass (l : Lexer) (limit : Nat) (q : Parser) : Prop where
  /-- The tokens were consumed one after the other, none of them twice, and the end at last if it
  was consumed too. -/
  consumes : ∃ ts r, Consumes (ofLexer l limit) ts r ∧ ts.Nodup ∧
    (q = r ∨ r.token.isEof = true ∧ q = r.advance)
  asked : Asked l q
  scans_le : q.scans ≤ l.ahead.length + 1

namespace OnePass
variable {bytes : Bytes} {source : Option SourceId} {limit : Nat}

theorem of_consumes (h : Consumes (ofLexer (.ofBytes bytes source) limit) ts q) :
    OnePass (.ofBytes bytes source) limit q where
  consumes := ⟨ts, q, h, h.nodup, .inl rfl⟩
  asked := (Asked.ofLexer _ limit).consumes h
  scans_le := by
    have hlt := h.length_lt
    have ht : q.taken = ts.length := h.taken.trans (Nat.zero_add _)
    rw [upcoming_ofLexer] at hlt
    rw [scans, ht]
    omega

/-- The end is consumed when all other tokens are. -/
theorem of_consumes_eof (h : Consumes (ofLexer (.ofBytes bytes source) limit) ts q)
    (he : q.token.isEof = true) : OnePass (.ofBytes bytes source) limit q.advance where
  consumes := ⟨ts, q, h, h.nodup, .inr ⟨he, rfl⟩⟩
  asked := ((Asked.ofLexer _ limit).consumes h).advance
  scans_le := by
    have hlen := h.length_of_isEof he
    have ht : q.advance.taken = ts.length + 1 := congrArg (· + 1) (h.taken.trans (Nat.zero_add _))
    rw [upcoming_ofLexer] at hlen
    rw [scans, ht, hlen]

end OnePass

theorem Gives.exists_consumes {l : Level} (h : Gives (.phrase l) p v q) :
    ∃ ts, Consumes p ts q := by
  obtain ⟨t, ts, hc⟩ := h.progresses
  exact ⟨t :: ts, hc⟩

theorem onePass_whole (bytes : Bytes) (source : Option SourceId) (limit : Nat) :
    OnePass (.ofBytes bytes source) limit (ofLexer (.ofBytes bytes source) limit).whole.rest := by
  have hw := (ofLexer (.ofBytes bytes source) limit).whole_cases
  generalize (ofLexer (.ofBytes bytes source) limit).whole = o at hw
  cases hw with
  | ok hg ht =>
    obtain ⟨ts, hc⟩ := hg.exists_consumes
    exact .of_consumes_eof hc ht
  | trailing hg =>
    obtain ⟨ts, hc⟩ := hg.exists_consumes
    exact .of_consumes hc
  | fails hf =>
    obtain ⟨ts, hc⟩ := hf.exists_consumes
    exact .of_consumes hc

theorem onePass_leading (bytes : Bytes) (source : Option SourceId) (limit : Nat) :
    OnePass (.ofBytes bytes source) limit
      (ofLexer (.ofBytes bytes source) limit).leading.rest := by
  have hl := (ofLexer (.ofBytes bytes source) limit).leading_cases
  generalize (ofLexer (.ofBytes bytes source) limit).leading = o at hl
  cases hl with
  | ok hg =>
    obtain ⟨ts, hc⟩ := hg.exists_consumes
    exact .of_consumes hc
  | fails hf =>
    obtain ⟨ts, hc⟩ := hf.exists_consumes
    exact .of_consumes hc

end Parser

/-- Every call ends, whatever the limit. Evaluation of an input goes over its tokens once and asks
the lexer for no more than one of them too many, and each routine that gives a value has consumed
one. -/
theorem Lexer.evaluate_onePass (bytes : Bytes) (source : Option SourceId) (limit : Nat) :
    (∀ c p, Parser.Ends c p) ∧
      Parser.OnePass (ofBytes bytes source) limit
        (Parser.ofLexer (ofBytes bytes source) limit).whole.rest ∧
      Parser.OnePass (ofBytes bytes source) limit
        (Parser.ofLexer (ofBytes bytes source) limit).leading.rest ∧
      ∀ (p q : Parser) (v : Int32),
        (∀ l, p.phrase l = ⟨.ok v, q⟩ → p.Progresses q) ∧
          (p.paren = ⟨.ok v, q⟩ → p.Progresses q) :=
  ⟨Parser.ends, Parser.onePass_whole bytes source limit, Parser.onePass_leading bytes source limit,
    fun _ _ _ => ⟨fun _ => Parser.phrase_progresses, Parser.paren_progresses⟩⟩

/-- In `(1)`, of which the end is the fourth token, evaluation asks for a fifth one. -/
theorem Lexer.evaluate_onePass_parenthesis :
    let p := Parser.ofLexer (ofBytes [0x28, 0x31, 0x29]) 1
    p.whole.rest.scans = 5 ∧ p.whole.rest.scans ≤ (ofBytes [0x28, 0x31, 0x29]).ahead.length + 1 ∧
      (∃ q, p.phrase .sum = ⟨.ok 1, q⟩ ∧ p.Progresses q) ∧
      ∃ q, p.paren = ⟨.ok 1, q⟩ ∧ p.Progresses q := by
  intro p
  obtain ⟨-, hw, -, hp⟩ := evaluate_onePass [0x28, 0x31, 0x29] none 1
  have hsum : (p.phrase .sum).result = .ok 1 := by decide +kernel
  have hparen : p.paren.result = .ok 1 := by decide +kernel
  have hs : p.phrase .sum = ⟨.ok 1, (p.phrase .sum).rest⟩ := by rw [← hsum]
  have hr : p.paren = ⟨.ok 1, p.paren.rest⟩ := by rw [← hparen]
  exact ⟨by decide +kernel, hw.scans_le, ⟨_, hs, (hp p _ 1).1 .sum hs⟩, _, hr, (hp p _ 1).2 hr⟩

end Calculator
