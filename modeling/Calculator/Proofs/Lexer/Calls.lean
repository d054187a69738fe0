import Calculator.Proofs.Lexer.Simulation

/-!
# Asking for tokens in two ways

`Lexer.advance` and `Lexer.next?` go over the same input, but only `next?` keeps count of what it
has delivered. They can be called in any order: the answers are the tokens one after the other and
then the end token, and `next?` stops behind an end token of its own (`Lexer.callsLaw_ofBytes`).
-/

namespace Calculator

namespace Lexer

/-- The ways to ask for a token. -/
inductive Call where
  | advance
  | next
deriving DecidableEq

/-- The answer to a call, which may be none, and the lexer after it. -/
def Call.run (l : Lexer) : Call → Option Token × Lexer
  | .advance => (some l.advance.1, l.advance.2)
  | .next =>
    match l.next? with
    | some (token, after) => (some token, after)
    | none => (none, l)

/-- The lexer after calls, one after the other. -/
def after (l : Lexer) (calls : List Call) : Lexer := calls.foldl (fun l c => (c.run l).2) l

/-- Calls, one after the other, with their answers. -/
def history (l : Lexer) : List Call → List (Call × Option Token)
  | [] => []
  | c :: calls => (c, (c.run l).1) :: (c.run l).2.history calls

/-- The tokens that calls are answered with. -/
def given (l : Lexer) (calls : List Call) : List Token := (l.history calls).filterMap (·.2)

variable {l : Lexer} {c : Call} {calls : List Call} {t : Token} {i : Nat}

/-! ### Single calls -/

theorem run_next_of_ended (h : l.ended = true) : Call.next.run l = (none, l) := by
  rw [Call.run, next?, if_pos h]

theorem run_next_of_not_ended (h : l.ended = false) :
    Call.next.run l =
      (some l.advance.1, { l.advance.2 with ended := l.advance.1.isEof }) := by
  rw [Call.run, next?, h]
  rfl

/-- A call that is answered reads on, and another one does nothing. -/
theorem run_cases (l : Lexer) (c : Call) :
    c.run l = (none, l) ∨ ∃ ended, c.run l = (some l.advance.1, { l.advance.2 with ended }) := by
  cases c with
  | advance => exact .inr ⟨l.ended, rfl⟩
  | next =>
    cases h : l.ended with
    | true => exact .inl (run_next_of_ended h)
    | false => exact .inr ⟨_, run_next_of_not_ended h⟩

theorem run_next_eq_none_iff : (Call.next.run l).1 = none ↔ l.ended = true := by
  cases h : l.ended with
  | true => simp [run_next_of_ended h]
  | false => simp [run_next_of_not_ended h]

/-- Only an end token in answer to `next` ends the stream. -/
theorem ended_run_iff : (c.run l).2.ended = true ↔
    l.ended = true ∨ ∃ t, (c, (c.run l).1) = (.next, some t) ∧ t.isEof = true := by
  cases c with
  | advance => simp [Call.run, advance]
  | next =>
    cases h : l.ended with
    | true => simp [run_next_of_ended h, h]
    | false => simp [run_next_of_not_ended h]

/-! ### The end of the input -/

theorem advance_of_ended (h : l.cursor.Ended) : l.advance = (⟨.eof, ⟨l.pos, l.pos⟩⟩, l) := by
  rw [advance, h.takeWhile_eq_nil rfl]
  dsimp only
  rw [scan_of_ended h]
  rfl

/-- An end token is taken in front of the end of the input. -/
theorem ended_of_isEof (h : l.advance.1.isEof = true) :
    l.advance.2.cursor.Ended ∧ l.advance.1 = ⟨.eof, ⟨l.advance.2.pos, l.advance.2.pos⟩⟩ := by
  have hs := scanned (l.cursor.head?_rest_takeWhile Ascii.isBlank)
  unfold advance at h ⊢
  dsimp only at h ⊢
  generalize scan (l.cursor.takeWhile Ascii.isBlank).2 = r at hs h ⊢
  cases hs with
  | eof hr => exact ⟨hr, rfl⟩
  | token hw => exact absurd (of_decide_eq_true h) hw.ne_eof

/-- At the end of the input no call moves the lexer. -/
theorem cursor_run_of_ended (h : l.cursor.Ended) : (c.run l).2.cursor = l.cursor := by
  rcases l.run_cases c with hr | ⟨ended, hr⟩ <;> rw [hr]
  rw [advance_of_ended h]

theorem cursor_after_of_ended (h : l.cursor.Ended) : (l.after calls).cursor = l.cursor := by
  induction calls generalizing l with
  | nil => rfl
  | cons c calls ih =>
    have hc := cursor_run_of_ended (c := c) h
    exact (ih (hc ▸ h)).trans hc

/-! ### Calls one after the other -/

/-- The `i`th of the tokens from here on, of which the last is repeated. -/
def token? (l : Lexer) (i : Nat) : Option Token := l.ahead[min i (l.ahead.length - 1)]?

theorem token?_zero (l : Lexer) : l.token? 0 = some l.advance.1 := by
  rw [token?, Nat.zero_min, l.ahead_eq]
  rfl

theorem token?_succ (l : Lexer) (i : Nat) : l.token? (i + 1) = l.advance.2.token? i := by
  cases he : l.advance.1.isEof with
  | true =>
    obtain ⟨hend, ht⟩ := ended_of_isEof he
    have ha : l.advance.2.ahead = l.ahead := by
      rw [l.advance.2.ahead_eq, l.ahead_eq, advance_of_ended hend, ← ht, he]
    have hlen : l.ahead.length = 1 := by rw [l.ahead_eq, he]; rfl
    rw [token?, token?, ha, hlen, Nat.sub_self, Nat.min_zero, Nat.min_zero]
  | false =>
    have hpos : 0 < l.advance.2.ahead.length := by
      rw [l.advance.2.ahead_eq]
      exact Nat.succ_pos _
    have hmin : min (i + 1) l.advance.2.ahead.length =
        min i (l.advance.2.ahead.length - 1) + 1 := by omega
    rw [token?, token?, l.ahead_eq, he, if_neg Bool.false_ne_true, List.length_cons,
      Nat.add_sub_cancel, hmin, List.getElem?_cons_succ]

/-- Answers are the tokens in their order. -/
theorem getElem?_given (h : i < (l.given calls).length) : (l.given calls)[i]? = l.token? i := by
  induction calls generalizing l i with
  | nil => exact absurd h (Nat.not_lt_zero i)
  | cons c calls ih =>
    rcases l.run_cases c with hr | ⟨ended, hr⟩
    · have hg : l.given (c :: calls) = l.given calls := by simp only [given, history, hr]; rfl
      rw [hg] at h ⊢
      exact ih h
    · have hg : l.given (c :: calls) =
          l.advance.1 :: ({ l.advance.2 with ended } : Lexer).given calls := by
        simp only [given, history, hr]
        rfl
      rw [hg] at h ⊢
      cases i with
      | zero => exact l.token?_zero.symm
      | succ i => exact (ih (Nat.lt_of_succ_lt_succ h)).trans (l.token?_succ i).symm

theorem ended_after_iff : (l.after calls).ended = true ↔
    l.ended = true ∨ ∃ t, (.next, some t) ∈ l.history calls ∧ t.isEof = true := by
  induction calls generalizing l with
  | nil => simp [after, history]
  | cons c calls ih =>
    rw [after, List.foldl_cons, ← after, ih, ended_run_iff, or_assoc, ← exists_or]
    simp only [history, List.mem_cons, or_and_right, eq_comm]

/-- An end token leaves the lexer at the end of the input. -/
theorem ended_after_of_mem (h : (c, some t) ∈ l.history calls) (he : t.isEof = true) :
    (l.after calls).cursor.Ended := by
  induction calls generalizing l with
  | nil => cases h
  | cons c' calls ih =>
    rcases List.mem_cons.mp h with h | h
    · have hend : (c'.run l).2.cursor.Ended := by
        obtain ⟨rfl, ht⟩ := Prod.mk.inj h
        rcases l.run_cases c with hr | ⟨ended, hr⟩
        · rw [hr] at ht
          cases ht
        · rw [hr] at ht ⊢
          cases ht
          exact (ended_of_isEof he).1
      have hc : ((c'.run l).2.after calls).cursor = (c'.run l).2.cursor :=
        cursor_after_of_ended hend
      exact hc ▸ hend
    · exact ih h

/-- The answers of a lexer with the tokens `tokens` to calls in any order. -/
structure CallsLaw (tokens : List Token) (l : Lexer) (calls : List Call) : Prop where
  /-- The last token, and no other, is the end. -/
  isEof_iff {i : Nat} {t : Token} (h : tokens[i]? = some t) : t.isEof = true ↔ i + 1 = tokens.length
  /-- No token is left out or repeated but the last one, which is given from then on. -/
  given {i : Nat} (h : i < (l.given calls).length) :
    (l.given calls)[i]? = tokens[min i (tokens.length - 1)]?
  advance_isSome {a : Option Token} (h : (.advance, a) ∈ l.history calls) : a.isSome = true
  next_eq_none_iff : (Call.next.run (l.after calls)).1 = none ↔
    ∃ t, (.next, some t) ∈ l.history calls ∧ t.isEof = true
  next_of_none (h : (Call.next.run (l.after calls)).1 = none) :
    (Call.next.run (l.after calls)).2 = l.after calls
  pos_eq {c : Call} {t : Token} (h : (c, some t) ∈ l.history calls) (he : t.isEof = true)
    (more : List Call) : (l.after (calls ++ more)).pos = (l.after calls).pos

theorem isSome_of_mem_history {a : Option Token} (h : (.advance, a) ∈ l.history calls) :
    a.isSome = true := by
  induction calls generalizing l with
  | nil => cases h
  | cons c calls ih =>
    rcases List.mem_cons.mp h with h | h
    · obtain ⟨rfl, rfl⟩ := Prod.mk.inj h
      rfl
    · exact ih h

theorem after_append (l : Lexer) (calls more : List Call) :
    l.after (calls ++ more) = (l.after calls).after more :=
  List.foldl_append

/-- `advance` and `next` can be mixed: answered calls give the tokens in order and then the end
again and again, `next` stops after it has given the end, and a lexer that has given the end does
not move. -/
theorem callsLaw_ofBytes (bytes : Bytes) (source : Option SourceId) (calls : List Call) :
    CallsLaw (ofBytes bytes source).tokens (ofBytes bytes source) calls where
  isEof_iff h := isEof_iff_of_getElem?_ahead (l := ofBytes bytes source) h
  given h := getElem?_given h
  advance_isSome h := isSome_of_mem_history h
  next_eq_none_iff := by
    rw [run_next_eq_none_iff, ended_after_iff]
    simp [ofBytes]
  next_of_none h := by rw [run_next_of_ended (run_next_eq_none_iff.mp h)]
  pos_eq h he more := by
    rw [after_append]
    exact congrArg Cursor.pos (cursor_after_of_ended (ended_after_of_mem h he))

/-- The end token that `advance` has taken is still an item of the stream. -/
example : ((ofBytes [0x31]).history [.advance, .advance, .next, .next, .advance]).map
    (·.2.map (·.value)) = [some (.uint 1), some .eof, some .eof, none, some .eof] := by
  decide +kernel

end Lexer
end Calculator
