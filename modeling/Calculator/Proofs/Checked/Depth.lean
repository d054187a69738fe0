import Calculator.Proofs.Checked.Parser

/-!
# More depth

A checked routine that is done with some depth of calls comes to the same with more of it
(`Checked.Parser.approximates_phrase`). So an evaluation that does not break off with enough depth
does not do so with less of it either (`Checked.Lexer.settles_evaluate`).
-/

namespace Calculator.Checked

namespace Parser

/-- Where `x` is done, `y` comes to the same. -/
def Approximates {α : Type} (x y : Routine α) : Prop := ∀ k, x k = unfinished ∨ x k = y k

namespace Approximates
variable {α β : Type} {x y z : Routine α} {f g : α → Routine β}

theorem refl (x : Routine α) : Approximates x x := fun _ => .inr rfl

theorem trans (h : Approximates x y) (h' : Approximates y z) : Approximates x z := by
  intro k
  rcases h k with hk | hk
  · exact .inl hk
  · rw [hk]
    exact h' k

theorem bind (h : Approximates x y) (hf : ∀ a, Approximates (f a) (g a)) :
    Approximates (x >>= f) (y >>= g) := by
  intro k
  change (x k >>= _) = _ ∨ (x k >>= _) = (y k >>= _)
  rcases h k with hk | hk
  · rw [hk]
    exact .inl rfl
  · rw [hk]
    rcases y k with _ | (e | ⟨e | a, k'⟩)
    · exact .inl rfl
    · exact .inr rfl
    · exact .inr rfl
    · exact hf a k'

theorem bounded {x y : Routine Int32} (h : Approximates x y) :
    Approximates (bounded x) (bounded y) := by
  refine bind (.refl enter) fun _ k => ?_
  rcases h k with hk | hk
  · left
    rw [hk]
    rfl
  · right
    rw [hk]

end Approximates

theorem approximates_succ (depth : Nat) :
    (∀ l, Approximates (phrase depth l) (phrase (depth + 1) l)) ∧
    (∀ l start a, Approximates (chain depth l start a) (chain (depth + 1) l start a)) ∧
    Approximates (paren depth) (paren (depth + 1)) := by
  induction depth with
  | zero => exact ⟨fun _ _ => .inl rfl, fun _ _ _ _ => .inl rfl, fun _ => .inl rfl⟩
  | succ depth ih =>
    obtain ⟨hphrase, hchain, hparen⟩ := ih
    refine ⟨fun l => ?_, fun l start a => ?_, ?_⟩
    · cases l with
      | sum | product =>
        rw [phrase, phrase]
        exact .bind (.refl _) fun t => .bind (hphrase _) fun a => hchain _ _ a
      | unary =>
        rw [phrase, phrase]
        refine .bind (.refl _) fun t => ?_
        cases t with
        | none => exact hphrase _
        | some t => exact .bind (hphrase _) fun v => .refl _
      | primary =>
        rw [phrase, phrase]
        refine .bind (.refl _) fun t => ?_
        split
        · exact .refl _
        · split
          · exact hparen.bounded
          · exact .refl _
    · rw [chain, chain]
      refine .bind (.refl _) fun op => ?_
      cases op with
      | none => exact .refl _
      | some op => exact .bind (hphrase _) fun b => .bind (.refl _) fun v => hchain l start v
    · rw [paren, paren]
      exact .bind (.refl _) fun _ => .bind (hphrase _) fun v => .refl _

theorem approximates_phrase {depth more : Nat} (h : depth ≤ more) (l : Level) :
    Approximates (phrase depth l) (phrase more l) := by
  induction h with
  | refl => exact .refl _
  | step _ ih => exact ih.trans ((approximates_succ _).1 l)

end Parser

/-- A run comes to `a` with `enough` depth of calls or more. With less it comes to nothing else. -/
def Settles {α : Type} (enough : Nat) (x : Nat → Run α) (a : α) : Prop :=
  ∀ depth, x depth = pure a ∨ depth < enough ∧ x depth = unfinished

theorem Settles.of_approximates {α : Type} {enough : Nat} {x : Nat → Run α} {a : α}
    (h : ∀ depth, enough ≤ depth → x depth = pure a)
    (hx : ∀ depth, depth ≤ enough → x depth = unfinished ∨ x depth = x enough) :
    Settles enough x a := by
  intro depth
  rcases Nat.lt_or_ge depth enough with hd | hd
  · rcases hx depth (Nat.le_of_lt hd) with hu | he
    · exact .inr ⟨hd, hu⟩
    · exact .inl (he.trans (h enough (Nat.le_refl _)))
  · exact .inl (h depth hd)

namespace Lexer
variable {bytes : Bytes} {k : Lexer} {l : Calculator.Lexer} {limit : Nat}

theorem parse_approximates {α : Type} {x y : Routine α} (h : Parser.Approximates x y) (k : Lexer)
    (limit : Nat) : k.parse x limit = unfinished ∨ k.parse x limit = k.parse y limit := by
  unfold parse
  rcases Parser.ofLexer k limit with _ | (e | p)
  · exact .inl rfl
  · exact .inr rfl
  · change (x p >>= _) = _ ∨ (x p >>= _) = (y p >>= _)
    rcases h p with hp | hp
    · rw [hp]
      exact .inl rfl
    · rw [hp]
      exact .inr rfl

theorem settles_evaluate (h : k.Tracks bytes l) (hl : limit < UInt64.size) :
    Settles (5 * bytes.length + 4) (k.evaluate · limit) (l.evaluate limit) :=
  .of_approximates (fun _ => evaluate_eq h hl) fun _ hd =>
    parse_approximates (.bind (Parser.approximates_phrase hd _) fun _ => .refl _) k limit

theorem settles_evaluateLeading (h : k.Tracks bytes l) (hl : limit < UInt64.size) :
    Settles (5 * bytes.length + 4) (k.evaluateLeading · limit) (l.evaluateLeading limit) :=
  .of_approximates (fun _ => evaluateLeading_eq h hl) fun _ hd =>
    parse_approximates (.bind (Parser.approximates_phrase hd _) fun _ => .refl _) k limit

end Lexer

end Calculator.Checked
