import Calculator.Proofs.Registration
import Calculator.Proofs.Sources.Loads

/-!
# What ids lead to

Ids number everything that was ever loaded into the buffer, but an id is looked up among the files
of the session. So the ids of a session lead to their own files as long as the buffer was empty
when the session began, and only then (`Sources.finds_iff`). Sessions that go on with a buffer show
other names, or none, for their inputs.
-/

namespace Calculator

/-- The places of an error are in the input that was evaluated. -/
theorem SourceFile.source_of_error {file : SourceFile} {limit : Nat} {e : EvalError}
    (h : file.lexer.evaluate limit = .error e ∨ file.lexer.evaluateLeading limit = .error e) :
    e.span.start.source = some file.id := by
  obtain ⟨d, rfl⟩ : ∃ d : EvalError, d.inSource (some file.id) = e := by
    rcases h with h | h
    · rw [lexer, Lexer.evaluate_ofBytes_eq] at h
      obtain ⟨d, -, hd⟩ := mapError_eq_error_iff.mp h
      exact ⟨d, hd.symm⟩
    · rw [lexer, Lexer.evaluateLeading_ofBytes_eq] at h
      obtain ⟨d, -, hd⟩ := mapError_eq_error_iff.mp h
      exact ⟨d, hd.symm⟩
  rw [EvalError.span_inSource]
  rfl

namespace Sources

/-- The id of a file leads to it: it is what a lookup finds, and places in it are shown under its
name, those of errors among them. -/
structure Finds (s : Sources) (file : SourceFile) : Prop where
  get?_eq : s.get? file.id = some file
  locate_eq (p : Position) (h : p.source = some file.id) :
    s.locate p = file.name ++ ":" ++ p.text
  locateSpan_eq (limit : Nat) (e : EvalError)
    (h : file.lexer.evaluate limit = .error e ∨ file.lexer.evaluateLeading limit = .error e) :
    s.locateSpan e.span = file.name ++ ":" ++ e.span.start.text

theorem Finds.of_get? {s : Sources} (file : SourceFile) (h : s.get? file.id = some file) :
    s.Finds file where
  get?_eq := h
  locate_eq _ hp := locate_of_get? h hp
  locateSpan_eq _ _ he := locate_of_get? h (SourceFile.source_of_error he)

/-- In a listing each id is as far off the place of its file as the buffer was long before. -/
theorem get?_listing_eq_some_iff {buffer : List Bytes} {before after : List (String × Bytes)}
    {name : String} {contents : Bytes} :
    (listing buffer (before ++ (name, contents) :: after)).get?
        ⟨buffer.length + before.length⟩ =
      some ⟨⟨buffer.length + before.length⟩, name, contents⟩ ↔ buffer = [] := by
  rw [get?_listing]
  constructor
  · intro h
    obtain ⟨e, -, he⟩ := Option.map_eq_some_iff.mp h
    have hi : buffer.length + (buffer.length + before.length) =
        buffer.length + before.length := by
      injection he with hid
      injection hid
    exact List.length_eq_zero_iff.mp (by omega)
  · rintro rfl
    simp

/-- The buffer behind sessions that follow each other on it. -/
def bufferFrom (buffer : List Bytes) (sessions : List (List Load)) : List Bytes :=
  sessions.foldl (fun buffer loads => ((onBuffer buffer).after loads).buffer) buffer

/-- The buffer behind sessions of which the first found it empty. -/
def bufferAfter (sessions : List (List Load)) : List Bytes := bufferFrom [] sessions

/-- An id that a load gives leads to what was loaded, from then on, exactly if the sessions before
left nothing in the buffer. -/
theorem finds_iff (sessions : List (List Load)) (before after : List Load) (l : Load)
    (id : SourceId) (h : (l.run ((onBuffer (bufferAfter sessions)).after before)).1 = .ok id) :
    ∃ contents, l.contents = .ok contents ∧
      (((onBuffer (bufferAfter sessions)).after (before ++ l :: after)).Finds
        ⟨id, l.name, contents⟩ ↔ bufferAfter sessions = []) := by
  rw [after_onBuffer] at h ⊢
  cases hc : l.contents with
  | error f =>
    rw [run_listing_of_error hc] at h
    cases h
  | ok contents =>
    rw [run_listing_of_ok hc] at h
    cases h
    refine ⟨contents, rfl, ?_⟩
    rw [List.filterMap_append, List.filterMap_cons_some (Load.read?_of_ok hc),
      ← get?_listing_eq_some_iff]
    exact ⟨Finds.get?_eq, Finds.of_get? ⟨_, l.name, contents⟩⟩

/-- Behind a session in which only a reader failed, the input `b` is found, though it is not the
last one. -/
theorem finds_second_of_three :
    ((onBuffer (bufferAfter [[.reader "r" { chunks := [[0x31]], failure := some .noSpace }]])).after
        [.text "a" [0x31], .text "b" [0x31, 0x2f, 0x30], .text "c" []]).Finds
      ⟨⟨1⟩, "b", [0x31, 0x2f, 0x30]⟩ := by
  obtain ⟨contents, hc, h⟩ :=
    finds_iff [[.reader "r" { chunks := [[0x31]], failure := some .noSpace }]]
      [.text "a" [0x31]] [.text "c" []] (.text "b" [0x31, 0x2f, 0x30]) ⟨1⟩ rfl
  cases hc
  exact h.mpr rfl

/-- In a session behind one that has loaded `a`, the id of `b` leads to `c`, and a place in `b` is
shown under the name of `c`. -/
theorem not_finds_second_session :
    ((Load.text "b" [0x32]).run (onBuffer (bufferAfter [[.text "a" [0x31]]]))).1 = .ok ⟨1⟩ ∧
      ((onBuffer (bufferAfter [[.text "a" [0x31]]])).after
        [.text "b" [0x32], .text "c" [0x33]]).get? ⟨1⟩ = some ⟨⟨2⟩, "c", [0x33]⟩ ∧
      ((onBuffer (bufferAfter [[.text "a" [0x31]]])).after
        [.text "b" [0x32], .text "c" [0x33]]).locate ⟨some ⟨1⟩, 0, 1, 1⟩ = "c:1:1" ∧
      ¬ ((onBuffer (bufferAfter [[.text "a" [0x31]]])).after
        [.text "b" [0x32], .text "c" [0x33]]).Finds ⟨⟨1⟩, "b", [0x32]⟩ := by
  refine ⟨rfl, rfl, ?_, fun h => ?_⟩
  · decide +kernel
  · have hg := h.get?_eq
    cases hg

end Sources
end Calculator
