import Calculator.Proofs.Sources.Lookup

/-!
# The history of a buffer

Sessions follow each other on a buffer, and their loads succeed or fail in any order. Seen from any
point of such a history, inputs were only ever added: the loads that succeeded have the ids 1, 2, 3
and so on over all sessions, the buffer holds what they read, and each session lists its own
(`Sources.appendOnly`). Loads that failed show nowhere.
-/

namespace Calculator

namespace Load

/-- What a load comes to: the input is added behind all others, or, if it cannot be read, nothing
changes. -/
inductive Steps (l : Load) (s : Sources) : Except Failure SourceId × Sources → Prop
  | adds {contents : Bytes} (h : l.contents = .ok contents) :
    Steps l s (.ok ⟨s.buffer.length⟩,
      { buffer := s.buffer ++ [contents]
        files := s.files ++ [⟨⟨s.buffer.length⟩, l.name, contents⟩] })
  | fails {f : Failure} (h : l.contents = .error f) : Steps l s (.error f, s)

theorem steps (l : Load) (s : Sources) : l.Steps s (l.run s) := by
  rw [run_eq]
  cases h : l.contents with
  | ok contents => exact .adds h
  | error f => exact .fails h

/-- The input that a load registers, under the id that it gives. -/
def entry? (l : Load) (s : Sources) : Option SourceFile :=
  match (l.run s).1, l.contents with
  | .ok id, .ok contents => some ⟨id, l.name, contents⟩
  | _, _ => none

end Load

namespace Sources

/-- What the loads of a session register, each input under the id that its load gives. -/
def registered (s : Sources) : List Load → List SourceFile
  | [] => []
  | l :: loads => (l.entry? s).toList ++ registered (l.run s).2 loads

/-- What is registered in sessions that follow each other on a buffer. -/
def registeredOn (buffer : List Bytes) : List (List Load) → List SourceFile
  | [] => []
  | loads :: sessions =>
    (onBuffer buffer).registered loads ++
      registeredOn ((onBuffer buffer).after loads).buffer sessions

/-- A store is as another one was before, with inputs added behind that go on counting. -/
structure Adds (s s' : Sources) (added : List SourceFile) : Prop where
  files_eq : s'.files = s.files ++ added
  buffer_eq : s'.buffer = s.buffer ++ added.map (·.contents)
  indices_eq : added.map (·.id.index) = List.range' s.buffer.length added.length

namespace Adds
variable {s t u : Sources} {a b : List SourceFile}

theorem refl (s : Sources) : Adds s s [] :=
  ⟨(List.append_nil _).symm, (List.append_nil _).symm, rfl⟩

theorem trans (h : Adds s t a) (h' : Adds t u b) : Adds s u (a ++ b) where
  files_eq := by rw [h'.files_eq, h.files_eq, List.append_assoc]
  buffer_eq := by rw [h'.buffer_eq, h.buffer_eq, List.append_assoc, List.map_append]
  indices_eq := by
    rw [List.map_append, h.indices_eq, h'.indices_eq, h.buffer_eq, List.length_append,
      List.length_map, List.length_append, List.range'_append_1]

/-- An id that leads to a file leads to it still. -/
theorem get?_eq (h : Adds s t a) {id : SourceId} {file : SourceFile}
    (hg : s.get? id = some file) : t.get? id = some file := by
  obtain ⟨hi, -⟩ := List.getElem?_eq_some_iff.mp hg
  rw [get?, h.files_eq, List.getElem?_append_left hi]
  exact hg

end Adds

/-- One load adds what it registers. -/
theorem adds_run (s : Sources) (l : Load) : Adds s (l.run s).2 (l.entry? s).toList := by
  unfold Load.entry?
  have hl := l.steps s
  generalize l.run s = r at hl
  cases hl with
  | adds h =>
    rw [h]
    exact ⟨rfl, rfl, rfl⟩
  | fails h => exact .refl s

/-- So do the loads of a session. -/
theorem adds_after (s : Sources) (loads : List Load) :
    Adds s (s.after loads) (s.registered loads) := by
  induction loads generalizing s with
  | nil => exact .refl s
  | cons l loads ih => exact (s.adds_run l).trans (ih (l.run s).2)

section
variable (buffer : List Bytes) (loads : List Load)

theorem files_after_onBuffer :
    ((onBuffer buffer).after loads).files = (onBuffer buffer).registered loads :=
  ((onBuffer buffer).adds_after loads).files_eq

theorem buffer_after_onBuffer :
    ((onBuffer buffer).after loads).buffer =
      buffer ++ ((onBuffer buffer).registered loads).map (·.contents) :=
  ((onBuffer buffer).adds_after loads).buffer_eq

theorem indices_registered :
    ((onBuffer buffer).registered loads).map (·.id.index) =
      List.range' buffer.length ((onBuffer buffer).registered loads).length :=
  ((onBuffer buffer).adds_after loads).indices_eq

end

/-- On a buffer that was empty each id leads to the file that got it. -/
theorem get?_after_nil (loads : List Load) (id : SourceId) (file : SourceFile) :
    ((onBuffer []).after loads).get? id = some file ↔
      file ∈ (onBuffer []).registered loads ∧ file.id = id := by
  have hi {i : Nat} (hg : ((onBuffer []).registered loads)[i]? = some file) :
      file.id.index = i := by
    have he := congrArg (·[i]?) (indices_registered [] loads)
    obtain ⟨hlt, -⟩ := List.getElem?_eq_some_iff.mp hg
    simpa only [List.getElem?_map, hg, Option.map_some, List.getElem?_range' hlt, List.length_nil,
      Nat.zero_add, Nat.one_mul, Option.some.injEq] using he
  rw [get?, files_after_onBuffer]
  constructor
  · intro hg
    refine ⟨List.mem_of_getElem? hg, ?_⟩
    rw [SourceId.mk.injEq]
    exact hi hg
  · rintro ⟨hm, rfl⟩
    obtain ⟨i, hg⟩ := List.mem_iff_getElem?.mp hm
    rw [hi hg, hg]

/-! ### Sessions one after the other -/

theorem bufferFrom_append (buffer : List Bytes) (sessions more : List (List Load)) :
    bufferFrom buffer (sessions ++ more) = bufferFrom (bufferFrom buffer sessions) more :=
  List.foldl_append

/-- What sessions register is added to the buffer. -/
theorem bufferFrom_eq (buffer : List Bytes) (sessions : List (List Load)) :
    bufferFrom buffer sessions = buffer ++ (registeredOn buffer sessions).map (·.contents) := by
  induction sessions generalizing buffer with
  | nil => exact (List.append_nil _).symm
  | cons loads sessions ih =>
    have hs : bufferFrom buffer (loads :: sessions) =
        bufferFrom ((onBuffer buffer).after loads).buffer sessions := rfl
    rw [hs, ih, registeredOn, List.map_append, ← List.append_assoc, ← buffer_after_onBuffer]

/-- The ids go on counting over the ends of sessions. -/
theorem indices_registeredOn (buffer : List Bytes) (sessions : List (List Load)) :
    (registeredOn buffer sessions).map (·.id.index) =
      List.range' buffer.length (registeredOn buffer sessions).length := by
  induction sessions generalizing buffer with
  | nil => rfl
  | cons loads sessions ih =>
    have hl : ((onBuffer buffer).after loads).buffer.length =
        buffer.length + ((onBuffer buffer).registered loads).length := by
      rw [buffer_after_onBuffer, List.length_append, List.length_map]
    rw [registeredOn, List.map_append, indices_registered, ih, hl, List.length_append,
      List.range'_append_1]

/-- Numbers count from 1. -/
theorem numbers_registeredOn (sessions : List (List Load)) :
    (registeredOn [] sessions).map (·.id.number) =
      List.range' 1 (registeredOn [] sessions).length := by
  calc (registeredOn [] sessions).map (·.id.number)
    _ = ((registeredOn [] sessions).map (·.id.index)).map (1 + ·) := by
      rw [List.map_map]
      exact List.map_congr_left fun file _ => Nat.add_comm ..
    _ = List.range' 1 (registeredOn [] sessions).length := by
      rw [indices_registeredOn, List.map_add_range']
      rfl

theorem prefix_bufferFrom (buffer : List Bytes) (sessions : List (List Load)) :
    buffer <+: bufferFrom buffer sessions := by
  rw [bufferFrom_eq]
  exact List.prefix_append ..

/-- The open session `s`, seen behind earlier sessions on its buffer and `loads` of its own. -/
structure AppendOnly (sessions : List (List Load)) (loads : List Load) (s : Sources) : Prop where
  /-- The ids number the loads that succeeded, over all sessions. -/
  numbers_eq : (registeredOn [] (sessions ++ [loads])).map (·.id.number) =
    List.range' 1 (registeredOn [] (sessions ++ [loads])).length
  buffer_eq : s.buffer = (registeredOn [] (sessions ++ [loads])).map (·.contents)
  /-- What is in the buffer stays, whatever this session and others load later. -/
  buffer_prefix : ∀ later more, s.buffer <+: bufferAfter (sessions ++ (loads ++ later) :: more)
  files_eq : s.files = (onBuffer (bufferAfter sessions)).registered loads
  run_of_error : ∀ (l : Load) (f : Failure), l.contents = .error f → l.run s = (.error f, s)
  run_of_ok : ∀ (l : Load) (contents : Bytes), l.contents = .ok contents →
    ∃ id, (l.run s).1 = .ok id ∧ (l.run s).2.buffer = s.buffer ++ [contents] ∧
      (l.run s).2.files = s.files ++ [⟨id, l.name, contents⟩]
  get?_after : ∀ later id file, s.get? id = some file → (s.after later).get? id = some file
  /-- On a buffer that was empty the ids that were given, and only these, lead to their files. -/
  get?_eq_some_iff : bufferAfter sessions = [] → ∀ id file, s.get? id = some file ↔
    file ∈ (onBuffer (bufferAfter sessions)).registered loads ∧ file.id = id

/-- At any point of any history, inputs were only added. -/
theorem appendOnly (sessions : List (List Load)) (loads : List Load) :
    AppendOnly sessions loads ((onBuffer (bufferAfter sessions)).after loads) := by
  have hb : bufferAfter (sessions ++ [loads]) =
      ((onBuffer (bufferAfter sessions)).after loads).buffer := bufferFrom_append [] sessions [loads]
  refine ⟨numbers_registeredOn _, ?_, fun later more => ?_, files_after_onBuffer ..,
    fun l f hf => ?_, fun l contents hc => ?_,
    fun later id file hg => (adds_after _ later).get?_eq hg, fun he id file => ?_⟩
  · rw [← hb]
    exact bufferFrom_eq [] _
  · have hl : (onBuffer (bufferAfter sessions)).after (loads ++ later) =
        ((onBuffer (bufferAfter sessions)).after loads).after later := List.foldl_append
    have hm : bufferAfter (sessions ++ (loads ++ later) :: more) =
        bufferFrom ((onBuffer (bufferAfter sessions)).after (loads ++ later)).buffer more :=
      bufferFrom_append [] sessions ((loads ++ later) :: more)
    rw [hm, hl]
    refine .trans ?_ (prefix_bufferFrom _ more)
    rw [(adds_after _ later).buffer_eq]
    exact List.prefix_append ..
  · rw [l.run_eq, hf]
    rfl
  · rw [l.run_eq, hc]
    exact ⟨_, rfl, rfl, rfl⟩
  · rw [he]
    exact get?_after_nil loads id file

/-- A reader that breaks off registers nothing, and the next session goes on with the next id. -/
example :
    registeredOn []
        [[.text "a" [0x31], .reader "r" { chunks := [[0x32]], failure := some .noSpace }],
          [.reader "b" { chunks := [[0x33], [0x34]] }]] =
      [⟨⟨0⟩, "a", [0x31]⟩, ⟨⟨1⟩, "b", [0x33, 0x34]⟩] := rfl

end Sources
end Calculator
