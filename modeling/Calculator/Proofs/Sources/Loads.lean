import Calculator.Sources

/-!
# Loading inputs

A session that was opened on a buffer is determined by the inputs that it has loaded since
(`Sources.listing`): they are its files, with ids that go on from the length of the buffer, and
their contents follow what was in the buffer. Loads that failed leave no trace
(`Sources.after_onBuffer`).
-/

namespace Calculator

/-- A load, in any of the ways to load an input. -/
inductive Load where
  | text (name : String) (contents : Bytes)
  | file (path : String) (contents : Except Failure Bytes)
  | reader (name : String) (r : Reader)

namespace Load

def name : Load → String
  | .text name _ => name
  | .file path _ => path
  | .reader name _ => name

/-- What reading the input came to. -/
def contents : Load → Except Failure Bytes
  | .text _ contents => .ok contents
  | .file _ contents => contents
  | .reader _ r => r.readAll

def run (s : Sources) : Load → Except Failure SourceId × Sources
  | .text name contents => ((s.load name contents).map .ok id)
  | .file path contents => s.loadResult path contents
  | .reader name r => s.loadReader name r

/-- The name and the contents, if the input could be read. -/
def read? (l : Load) : Option (String × Bytes) := l.contents.toOption.map (l.name, ·)

/-- The ways to load an input differ in how it is read. -/
theorem run_eq (l : Load) (s : Sources) : l.run s = s.loadResult l.name l.contents := by
  cases l <;> rfl

theorem read?_of_ok {l : Load} {contents : Bytes} (h : l.contents = .ok contents) :
    l.read? = some (l.name, contents) := by
  rw [read?, h]
  rfl

theorem read?_of_error {l : Load} {f : Failure} (h : l.contents = .error f) :
    l.read? = none := by
  rw [read?, h]
  rfl

end Load

namespace Sources

/-- The session after loads, of which each may have failed. -/
def after (s : Sources) (loads : List Load) : Sources := loads.foldl (fun s l => (l.run s).2) s

/-- The session that was opened on a buffer and has loaded inputs since. -/
def listing (buffer : List Bytes) (entries : List (String × Bytes)) : Sources where
  buffer := buffer ++ entries.map (·.2)
  files := (entries.zipIdx buffer.length).map fun ((name, contents), i) => ⟨⟨i⟩, name, contents⟩

section
variable (buffer : List Bytes) (entries : List (String × Bytes))

theorem listing_nil : listing buffer [] = onBuffer buffer := by
  simp [listing, onBuffer]

theorem load_listing (name : String) (contents : Bytes) :
    (listing buffer entries).load name contents =
      (⟨buffer.length + entries.length⟩, listing buffer (entries ++ [(name, contents)])) := by
  simp [load, listing, List.zipIdx_append]

theorem get?_listing (id : SourceId) :
    (listing buffer entries).get? id =
      entries[id.index]?.map fun (name, contents) =>
        ⟨⟨buffer.length + id.index⟩, name, contents⟩ := by
  simp only [get?, listing, List.getElem?_map, List.getElem?_zipIdx, Option.map_map]
  rfl

theorem map_files_listing :
    (listing buffer entries).files.map (fun file => (file.name, file.contents)) = entries := by
  simp only [listing, List.map_map]
  exact List.zipIdx_map_fst _ _

end

theorem nameOf_of_get? {s : Sources} {id : SourceId} {file : SourceFile}
    (h : s.get? id = some file) : s.nameOf (some id) = file.name := by
  simp only [nameOf, Option.bind_some, h]

theorem locate_of_get? {s : Sources} {file : SourceFile} (h : s.get? file.id = some file)
    {p : Position} (hp : p.source = some file.id) :
    s.locate p = file.name ++ ":" ++ p.text := by
  rw [locate, hp, nameOf_of_get? h]

/-- Files that were loaded on an empty buffer have the ids that lead to them. -/
theorem get?_of_mem_files {entries : List (String × Bytes)} {file : SourceFile}
    (h : file ∈ (listing [] entries).files) : (listing [] entries).get? file.id = some file := by
  obtain ⟨⟨⟨name, contents⟩, i⟩, he, rfl⟩ := List.mem_map.mp h
  rw [get?_listing, List.mem_zipIdx_iff_getElem?.mp he]
  simp

section
variable {buffer : List Bytes} {entries : List (String × Bytes)} {l : Load}

theorem run_listing_of_ok {contents : Bytes} (h : l.contents = .ok contents) :
    l.run (listing buffer entries) =
      (.ok ⟨buffer.length + entries.length⟩,
        listing buffer (entries ++ [(l.name, contents)])) := by
  rw [l.run_eq, h]
  simp only [loadResult, load_listing]

/-- A load that fails changes nothing. -/
theorem run_listing_of_error {f : Failure} (h : l.contents = .error f) :
    l.run (listing buffer entries) = (.error f, listing buffer entries) := by
  rw [l.run_eq, h]
  rfl

theorem run_listing_snd :
    (l.run (listing buffer entries)).2 = listing buffer (entries ++ l.read?.toList) := by
  cases h : l.contents with
  | ok contents => rw [run_listing_of_ok h, Load.read?_of_ok h, Option.toList_some]
  | error f => rw [run_listing_of_error h, Load.read?_of_error h, Option.toList_none,
      List.append_nil]

end

theorem after_listing (buffer : List Bytes) (entries : List (String × Bytes))
    (loads : List Load) :
    (listing buffer entries).after loads =
      listing buffer (entries ++ loads.filterMap Load.read?) := by
  induction loads generalizing entries with
  | nil => rw [List.filterMap_nil, List.append_nil, after, List.foldl_nil]
  | cons l loads ih =>
    have hl : (listing buffer entries).after (l :: loads) =
        (l.run (listing buffer entries)).2.after loads := rfl
    rw [hl, run_listing_snd, ih, List.append_assoc, List.filterMap_cons]
    cases l.read? <;> rfl

/-- After any loads a session lists the inputs that could be read. -/
theorem after_onBuffer (buffer : List Bytes) (loads : List Load) :
    (onBuffer buffer).after loads = listing buffer (loads.filterMap Load.read?) := by
  rw [← listing_nil, after_listing, List.nil_append]

end Sources
end Calculator
