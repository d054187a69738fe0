import Calculator.Failure
import Calculator.Lexer

/-! The inputs that were loaded, by id, and the text of places in them. -/

namespace Calculator

structure SourceFile where
  id : SourceId
  /-- The name under which messages show the input. -/
  name : String
  contents : Bytes
deriving DecidableEq

/-- The inputs of one session. The buffer outlives the session: sessions that follow each other
on one buffer go on counting where the last one stopped. -/
structure Sources where
  /-- The contents of all inputs that were ever loaded. -/
  buffer : List Bytes := []
  files : List SourceFile := []
deriving DecidableEq

/-- A stream of bytes that comes in pieces and may break off with a failure. -/
structure Reader where
  chunks : List Bytes
  failure : Option Failure := none

def Reader.readAll (r : Reader) : Except Failure Bytes :=
  match r.failure with
  | none => .ok r.chunks.flatten
  | some failure => .error failure

namespace Sources

def onBuffer (buffer : List Bytes) : Sources := { buffer }

/-- Registers an input under a name. Its id counts the contents of the buffer. -/
def load (s : Sources) (name : String) (contents : Bytes) : SourceId × Sources :=
  let id : SourceId := ⟨s.buffer.length⟩
  (id, { buffer := s.buffer ++ [contents], files := s.files ++ [{ id, name, contents }] })

/-- Registers the result of reading an input. Where the reading failed, nothing changes. -/
def loadResult (s : Sources) (name : String) (contents : Except Failure Bytes) :
    Except Failure SourceId × Sources :=
  match contents with
  | .ok contents =>
    let (id, s) := s.load name contents
    (.ok id, s)
  | .error failure => (.error failure, s)

def loadReader (s : Sources) (name : String) (r : Reader) : Except Failure SourceId × Sources :=
  s.loadResult name r.readAll

/-- The input of the session that an id leads to. -/
def get? (s : Sources) (id : SourceId) : Option SourceFile := s.files[id.index]?

def nameOf (s : Sources) (source : Option SourceId) : String :=
  match source.bind s.get? with
  | some file => file.name
  | none => "<unknown>"

/-- A place with the name of its input in front. -/
def locate (s : Sources) (p : Position) : String := s.nameOf p.source ++ ":" ++ p.text

/-- A stretch is located where it starts. -/
def locateSpan (s : Sources) (span : Span) : String := s.locate span.start

end Sources

def SourceFile.lexer (file : SourceFile) : Lexer := .ofBytes file.contents (some file.id)

end Calculator
