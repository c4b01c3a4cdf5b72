import Scriptwright.Token.Scan

/-!
# Source files and positions

A position is a line and a column, both counted from one, and a column counts
bytes. It is found from a byte offset by means of the offsets at which the lines
of the text begin. An offset past the end of the text lies on its last line.
-/

namespace Scriptwright

structure SourceFile where
  id : Nat
  path : String
  text : String
  deriving DecidableEq, Repr

structure Position where
  line : Nat
  column : Nat
  deriving DecidableEq, Repr

def Position.render (p : Position) : String := Nat.repr p.line ++ ":" ++ Nat.repr p.column

/-- The offsets after the line breaks of characters that begin at `offset`. -/
def breaks (offset : Nat) : List Char → List Nat
  | [] => []
  | c :: cs =>
    let next := offset + c.utf8Size
    if c = '\n' then next :: breaks next cs else breaks next cs

namespace SourceFile

/-- Where the lines begin. -/
def lineStarts (f : SourceFile) : List Nat := 0 :: breaks 0 f.text.toList

/-- The position of a byte offset: the last line that does not begin after it. -/
def position (f : SourceFile) (offset : Nat) : Position :=
  let starts := f.lineStarts.takeWhile (· ≤ offset)
  ⟨starts.length, offset - starts.getLast?.getD 0 + 1⟩

end SourceFile

/-- The files of a session, numbered from zero as they come. -/
structure SourceMap where
  files : List SourceFile
  deriving Repr

namespace SourceMap

def empty : SourceMap := ⟨[]⟩

def add (m : SourceMap) (path text : String) : SourceMap :=
  ⟨m.files ++ [⟨m.files.length, path, text⟩]⟩

def get? (m : SourceMap) (id : Nat) : Option SourceFile := m.files[id]?

/-- A file that is added gets the next number, and the others keep theirs. -/
theorem get?_add (m : SourceMap) (path text : String) (id : Nat) :
    (m.add path text).get? id =
      if id = m.files.length then some ⟨id, path, text⟩ else m.get? id := by
  simp only [get?, add]
  by_cases h : id = m.files.length
  · simp [h]
  · by_cases h' : id < m.files.length
    · simp [h, List.getElem?_append_left h']
    · rw [List.getElem?_eq_none (by simp; omega), List.getElem?_eq_none (by omega)]
      simp [h]

end SourceMap

end Scriptwright
