import Scriptwright.Error

/-!
# Diagnostics

A diagnostic is an error as an editor shows it: with the range of lines and columns
that it concerns, once it has been resolved against a file.
-/

namespace Scriptwright

/-- The places from `start` up to, but not including, `stop`. -/
structure Range where
  start : Position
  stop : Position
  deriving DecidableEq, Repr

structure Diagnostic where
  code : Option String
  message : String
  span : Option Span
  range : Option Range
  deriving DecidableEq, Repr

namespace Diagnostic

def ofError (e : Error) : Diagnostic := ⟨e.code?, e.message, e.span?, none⟩

/-- Finds the range of the span. Without a span it is the whole text. -/
def resolve (f : SourceFile) (d : Diagnostic) : Diagnostic :=
  let range := match d.span with
    | some span => ⟨f.position span.start, f.position span.stop⟩
    | none => ⟨⟨1, 1⟩, f.position (byteLength f.text.toList)⟩
  { d with range := some range }

/-- One line for the terminal. A diagnostic without a range is shown at the front. -/
def render (path : String) (d : Diagnostic) : String :=
  let start := match d.range with
    | some range => range.start
    | none => ⟨1, 1⟩
  let code := match d.code with
    | some code => "[" ++ code ++ "]"
    | none => ""
  path ++ ":" ++ start.render ++ ": error" ++ code ++ ": " ++ d.message

end Diagnostic

end Scriptwright
