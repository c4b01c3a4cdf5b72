import Scriptwright.FileTree
import Scriptwright.Parser.Program
import Scriptwright.Source

/-!
# Errors

What a user is told when something fails. A fault in a text is reported with its
code, its message and its span. Once the file is known, the span gives way to the
place where it starts.
-/

namespace Scriptwright

inductive Error where
  /-- The characters of a text form no tokens. -/
  | lexical (code message : String) (span : Span)
  /-- The tokens of a text form no program. -/
  | syntactic (code message : String) (span : Span)
  | located (code message path : String) (start : Position)
  | unreadable (fault : FileFault)
  | unwritable (path : Path) (fault : FileFault)
  deriving DecidableEq, Repr

namespace Error

def ofScan (e : ScanError) : Error := .lexical e.fault.code e.fault.message e.span

def ofSyntax (e : SyntaxError) : Error := .syntactic e.fault.code e.message e.span

def code? : Error → Option String
  | lexical code _ _ | syntactic code _ _ | located code _ _ _ => some code
  | unreadable _ | unwritable .. => none

def span? : Error → Option Span
  | lexical _ _ span | syntactic _ _ span => some span
  | located .. | unreadable _ | unwritable .. => none

/-- The message without a place. -/
def message : Error → String
  | lexical _ message _ | syntactic _ message _ | located _ message _ _ => message
  | unreadable fault => "failed to read source: " ++ fault.message
  | unwritable path fault => "failed to write " ++ path.text ++ ": " ++ fault.message

/-- The message with the place, if it is known. -/
def text : Error → String
  | located _ message path start => message ++ " at " ++ path ++ ":" ++ start.render
  | e => e.message

/-- What lies behind an error. -/
def causes : Error → List String
  | unreadable fault | unwritable _ fault => fault.messages
  | _ => []

/-- The error with a place in one of the files. An error without a span, or with a
span in no file of the map, stays as it is. -/
def locate (m : SourceMap) (e : Error) : Error :=
  match e with
  | lexical code message span | syntactic code message span =>
    match m.get? span.file with
    | some file => located code message file.path (file.position span.start)
    | none => e
  | _ => e

end Error

end Scriptwright
