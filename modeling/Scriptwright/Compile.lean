import Scriptwright.Diagnostic
import Scriptwright.JavaScript

/-!
# Compiling and checking a text

Compiling turns a text into JavaScript. Checking stops at the program and tells
what is wrong with the text: at most one diagnostic, since the first fault ends
the reading.
-/

namespace Scriptwright

/-- The program that a file holds. -/
def SourceFile.program (f : SourceFile) : Except Error Program :=
  match scan f.id f.text with
  | .error e => .error (.ofScan e)
  | .ok tokens =>
    match Program.ofTokens f.id tokens with
    | .error e => .error (.ofSyntax e)
    | .ok program => .ok program

/-- The JavaScript of a text. Errors give their place in the file `path`. -/
def compile (text path : String) : Except Error String :=
  let m := SourceMap.empty.add path text
  match SourceFile.program ⟨0, path, text⟩ with
  | .error e => .error (e.locate m)
  | .ok program => .ok program.javaScript

namespace SourceFile

def check (f : SourceFile) : List Diagnostic :=
  match f.program with
  | .error e => [(Diagnostic.ofError e).resolve f]
  | .ok _ => []

end SourceFile

def check (text path : String) : List Diagnostic := SourceFile.check ⟨0, path, text⟩

end Scriptwright
