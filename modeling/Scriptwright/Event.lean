import Scriptwright.Compile
import Scriptwright.Text.Quoted

/-!
# Events of a run

What a run has to tell besides its result. Each event but a diagnostic has a level,
and is shown if that level was asked for.
-/

namespace Scriptwright

/-- How much a run tells, from little to much. -/
inductive Level where
  | error | warn | info | debug | trace
  deriving DecidableEq, Repr

namespace Level

def rank : Level → Nat
  | error => 0
  | warn => 1
  | info => 2
  | debug => 3
  | trace => 4

def name : Level → String
  | error => "error"
  | warn => "warn"
  | info => "info"
  | debug => "debug"
  | trace => "trace"

/-- The name at the front of a line, five columns wide. -/
def label : Level → String
  | error => "ERROR"
  | warn => " WARN"
  | info => " INFO"
  | debug => "DEBUG"
  | trace => "TRACE"

def ofName? (name : String) : Option Level :=
  [error, warn, info, debug, trace].find? (·.name == name)

end Level

inductive Event where
  | scanned (path : String) (tokens : Nat)
  | parsed (declarations : Nat)
  | generated (bytes : Nat)
  | compiled (source output : Path)
  /-- The output that was asked for has been written. -/
  | wrote (output : String)
  /-- An output beside its source has been written. -/
  | wroteSibling (output : Path)
  | compiledDirectory (files : Nat)
  | checked (files : Nat)
  | diagnosed (line : String)
  deriving DecidableEq, Repr

namespace Event

/-- Diagnostics have no level: they are always shown. -/
def level? : Event → Option Level
  | scanned .. | parsed _ | generated _ | compiled .. => some .debug
  | wrote _ | wroteSibling _ | compiledDirectory _ | checked _ => some .info
  | diagnosed _ => none

def message : Event → String
  | scanned path tokens =>
    "lexed source path=" ++ Text.quote path ++ " tokens=" ++ Nat.repr tokens
  | parsed declarations => "parsed program declarations=" ++ Nat.repr declarations
  | generated bytes => "generated javascript bytes=" ++ Nat.repr bytes
  | compiled source output => "compiled file source=" ++ source.text ++ " output=" ++ output.text
  | wrote output => "wrote output output=" ++ Text.quote output
  | wroteSibling output => "wrote output output=" ++ output.text
  | compiledDirectory files => "compiled directory files=" ++ Nat.repr files
  | checked files => "check passed files=" ++ Nat.repr files
  | diagnosed line => line

/-- The line that shows an event to who asked for `level`; empty if it is not shown. -/
def render (level : Level) (e : Event) : String :=
  match e.level? with
  | none => e.message ++ "\n"
  | some l => if l.rank ≤ level.rank then l.label ++ " " ++ e.message ++ "\n" else ""

end Event

/-- What reading a file tells: each stage that succeeds is an event. -/
def SourceFile.programEvents (f : SourceFile) : List Event :=
  match scan f.id f.text with
  | .error _ => []
  | .ok tokens =>
    .scanned f.path tokens.length ::
      match Program.ofTokens f.id tokens with
      | .error _ => []
      | .ok program => [.parsed program.declarations.length]

/-- What compiling a text tells. -/
def compileEvents (text path : String) : List Event :=
  SourceFile.programEvents ⟨0, path, text⟩ ++
    match compile text path with
    | .error _ => []
    | .ok output => [.generated output.utf8ByteSize]

end Scriptwright
