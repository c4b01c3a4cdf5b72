import Scriptwright.Host

/-!
# Building files

Compiling files and directories. The text generated from a source goes to a file
beside it. A directory is compiled source by source and stops at the first that
fails; what was written before stays.
-/

namespace Scriptwright.Build
variable {m : Type → Type} [Monad m] [Host m]

/-- The text that bytes encode. -/
def decode (bytes : ByteArray) : Except FileFault String :=
  match String.fromUTF8? bytes with
  | some text => .ok text
  | none => .error .notText

def readText (p : Path) : ExceptT FileFault m String := do
  ExceptT.mk (pure (decode (← ExceptT.mk (Host.read p))))

def readInput : ExceptT FileFault m String := do
  ExceptT.mk (pure (decode (← ExceptT.mk Host.input)))

def tellAll (events : List Event) : m Unit := events.forM Host.tell

/-- Compiles a text and tells how far it came. -/
def compileText (text path : String) : ExceptT Error m String := do
  tellAll (m := m) (compileEvents text path)
  ExceptT.mk (pure (compile text path))

/-- Compiles a file. Errors name it as it is given. -/
def compileFile (p : Path) : ExceptT Error m String := do
  compileText (← (readText p).adapt .unreadable) p.text

/-- What exists already may stay if it is a directory. -/
def settle (p : Path) (made : Except FileFault Unit) : m (Except FileFault Unit) := do
  match made with
  | .error .alreadyExists => if ← Host.isDirectory p then return .ok () else return made
  | _ => return made

/-- Makes sure that the first of the given directories exists. Each of them lies in
the next one, which is made only if it is missing. -/
def makeDirectories : List Path → m (Except FileFault Unit)
  | [] => return .ok ()
  | p :: outer => do
    match ← Host.makeDirectory p with
    | .error .missing =>
      match ← makeDirectories outer with
      | .error fault => return .error fault
      | .ok () => settle p (← Host.makeDirectory p)
    | made => settle p made

/-- Writes a text to a file and makes the directory it lies in, if need be. -/
def writeOutput (p : Path) (text : String) : ExceptT Error m Unit := do
  match p.directories with
  | [] => pure ()
  | directory :: outer =>
    (ExceptT.mk (makeDirectories (directory :: outer))).adapt (.unwritable directory)
  (ExceptT.mk (Host.write p text.toUTF8)).adapt (.unwritable p)

/-- The sources in a directory, or below it if `recursive`. A file stands for itself. -/
def discover (root : Path) (recursive : Bool) : ExceptT Error m (List Path) := do
  match ← (ExceptT.mk (Host.outline root recursive)).adapt .unreadable with
  | .file _ => return [root].filter Path.isSource
  | .folder inner => return (inner.files root).filter Path.isSource

/-- Compiles sources one after the other, each to the file beside it. -/
def compileAll : List Path → ExceptT Error m (List (Path × Path))
  | [] => return []
  | source :: sources => do
    let text ← compileFile source
    writeOutput source.output text
    Host.tell (m := m) (.compiled source source.output)
    return (source, source.output) :: (← compileAll sources)

/-- Compiles the sources of a directory. The result pairs them with their outputs. -/
def compileDirectory (root : Path) (recursive : Bool) : ExceptT Error m (List (Path × Path)) := do
  compileAll (← discover root recursive)

end Scriptwright.Build
