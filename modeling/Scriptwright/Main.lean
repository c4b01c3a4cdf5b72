import Scriptwright.Command

/-!
# The program

The command on the files of the machine. Events are kept until the run is over and
then shown before its report. The machine is asked for paths by their texts, and gives
words and names as texts.
-/

namespace Scriptwright.Terminal

/-- A run on the machine, with the events told so far. -/
abbrev Session := StateT (List Event) IO

/-- Some codes come with their sign turned. -/
def faultOfCode (code : UInt32) (details : String) : FileFault :=
  match if code.toNat < 0x80000000 then code.toNat else 0x100000000 - code.toNat with
  | 2 => .missing
  | 17 => .alreadyExists
  | 20 => .notDirectory
  | 21 => .isDirectory
  | 36 => .nameTooLong
  | n => .other (details ++ " (os error " ++ Nat.repr n ++ ")")

def faultOf : IO.Error → FileFault
  | .noFileOrDirectory _ code details => faultOfCode code details
  | .alreadyExists _ code details => faultOfCode code details
  | .inappropriateType _ code details => faultOfCode code details
  | .invalidArgument _ code details => faultOfCode code details
  | .permissionDenied _ code details => faultOfCode code details
  | .resourceExhausted _ code details => faultOfCode code details
  | .otherError code details => faultOfCode code details
  | e => .other (toString e)

def attempt {α : Type} (action : IO α) : Session (Except FileFault α) := do
  match ← action.toBaseIO with
  | .ok a => return .ok a
  | .error e => return .error (faultOf e)

def isDirectory (p : Path) : IO Bool := do
  try (← IO.FS.realPath p.text).isDir
  catch _ => return false

/-- Looks at a place to be listed, which a failure names. -/
def look {α : Type} (p : Path) (action : IO α) : ExceptT FileFault Session α :=
  (ExceptT.mk (attempt action)).adapt (.listing p)

/-- The entries of a directory and, if `deep`, of the directories in it. -/
partial def entries (deep : Bool) (p : Path) : ExceptT FileFault Session (Directory Unit) := do
  let mut found := .empty
  for entry in ← look p (do (← IO.FS.realPath p.text).readDir) do
    let inner := p.child entry.fileName
    if ← look inner entry.path.isDir then
      found := .folder entry.fileName (← if deep then entries deep inner else pure .empty) found
    else found := .file entry.fileName () found
  return found

def outline (p : Path) (deep : Bool) : ExceptT FileFault Session (Node Unit) := do
  if ← look p (isDirectory p) then return .folder (← entries deep p)
  let _ ← look p (do (← IO.FS.realPath p.text).metadata)
  return .file ()

partial def readToEnd (stream : IO.FS.Stream) (read : ByteArray) : IO ByteArray := do
  let more ← stream.read 65536
  if more.isEmpty then return read
  readToEnd stream (read ++ more)

instance : Host Session where
  isDirectory p := isDirectory p
  read p := attempt (IO.FS.readBinFile p.text)
  write p content := attempt (IO.FS.writeBinFile p.text content)
  makeDirectory p := attempt (IO.FS.createDir p.text)
  outline p deep := (outline p deep).run
  input := attempt (do readToEnd (← IO.getStdin) .empty)
  tell e := modify (· ++ [e])

end Scriptwright.Terminal

def main (words : List String) : IO UInt32 := do
  let action : Scriptwright.Terminal.Session Scriptwright.Command.Outcome :=
    Scriptwright.Command.run (words.map Scriptwright.Bytes.ofString)
  let (outcome, events) ← action.run []
  IO.print outcome.output
  IO.eprint (outcome.errors events)
  return outcome.exit.toUInt32
