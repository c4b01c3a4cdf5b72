import Scriptwright.Event

/-!
# The host of a run

A run reads and writes files, reads its input and tells events. What it may do is
the class `Host`. One host is a value: a file tree, an input and a list of events.
-/

namespace Scriptwright

/-- What a run may ask for. -/
class Host (m : Type → Type) where
  isDirectory : Path → m Bool
  read : Path → m (Except FileFault ByteArray)
  write : Path → ByteArray → m (Except FileFault Unit)
  makeDirectory : Path → m (Except FileFault Unit)
  /-- A file, or a directory with its entries, those of inner directories only if
  asked for, without any content. A failure names the place that cannot be read. -/
  outline : Path → Bool → m (Except FileFault (Node Unit))
  input : m (Except FileFault ByteArray)
  tell : Event → m Unit

/-- A host that is a value. The events are listed as they came. -/
structure World where
  files : FileTree
  /-- The names that lead from the root to the working directory. -/
  base : List Bytes
  input : ByteArray
  events : List Event

namespace World

/-- Replaces the files by the result of an operation, unless it fails. -/
def change (operation : FileTree → Except FileFault FileTree) (w : World) :
    Except FileFault Unit × World :=
  match operation w.files with
  | .ok files => (.ok (), { w with files })
  | .error fault => (.error fault, w)

def outline (p : Path) (deep : Bool) (w : World) : Except FileFault (Node Unit) :=
  match w.files.node w.base p with
  | .ok (.file _) => .ok (.file ())
  | .ok (.folder inner) =>
    match if deep then inner.tooDeep? p else none with
    | some place => .error (.listing place .nameTooLong)
    | none => .ok (.folder (inner.outline deep))
  | .error fault => .error (.listing p fault)

instance : Host (StateM World) where
  isDirectory p := fun w => (w.files.isDirectory w.base p, w)
  read p := fun w => (w.files.read w.base p, w)
  write p content := fun w => w.change fun files => files.write w.base p content
  makeDirectory p := fun w => w.change fun files => files.makeDirectory w.base p
  outline p deep := fun w => (w.outline p deep, w)
  input := fun w => (.ok w.input, w)
  tell e := fun w => ((), { w with events := w.events ++ [e] })

end World

end Scriptwright
