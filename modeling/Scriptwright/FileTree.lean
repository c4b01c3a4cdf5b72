import Scriptwright.Path

/-!
# File trees

A directory is a list of named entries, each a file or a directory. The order of
the entries means nothing: they are visited by name.

A path is followed from the working directory, or from the root of the tree if it
begins with a slash. It may lead to a directory, to a file, or to a name that an
existing directory does not hold. Everything else fails. Above the root there is
only the root. Names are bytes, and names and paths have a greatest length.
-/

namespace Scriptwright

/-- Why a file or directory cannot be used. -/
inductive FileFault where
  | missing
  | alreadyExists
  | notDirectory
  | isDirectory
  /-- A name or a path is longer than any can be. -/
  | nameTooLong
  /-- A path holds the byte that no name can have. -/
  | nulInName
  /-- The bytes are not the encoding of a text. -/
  | notText
  /-- A place whose entries were asked for cannot be read. -/
  | listing (place : Path) (fault : FileFault)
  | other (message : String)
  deriving DecidableEq, Repr

def FileFault.message : FileFault → String
  | missing => "No such file or directory (os error 2)"
  | alreadyExists => "File exists (os error 17)"
  | notDirectory => "Not a directory (os error 20)"
  | isDirectory => "Is a directory (os error 21)"
  | nameTooLong => "File name too long (os error 36)"
  | nulInName => "file name contained an unexpected NUL byte"
  | notText => "stream did not contain valid UTF-8"
  | listing place fault => "IO error for operation on " ++ place.text ++ ": " ++ fault.message
  | other message => message

/-- The messages of a fault and of what lies behind it. -/
def FileFault.messages : FileFault → List String
  | listing place fault => (listing place fault).message :: fault.messages
  | fault => [fault.message]

/-- Whether a name is short enough to be given. -/
def fitsName (name : Bytes) : Bool := decide (name.length ≤ 255)

/-- Whether a path is short enough to be followed. -/
def fitsPath (p : Path) : Bool := decide (p.bytes.length ≤ 4095)

/-- The entries of a directory, whose files hold an `α` each. -/
inductive Directory (α : Type) where
  | empty
  | file (name : Bytes) (content : α) (others : Directory α)
  | folder (name : Bytes) (inner : Directory α) (others : Directory α)

/-- The content of every file is its bytes. -/
abbrev FileTree := Directory ByteArray

/-- What stands under a name. -/
inductive Node (α : Type) where
  | file (content : α)
  | folder (inner : Directory α)

/-- Puts an entry in front of others. -/
def Node.entry {α : Type} (name : Bytes) (others : Directory α) : Node α → Directory α
  | .file content => .file name content others
  | .folder inner => .folder name inner others

/-- Where a path leads. A place other than a directory is given by the directory it
lies in and its name, and `slash` says whether a slash follows the name. -/
inductive Spot (α : Type) where
  | folder (location : List Bytes) (inner : Directory α)
  | file (parent : List Bytes) (name : Bytes) (content : α) (slash : Bool)
  | absent (parent : List Bytes) (name : Bytes) (slash : Bool)

/-- An entry met on a walk. -/
structure Visit where
  path : Path
  isFile : Bool
  deriving DecidableEq, Repr

namespace Directory
variable {α β : Type}

def find? (name : Bytes) : Directory α → Option (Node α)
  | empty => none
  | file n content others => if n = name then some (.file content) else others.find? name
  | folder n inner others => if n = name then some (.folder inner) else others.find? name

/-- Puts a node under a name, in place of what is there. -/
def put (name : Bytes) (node : Node α) : Directory α → Directory α
  | empty => node.entry name empty
  | file n content others =>
    if n = name then node.entry name others else file n content (others.put name node)
  | folder n inner others =>
    if n = name then node.entry name others else folder n inner (others.put name node)

theorem find?_entry (node : Node α) (name other : Bytes) (others : Directory α) :
    (node.entry name others).find? other =
      if name = other then some node else others.find? other := by
  cases node <;> rfl

@[simp] theorem find?_put (d : Directory α) (name other : Bytes) (node : Node α) :
    (d.put name node).find? other = if name = other then some node else d.find? other := by
  induction d with
  | empty => exact find?_entry node name other empty
  | file n content others ih | folder n inner others _ ih =>
    by_cases h : n = name <;> by_cases h' : name = other <;>
      simp_all [put, find?, find?_entry]

def erase (name : Bytes) : Directory α → Directory α
  | empty => empty
  | file n content others => if n = name then others else file n content (others.erase name)
  | folder n inner others => if n = name then others else folder n inner (others.erase name)

/-- What stands at the end of a list of names. -/
def lookup (root : Directory α) : List Bytes → Option (Node α)
  | [] => some (.folder root)
  | name :: names =>
    match root.find? name with
    | some (.folder inner) => inner.lookup names
    | some (.file content) => if names = [] then some (.file content) else none
    | none => none

/-- Changes the directory at the end of a list of names, if there is one. -/
def modifyAt (change : Directory α → Directory α) (root : Directory α) :
    List Bytes → Directory α
  | [] => change root
  | name :: names =>
    match root.find? name with
    | some (.folder inner) => root.put name (.folder (modifyAt change inner names))
    | _ => root

/-- What stands under a name of the directory at `location`. A name that is too long
stands nowhere. -/
def held (root : Directory α) (location : List Bytes) (name : Bytes) : Option (Node α) :=
  if fitsName name then root.lookup (location ++ [name]) else none

/-- Why nothing stands under a name. -/
def absence (name : Bytes) : FileFault := if fitsName name then .missing else .nameTooLong

/-- Follows segments from the directory at `location`. -/
def follow (root : Directory α) (location : List Bytes) :
    List Bytes → Except FileFault (Spot α)
  | [] =>
    match root.lookup location with
    | some (.folder inner) => .ok (.folder location inner)
    | _ => .error .missing
  | segment :: rest =>
    if Path.stays segment then follow root location rest
    else if segment = Path.up then follow root location.dropLast rest
    else
      let slashes := rest.all (· == [])
      match root.held location segment with
      | some (.folder _) => follow root (location ++ [segment]) rest
      | some (.file content) =>
        if slashes then .ok (.file location segment content (rest != []))
        else .error .notDirectory
      | none =>
        if slashes then .ok (.absent location segment (rest != []))
        else .error (absence segment)

/-- Follows a path, where `base` is the working directory. The empty path leads
nowhere. -/
def resolve (root : Directory α) (base : List Bytes) (p : Path) : Except FileFault (Spot α) :=
  if 0 ∈ p.bytes then .error .nulInName
  else if !fitsPath p then .error .nameTooLong
  else if p.bytes = [] then .error .missing
  else follow root (if p.isAbsolute then [] else base) p.segments

def isDirectory (root : Directory α) (base : List Bytes) (p : Path) : Bool :=
  match root.resolve base p with
  | .ok (.folder ..) => true
  | _ => false

/-- The node that a path leads to. A slash after a name asks for a directory. -/
def node (root : Directory α) (base : List Bytes) (p : Path) : Except FileFault (Node α) :=
  match root.resolve base p with
  | .ok (.folder _ inner) => .ok (.folder inner)
  | .ok (.file _ _ content false) => .ok (.file content)
  | .ok (.file _ _ _ true) => .error .notDirectory
  | .ok (.absent _ name _) => .error (absence name)
  | .error fault => .error fault

def read (root : Directory α) (base : List Bytes) (p : Path) : Except FileFault α :=
  match root.node base p with
  | .ok (.file content) => .ok content
  | .ok (.folder _) => .error .isDirectory
  | .error fault => .error fault

/-- Writes a file, which is made if it is missing. -/
def write (root : Directory α) (base : List Bytes) (p : Path) (content : α) :
    Except FileFault (Directory α) :=
  match root.resolve base p with
  | .ok (.file parent name _ false) =>
    .ok (root.modifyAt (put name (.file content)) parent)
  | .ok (.absent parent name false) =>
    if fitsName name then .ok (root.modifyAt (put name (.file content)) parent)
    else .error .nameTooLong
  | .ok _ => .error .isDirectory
  | .error fault => .error fault

/-- Makes an empty directory. -/
def makeDirectory (root : Directory α) (base : List Bytes) (p : Path) :
    Except FileFault (Directory α) :=
  match root.resolve base p with
  | .ok (.absent parent name _) =>
    if fitsName name then .ok (root.modifyAt (put name (.folder empty)) parent)
    else .error .nameTooLong
  | .ok _ => .error .alreadyExists
  | .error fault => .error fault

/-- Puts a node at the end of a list of names and makes the directories on the way. -/
def plant (node : Node α) (root : Directory α) : List Bytes → Directory α
  | [] => root
  | [name] => root.put name node
  | name :: names =>
    match root.find? name with
    | some (.folder inner) => root.put name (.folder (plant node inner names))
    | _ => root.put name (.folder (plant node empty names))

/-- Puts the entries in the order of their names and joins what they hold. -/
def byName (entries : List (Bytes × List β)) : List β :=
  (entries.mergeSort fun a b => decide (a.1 ≤ b.1)).flatMap (·.2)

/-- What is met under each entry of the directory at `p`. -/
def visitsByEntry (p : Path) : Directory α → List (Bytes × List Visit)
  | empty => []
  | file name _ others => (name, [⟨p.child name, true⟩]) :: others.visitsByEntry p
  | folder name inner others =>
    (name, ⟨p.child name, false⟩ :: byName (inner.visitsByEntry (p.child name))) ::
      others.visitsByEntry p

/-- What is met below the directory at `p`, depth first, the entries of each directory
in the order of their names. -/
def visits (p : Path) (d : Directory α) : List Visit := byName (d.visitsByEntry p)

/-- The files below the directory at `p`. -/
def files (p : Path) (d : Directory α) : List Path :=
  ((d.visits p).filter (·.isFile)).map (·.path)

/-- The first directory below the one at `p` whose path is too long to be followed. -/
def tooDeep? (p : Path) (d : Directory α) : Option Path :=
  ((d.visits p).find? fun v => !v.isFile && !fitsPath v.path).map (·.path)

/-- The same entries without any content, and with nothing in the inner directories
unless `deep`. -/
def outline (deep : Bool) : Directory α → Directory Unit
  | empty => empty
  | file name _ others => file name () (others.outline deep)
  | folder name inner others =>
    folder name (if deep then inner.outline deep else empty) (others.outline deep)

/-- Every file with its content and every directory, by their names from the root. -/
def listing (location : List Bytes) : Directory α → List (List Bytes × Option α)
  | empty => []
  | file name content others => (location ++ [name], some content) :: others.listing location
  | folder name inner others =>
    (location ++ [name], none) :: (inner.listing (location ++ [name]) ++ others.listing location)

end Directory

end Scriptwright
