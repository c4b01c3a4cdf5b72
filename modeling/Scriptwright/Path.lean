import Scriptwright.Text.Bytes

/-!
# Paths

A path is held as the segments between its slashes, so that its bytes are kept as they
were written: `lib//x.nl` has an empty segment, and a path that begins with a slash
has an empty first one. Empty segments and dots stay where they are, and two dots
go up. The segments are bytes, and only the text of a path shows them as characters.

The last segment that does not stay is the file name, unless it goes up. Its
extension follows its last dot, if that is not its first byte.
-/

namespace Scriptwright

structure Path where
  segments : List Bytes
  deriving DecidableEq, Repr

namespace Path

def slash : UInt8 := '/'.toUInt8

def dot : UInt8 := '.'.toUInt8

/-- The segment that goes up. -/
def up : Bytes := [dot, dot]

/-- The parts between the slashes. -/
def cut : Bytes → List Bytes
  | [] => [[]]
  | b :: bs =>
    if b = slash then [] :: cut bs
    else
      match cut bs with
      | [] => [[b]]
      | s :: ss => (b :: s) :: ss

theorem cut_ne_nil (bs : Bytes) : cut bs ≠ [] := by
  cases bs with
  | nil => simp [cut]
  | cons b bs =>
    simp only [cut]
    split
    · simp
    · split <;> simp

/-- Nothing is lost between the slashes. -/
theorem intercalate_cut (bs : Bytes) : [slash].intercalate (cut bs) = bs := by
  induction bs with
  | nil => rfl
  | cons b bs ih =>
    obtain ⟨s, ss, h⟩ := List.exists_cons_of_ne_nil (cut_ne_nil bs)
    by_cases hb : b = slash <;> cases ss <;>
      simp_all [cut, List.intercalate]

def ofBytes (bs : Bytes) : Path := ⟨cut bs⟩

def ofString (text : String) : Path := ofBytes text

def bytes (p : Path) : Bytes := [slash].intercalate p.segments

/-- A path keeps its bytes. -/
@[simp] theorem bytes_ofBytes (bs : Bytes) : (ofBytes bs).bytes = bs := intercalate_cut bs

/-- The text that shows a path. It may be that of another path too. -/
def text (p : Path) : String := p.bytes.shown

/-- A path that begins with a slash does not start from the working directory. -/
def isAbsolute (p : Path) : Bool := p.segments.head? == some []

/-- Whether a segment leads nowhere else. -/
def stays (segment : Bytes) : Bool := segment == [] || segment == [dot]

/-- The segments from the last to the first, without those at the end that stay. -/
def fromLast (segments : List Bytes) : List Bytes := segments.reverse.dropWhile stays

def fileName? (p : Path) : Option Bytes :=
  match fromLast p.segments with
  | [] => none
  | name :: _ => if name = up then none else some name

/-- A file name without its extension, and the extension. -/
def splitExtension (name : Bytes) : Bytes × Option Bytes :=
  match name.reverse.dropWhile (· != dot) with
  | [] => (name, none)
  | _ :: [] => (name, none)
  | _ :: stem => (stem.reverse, some (name.reverse.takeWhile (· != dot)).reverse)

def extension? (p : Path) : Option Bytes := p.fileName?.bind fun name => (splitExtension name).2

/-- The path with another extension. What follows the file name is cut off. A path
without a file name stays as it is. So does, its old extension apart, a path that
ends in a name with nothing but a dot before the extension: the two dots that are
left go up and name no file. -/
def withExtension (extension : Bytes) (p : Path) : Path :=
  match fromLast p.segments with
  | [] => p
  | name :: before =>
    if name = up then p
    else
      let (stem, old) := splitExtension name
      if stem = [dot] ∧ old.isSome ∧ p.segments.getLast? = some name then ⟨(up :: before).reverse⟩
      else ⟨((stem ++ [dot] ++ extension) :: before).reverse⟩

/-- The path of an entry of the directory `p`. -/
def child (p : Path) (name : Bytes) : Path :=
  if p.segments.getLast? = some [] then ⟨p.segments.dropLast ++ [name]⟩
  else ⟨p.segments ++ [name]⟩

/-- The directory that the last name of a path lies in, unless that is the working
directory or the root. -/
def directory? (p : Path) : Option Path :=
  match p.segments with
  | [] => none
  | first :: others =>
    let lead := if stays first then [first] else []
    match fromLast (if stays first then others else p.segments) with
    | [] => none
    | _ :: outer =>
      match fromLast outer.reverse with
      | [] => none
      | kept => some ⟨lead ++ kept.reverse⟩

theorem length_fromLast_le (segments : List Bytes) :
    (fromLast segments).length ≤ segments.length := by
  have := (List.dropWhile_suffix (l := segments.reverse) (p := stays)).length_le
  simpa [fromLast] using this

theorem length_directory?_lt {p q : Path} (h : p.directory? = some q) :
    q.segments.length < p.segments.length := by
  obtain ⟨segments⟩ := p
  cases segments with
  | nil => simp [directory?] at h
  | cons first others =>
    simp only [directory?] at h
    split at h
    · simp at h
    · rename_i outer eq
      split at h
      · simp at h
      · cases h
        have inner := length_fromLast_le outer.reverse
        have whole := length_fromLast_le (if stays first then others else first :: others)
        rw [eq] at whole
        by_cases s : stays first <;> simp [s] at inner whole ⊢ <;> omega

/-- The directories that a path leads through, the innermost first. -/
def directories (p : Path) : List Path :=
  match _h : p.directory? with
  | none => []
  | some q => q :: q.directories
termination_by p.segments.length
decreasing_by exact length_directory?_lt _h

/-- The extension of source files. -/
def sourceExtension : Bytes := Bytes.ofString "nl"

/-- The extension of the files that hold generated text. -/
def outputExtension : Bytes := Bytes.ofString "js"

def isSource (p : Path) : Bool := p.extension? == some sourceExtension

/-- Where the text generated from a source goes. -/
def output (p : Path) : Path := p.withExtension outputExtension

end Path

end Scriptwright
