/-!
# Texts as bytes

The names of files and the words of a command line are bytes, which need not encode a text.
A text stands for the bytes that encode it.

Where bytes have to be shown, a sign takes the place of what encodes no character. There is
one sign for as many bytes as a character may begin with, and one for every byte that no
character begins with.
-/

namespace Scriptwright

/-- Bytes that may encode a text. -/
abbrev Bytes := List UInt8

namespace Bytes

/-- The bytes that encode a text. -/
def ofString (text : String) : Bytes := text.toUTF8.data.toList

instance : Coe String Bytes := ⟨ofString⟩

/-- The text that the bytes encode, if they encode one. -/
def text? (bs : Bytes) : Option String := String.fromUTF8? ⟨bs.toArray⟩

/-- Whether a byte can stand inside of a character. -/
def continues (b : UInt8) : Bool := 0x80 ≤ b && b ≤ 0xBF

/-- The least and the greatest byte that can come second in a character of several bytes that
begins with `b`, and how many come after that. -/
def second? (b : UInt8) : Option (UInt8 × UInt8 × Nat) :=
  if b < 0xC2 then none
  else if b < 0xE0 then some (0x80, 0xBF, 0)
  else if b = 0xE0 then some (0xA0, 0xBF, 1)
  else if b = 0xED then some (0x80, 0x9F, 1)
  else if b < 0xF0 then some (0x80, 0xBF, 1)
  else if b = 0xF0 then some (0x90, 0xBF, 2)
  else if b < 0xF4 then some (0x80, 0xBF, 2)
  else if b = 0xF4 then some (0x80, 0x8F, 2)
  else none

/-- How many bytes behind `b` are lost together with it, if no character is complete. -/
def lost (b : UInt8) (bs : Bytes) : Nat :=
  match second? b, bs with
  | some (least, greatest, more), c :: cs =>
    if least ≤ c ∧ c ≤ greatest then 1 + ((cs.take more).takeWhile continues).length else 0
  | _, _ => 0

/-- The character at the front of the bytes. No character has more than four. -/
def front? (bs : Bytes) : Option Char := (bs.take 4).toByteArray.utf8DecodeChar? 0

/-- The characters that show the bytes after the first `skip`, which have been shown. -/
def shownFrom (skip : Nat) : Bytes → List Char
  | [] => []
  | b :: bs =>
    match skip with
    | skip + 1 => shownFrom skip bs
    | 0 =>
      match front? (b :: bs) with
      | some c => c :: shownFrom (c.utf8Size - 1) bs
      | none => '\uFFFD' :: shownFrom (lost b bs) bs

/-- The text that shows the bytes. -/
def shown (bs : Bytes) : String := String.ofList (shownFrom 0 bs)

end Bytes

end Scriptwright
