/-!
# Stretches of source text

A span is a half-open range of byte offsets in one numbered file. Tokens, tree
nodes and errors all carry one. The only operation on spans is `cover`, which
joins the span of a construct's first token with that of its last.

Offsets and file numbers are natural numbers without a bound. Where they are held in 32 bits,
they are the same for texts of fewer than `2 ^ 32` bytes and as many files, and what is proved
of spans says nothing of longer texts there.
-/

namespace Scriptwright

/-- The bytes `start ≤ i < stop` of the file numbered `file`. -/
structure Span where
  file : Nat
  start : Nat
  stop : Nat
  deriving DecidableEq, Repr, Inhabited

namespace Span

/-- The empty span at one offset. -/
def point (file offset : Nat) : Span := ⟨file, offset, offset⟩

/-- The smallest span that covers the offsets of both. The file is that of the
first: both come from one text wherever a program is read from its tokens. -/
def cover (a b : Span) : Span := ⟨a.file, min a.start b.start, max a.stop b.stop⟩

end Span

end Scriptwright
