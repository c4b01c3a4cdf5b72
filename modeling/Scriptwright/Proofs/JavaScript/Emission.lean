import Scriptwright.JavaScript
import Scriptwright.Proofs.Binary64.Decimal
import Scriptwright.Proofs.JavaScript.Syntax

/-!
# Tokens and templates of emitted text

A name or a number that is emitted is read back as one token, unless the text behind it
lengthens it. An operator stands between blanks or before the first character of an
operand, so no longer sign begins at its place. The text of a template is read back
character by character, if it has no backslash of its own.
-/

namespace Scriptwright

theorem Binary64.javaScript_of_le {x : Binary64} (h : x.bits.toNat ≤ infinityBits) :
    x.javaScript = if x.isInfinite then "Infinity" else String.ofList (shortest x.magnitude) := by
  have hmagnitude := magnitude_of_le h
  have hnan : x.isNaN = false := by
    simp [isNaN, hmagnitude, h]
  have hsign : x.isNegative = false := by
    have hbound : infinityBits < Nat.pow 2 63 := by decide
    simp only [isNegative, decide_eq_false_iff_not]
    omega
  simp [javaScript, hnan, hsign]

namespace JavaScript
open Scan (IsName)

/-- The characters do not lengthen a name or a number before them. -/
abbrev Apart (rest : List Char) : Prop := Scan.Parted isNamePart rest

theorem apart_nil : Apart [] := ⟨nofun, rfl⟩

/-- Most signs part what is before them from what is behind. -/
theorem apart_cons (c : Char) (rest : List Char) (h : (!isNamePart c && c != '.') = true) :
    Apart (c :: rest) := by
  simp only [Bool.and_eq_true, Bool.not_eq_eq_eq_not, Bool.not_true, bne_iff_ne] at h
  refine ⟨?_, ?_⟩
  · rintro _ ⟨⟩
    exact h.1
  · unfold Scan.fraction
    split
    · next heq => exact absurd (List.cons.inj heq).1 h.2
    · rfl

theorem isNamePart_of_isDigit {c : Char} (h : c.isDigit = true) : isNamePart c = true := by
  simp [isNamePart, Char.isAlphanum, h]

theorem Apart.endsNumber {rest : List Char} (h : Apart rest) : Scan.EndsNumber rest :=
  Scan.Parted.endsNumber h fun _ => isNamePart_of_isDigit

theorem isNameStart_of_scan {c : Char} (h : Scan.isNameStart c = true) : isNameStart c = true := by
  unfold Scan.isNameStart at h
  unfold isNameStart
  rw [h]
  rfl

theorem isNamePart_of_scan {c : Char} (h : Scan.isNamePart c = true) : isNamePart c = true := by
  unfold Scan.isNamePart at h
  unfold isNamePart
  rw [h]
  rfl

theorem not_isBlank_of_isNameStart {c : Char} (h : isNameStart c = true) : isBlank c = false := by
  by_contra hblank
  simp only [isBlank, Bool.not_eq_false, Bool.or_eq_true, beq_iff_eq] at hblank
  rcases hblank with ((rfl | rfl) | rfl) | rfl <;> cases h

theorem next?_blank (cs : List Char) : next? (' ' :: cs) = next? cs := rfl

theorem next?_name {name : String} (h : IsName name) {rest : List Char} (hrest : Apart rest) :
    next? (name.toList ++ rest) = some (.name name, rest) := by
  obtain ⟨c, cs, hname, hc, hcs⟩ := h
  have hstart := isNameStart_of_scan hc
  have hparts : ∀ d ∈ cs, isNamePart d = true := fun d hd => isNamePart_of_scan (hcs d hd)
  have hspelling : String.ofList (c :: cs) = name := by
    rw [← hname, String.ofList_toList]
  unfold next?
  rw [hname, List.cons_append,
    List.dropWhile_cons_of_neg (by simp [not_isBlank_of_isNameStart hstart])]
  simp only [hstart, if_true, Scan.takeWhile_of_stops hparts hrest.1,
    Scan.dropWhile_of_stops hparts hrest.1, hspelling]

theorem not_isNameStart_of_isDigit {c : Char} (h : c.isDigit = true) : isNameStart c = false := by
  have hscan := Scan.not_isNameStart_of_isDigit h
  have hdollar : c ≠ '$' := by
    rintro rfl
    cases h
  unfold Scan.isNameStart at hscan
  unfold isNameStart
  rw [hscan]
  simp [hdollar]

theorem next?_number {x : Binary64} {cs rest : List Char} (h : Binary64.ReadAs cs rest x) :
    next? (cs ++ rest) = some (.number x, rest) := by
  obtain ⟨d, ds, rfl, hdigit, hread⟩ := h
  have hblank : isBlank d = false := by
    by_contra hblank
    simp only [isBlank, Bool.not_eq_false, Bool.or_eq_true, beq_iff_eq] at hblank
    rcases hblank with ((rfl | rfl) | rfl) | rfl <;> cases hdigit
  unfold next?
  rw [List.cons_append, List.dropWhile_cons_of_neg (by simp [hblank])]
  simp only [not_isNameStart_of_isDigit hdigit, hdigit, if_true, Bool.false_eq_true, if_false,
    hread, List.drop_left]

theorem next?_operator (op : BinaryOp) (cs : List Char) :
    next? (' ' :: (op.javaScript.toList ++ ' ' :: cs)) = some (.sign op.javaScript, ' ' :: cs) := by
  cases op <;> rfl

theorem binarySign?_javaScript (op : BinaryOp) : binarySign? op.javaScript = some op := by
  cases op <;> rfl

theorem unarySign?_javaScript (op : UnaryOp) : unarySign? op.javaScript = some op := by
  cases op <;> rfl

theorem level_le (op : BinaryOp) : level op ≤ 5 := by
  cases op <;> decide

theorem leadingSign?_of_find {cs : List Char} {s : String}
    (h : signs.find? (fun s => s.toList.isPrefixOf cs) = some s) :
    leadingSign? cs = some (.sign s, cs.drop s.length) := by
  unfold leadingSign?
  rw [h]
  rfl

theorem next?_minus {c : Char} (hminus : c ≠ '-') (hequal : c ≠ '=') (cs : List Char) :
    next? ('-' :: c :: cs) = some (.sign "-", c :: cs) := by
  have h := beq_false_of_ne hminus.symm
  have h' := beq_false_of_ne hequal.symm
  exact leadingSign?_of_find (by simp [signs, List.find?, List.isPrefixOf, h, h'])

theorem next?_bang {c : Char} (hequal : c ≠ '=') (cs : List Char) :
    next? ('!' :: c :: cs) = some (.sign "!", c :: cs) := by
  have h := beq_false_of_ne hequal.symm
  exact leadingSign?_of_find (by simp [signs, List.find?, List.isPrefixOf, h])

theorem next?_point {c : Char} (hpoint : c ≠ '.') (cs : List Char) :
    next? ('.' :: c :: cs) = some (.sign ".", c :: cs) := by
  have h := beq_false_of_ne hpoint.symm
  exact leadingSign?_of_find (by simp [signs, List.find?, List.isPrefixOf, h])

/-- The first character of an operand. -/
def isOpening (c : Char) : Bool :=
  isNameStart c || c.isDigit || c == '(' || c == '[' || c == '{' || c == '`'

theorem next?_prefixSign (op : UnaryOp) {c : Char} (hc : isOpening c = true) (cs : List Char) :
    next? (op.javaScript.toList ++ c :: cs) = some (.sign op.javaScript, c :: cs) := by
  have hequal : c ≠ '=' := by
    rintro rfl
    cases hc
  have hminus : c ≠ '-' := by
    rintro rfl
    cases hc
  cases op with
  | neg => exact next?_minus hminus hequal cs
  | not => exact next?_bang hequal cs

/-- The text of a template is a part unless it is empty. -/
def textParts (content : String) : List Part :=
  if content = "" then [] else [.text content]

/-- Parts that do not begin with text. -/
def BeginsWithCode : List Part → Prop
  | .text _ :: _ => False
  | _ => True

theorem beginsWithCode_nil : BeginsWithCode [] := trivial

theorem foldr_push {parts : List Part} (h : BeginsWithCode parts) (cs : List Char) :
    cs.foldr Part.push parts = textParts (String.ofList cs) ++ parts := by
  induction cs with
  | nil => rfl
  | cons c cs ih =>
    rw [List.foldr_cons, ih]
    cases cs with
    | nil =>
      match parts, h with
      | [], _ => simp [textParts, Part.push]
      | .code t :: parts, _ => simp [textParts, Part.push]
    | cons d cs => simp [textParts, Part.push]

theorem head?_escape_ne_brace {cs : List Char} (h : cs.head? ≠ some '{') {tail : List Char}
    (htail : tail.head? ≠ some '{') : (escape cs ++ tail).head? ≠ some '{' := by
  fun_cases escape cs
  · exact htail
  · simp
  · simp
  · exact h

theorem textCharacter?_of_plain {c : Char} (hslash : c ≠ '\\') (htick : c ≠ '`')
    {cs : List Char} (hdollar : c = '$' → cs.head? ≠ some '{') :
    textCharacter? (c :: cs) = some (c, cs) := by
  unfold textCharacter?
  split
  · next heq => exact absurd (List.cons.inj heq).1 hslash
  · next heq => exact absurd (List.cons.inj heq).1 hslash
  · next heq => exact absurd (List.cons.inj heq).1 hslash
  · next heq => exact absurd (List.cons.inj heq).1 htick
  · next heq =>
    obtain ⟨hc, rfl⟩ := List.cons.inj heq
    exact absurd rfl (hdollar hc)
  · next heq => cases heq
  · next heq =>
    cases heq
    rfl

/-- Escaped text is read back, character by character. -/
theorem readsParts_escape {cs : List Char} (hcs : '\\' ∉ cs) {tail rest : List Char}
    {parts : List Part} (htail : tail.head? ≠ some '{') (h : ReadsParts tail rest parts) :
    ReadsParts (escape cs ++ tail) rest (cs.foldr Part.push parts) := by
  fun_induction escape cs with
  | case1 => exact h
  | case2 cs ih =>
    have hcs : '\\' ∉ cs := fun hmem => hcs (List.mem_cons_of_mem _ hmem)
    exact .character rfl (ih hcs)
  | case3 cs ih =>
    have hcs : '\\' ∉ cs := fun hmem =>
      hcs (List.mem_cons_of_mem _ (List.mem_cons_of_mem _ hmem))
    exact .character rfl (.character rfl (ih hcs))
  | case4 c cs htick hdollar ih =>
    have hslash : c ≠ '\\' := fun hc => hcs (hc ▸ List.mem_cons_self)
    have hcs : '\\' ∉ cs := fun hmem => hcs (List.mem_cons_of_mem _ hmem)
    refine .character (textCharacter?_of_plain hslash htick ?_) (ih hcs)
    intro hc
    refine head?_escape_ne_brace ?_ htail
    intro hhead
    obtain ⟨ds, rfl⟩ := List.head?_eq_some_iff.mp hhead
    exact hdollar ds hc rfl

end JavaScript

end Scriptwright
