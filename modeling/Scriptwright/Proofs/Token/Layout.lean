import Scriptwright.Proofs.Token.Cut

/-!
# Writing the lexemes of a text in another layout

The lexemes of a text can be written down again with other blanks and comments around them.
A blank ends every lexeme, whatever comes after it, so a text in which each two lexemes
have a separator that begins with a blank is cut into the same lexemes again. Its tokens
differ from those of the first text in nothing but their spans.
-/

namespace Scriptwright

/-- The token without its places: kind, lexeme and value are as they were. -/
def Token.unplaced (t : Token) : Token := t.relabel fun _ => .point 0 0

namespace Lexicon
open Scan

/-- A blank, or a comment together with the line break behind it. -/
inductive Filler where
  | blank (c : One isBlank)
  | comment (content : Run (· != '\n'))

def Filler.characters : Filler → List Char
  | blank c => [c.val]
  | comment content => '/' :: '/' :: (content.val ++ ['\n'])

/-- What may stand between two lexemes, whichever they are. -/
structure Separator where
  first : One isBlank
  more : List Filler

def Separator.characters (s : Separator) : List Char :=
  s.first.val :: s.more.flatMap Filler.characters

/-- The words in their order, with a separator between each two of them and perhaps one
behind the last. -/
inductive Spread : List String → List Char → Prop
  | nil : Spread [] []
  | last (word : String) : Spread [word] word.toList
  | cons (word : String) (separator : Separator) {words : List String} {cs : List Char}
      (more : Spread words cs) :
      Spread (word :: words) (word.toList ++ (separator.characters ++ cs))

/-- The text consists of the words, spread out, with any filling before them. -/
def LaidOut (words : List String) (text : String) : Prop :=
  ∃ (lead : List Filler) (cs : List Char),
    text.toList = lead.flatMap Filler.characters ++ cs ∧ Spread words cs

namespace Filler

/-- The line break ends the comment and is a blank of its own. -/
def gap : Filler → Gap
  | blank c => [.blank c]
  | comment content => [.comment content, .blank ⟨'\n', rfl⟩]

theorem characters_gap (f : Filler) : f.gap.characters = f.characters := by
  cases f with
  | blank c => rfl
  | comment content => simp [gap, characters, Gap.characters, Trivia.characters]

theorem endsBefore_gap (f : Filler) (g : Gap) {rest : List Char} (h : g.EndsBefore rest) :
    Gap.EndsBefore rest (f.gap ++ g) := by
  cases f with
  | blank c => exact ⟨trivial, h⟩
  | comment content => exact ⟨stops_cons rfl _, trivial, h⟩

theorem characters_gaps (fs : List Filler) :
    Gap.characters (fs.flatMap gap) = fs.flatMap characters := by
  induction fs with
  | nil => rfl
  | cons f fs ih =>
    rw [List.flatMap_cons, List.flatMap_cons, ← ih, ← f.characters_gap]
    exact List.flatMap_append

theorem endsBefore_gaps (fs : List Filler) (rest : List Char) :
    Gap.EndsBefore rest (fs.flatMap gap) := by
  induction fs with
  | nil => trivial
  | cons f fs ih => exact f.endsBefore_gap _ ih

end Filler

def Separator.fillers (s : Separator) : List Filler := .blank s.first :: s.more

theorem Separator.characters_fillers (s : Separator) :
    s.fillers.flatMap Filler.characters = s.characters := rfl

theorem not_isDigit_of_isBlank {c : Char} (h : isBlank c = true) : c.isDigit = false := by
  by_contra hdigit
  rw [not_isBlank_of_isDigit (Bool.of_not_eq_false hdigit)] at h
  cases h

theorem not_isNamePart_of_isBlank {c : Char} (h : isBlank c = true) : isNamePart c = false := by
  simp only [isBlank, Bool.or_eq_true, beq_iff_eq] at h
  rcases h with ((rfl | rfl) | rfl) | rfl <;> rfl

theorem not_isBlank_of_lengthens {kind : Kind} {c : Char} (h : c ∈ lengthens? kind) :
    isBlank c = false := by
  cases kind <;> cases h <;> rfl

theorem Lexeme.endsBefore_nil (l : Lexeme) : l.EndsBefore [] := by
  cases l <;> simp [EndsBefore, Stops]

theorem Lexeme.endsBefore_blank (l : Lexeme) {c : Char} (hc : isBlank c = true)
    (rest : List Char) : l.EndsBefore (c :: rest) := by
  have hdigit := not_isDigit_of_isBlank hc
  cases l with
  | sign s =>
    intro d hd hhead
    cases hhead
    rw [not_isBlank_of_lengthens hd] at hc
    cases hc
  | word name => exact stops_cons (not_isNamePart_of_isBlank hc) rest
  | whole first more =>
    refine ⟨stops_cons hdigit rest, ?_⟩
    rintro d ds ⟨⟩
    cases hc
  | decimal first more place places => exact stops_cons hdigit rest
  | text content => trivial
  | template body => trivial

def Lexeme.spelling (l : Lexeme) : String := String.ofList l.characters

theorem Lexeme.toList_spelling (l : Lexeme) : l.spelling.toList = l.characters :=
  String.toList_ofList

/-- Lexemes that are spread out are cut apart again, whatever filling is before them. -/
theorem exists_cut_of_spread {lexemes : List Lexeme} {cs : List Char}
    (h : Spread (lexemes.map Lexeme.spelling) cs) (lead : List Filler) :
    ∃ cut : Cut, cut.lexemes = lexemes ∧
      cut.characters = lead.flatMap Filler.characters ++ cs ∧ cut.Longest := by
  induction lexemes generalizing cs lead with
  | nil =>
    cases h
    refine ⟨.done (lead.flatMap Filler.gap), rfl, ?_, Filler.endsBefore_gaps lead []⟩
    rw [Cut.characters, Filler.characters_gaps, List.append_nil]
  | cons l lexemes ih =>
    -- The lexeme is followed by a cut whose own leading gap is the separator.
    suffices hmore : ∃ more : Cut, more.lexemes = lexemes ∧ cs = l.characters ++ more.characters ∧
        l.EndsBefore more.characters ∧ more.Longest by
      obtain ⟨more, hlexemes, rfl, hends, hlongest⟩ := hmore
      refine ⟨.lexeme (lead.flatMap Filler.gap) l more, ?_, ?_, ?_, hends, hlongest⟩
      · rw [Cut.lexemes, hlexemes]
      · rw [Cut.characters, Filler.characters_gaps]
      · exact Filler.endsBefore_gaps lead _
    generalize hwords : (l :: lexemes).map Lexeme.spelling = words at h
    cases h with
    | nil => cases hwords
    | last word =>
      cases lexemes with
      | nil =>
        cases hwords
        refine ⟨.done [], rfl, ?_, l.endsBefore_nil, trivial⟩
        rw [l.toList_spelling]
        exact (List.append_nil _).symm
      | cons l' lexemes => cases hwords
    | cons word separator hspread =>
      cases hwords
      obtain ⟨more, hlexemes, hcharacters, hlongest⟩ := ih hspread separator.fillers
      rw [separator.characters_fillers] at hcharacters
      refine ⟨more, hlexemes, ?_, ?_, hlongest⟩
      · rw [l.toList_spelling, hcharacters]
      · rw [hcharacters]
        exact l.endsBefore_blank separator.first.property _

theorem Template.segments_unplaced (t : Template) (file offset file' offset' : Nat) :
    (t.segments file offset).map (Segment.relabel fun _ => .point 0 0) =
      (t.segments file' offset').map (Segment.relabel fun _ => .point 0 0) := by
  induction t generalizing offset offset' with
  | close content => simp only [segments, textSegment_relabel]
  | name content i more ih =>
    simp only [segments, List.map_append, List.map_cons, textSegment_relabel]
    rw [ih]
    rfl

theorem Lexeme.value_unplaced (l : Lexeme) (file offset file' offset' : Nat) :
    (l.value file offset).relabel (fun _ => .point 0 0) =
      (l.value file' offset').relabel (fun _ => .point 0 0) := by
  cases l with
  | template body =>
    have hsegments := body.segments_unplaced file (offset + 1) file' (offset' + 1)
    simp only [value, Value.relabel]
    generalize body.segments file (offset + 1) = segments at hsegments ⊢
    generalize body.segments file' (offset' + 1) = segments' at hsegments ⊢
    cases segments with
    | nil =>
      cases segments' with
      | nil => rfl
      | cons s' segments' => cases hsegments
    | cons s segments =>
      cases segments' with
      | nil => cases hsegments
      | cons s' segments' => exact congrArg Value.template hsegments
  | sign | word | whole | decimal | text => rfl

/-- The token of a lexeme that stands nowhere in particular. -/
def Lexeme.unplaced (l : Lexeme) : Token :=
  Token.unplaced ⟨l.kind, l.spelling, l.value 0 0, .point 0 0⟩

theorem Cut.tokens_unplaced (cut : Cut) (file offset : Nat) :
    (cut.tokens file offset).map Token.unplaced =
      cut.lexemes.map Lexeme.unplaced ++ [.finish 0 0] := by
  induction cut generalizing offset with
  | done gap => rfl
  | lexeme gap l more ih =>
    rw [tokens, lexemes, List.map_cons, List.map_cons, ih, List.cons_append]
    simp only [Token.unplaced, Token.relabel, Lexeme.unplaced, Lexeme.spelling]
    rw [l.value_unplaced file _ 0 0]

end Lexicon

end Scriptwright
