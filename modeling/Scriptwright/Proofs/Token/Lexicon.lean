import Scriptwright.Proofs.Token.Concatenation

/-!
# The lexical grammar

A text is made of gaps and lexemes. A gap is a sequence of blanks and comments, and a
lexeme is a sign, a word, a number, a text or a template. The types below say what each of
them is made of. Where it may end is said apart from that: what stands behind it must not
make a longer one of it.

The readers of the scanner take these and nothing else. Each of them is compared with
its part of the grammar in both directions: what it takes is of the class, and it takes all
of a member of the class that ends where it stands.
-/

namespace Scriptwright.Lexicon
open Scan

/-- A character of a class. -/
abbrev One (p : Char → Bool) : Type := { c : Char // p c = true }

/-- Any number of characters of a class. -/
abbrev Run (p : Char → Bool) : Type := { cs : List Char // ∀ c ∈ cs, p c = true }

@[ext]
structure Name where
  first : One isNameStart
  more : Run isNamePart

def Name.characters (n : Name) : List Char := n.first.val :: n.more.val

inductive Trivia where
  | blank (c : One isBlank)
  | comment (content : Run (· != '\n'))

namespace Trivia

def characters : Trivia → List Char
  | blank c => [c.val]
  | comment content => '/' :: '/' :: content.val

/-- A comment runs up to a line break or the end of the text. -/
def EndsBefore (rest : List Char) : Trivia → Prop
  | blank _ => True
  | comment _ => Stops (· != '\n') rest

end Trivia

abbrev Gap : Type := List Trivia

namespace Gap

def characters (g : Gap) : List Char := g.flatMap Trivia.characters

def EndsBefore (rest : List Char) : Gap → Prop
  | [] => True
  | t :: g => t.EndsBefore (characters g ++ rest) ∧ EndsBefore rest g

end Gap

/-- The operators and punctuation marks. -/
def sign? : Kind → Option (List Char)
  | .leftParen => some ['(']
  | .rightParen => some [')']
  | .leftBrace => some ['{']
  | .rightBrace => some ['}']
  | .leftBracket => some ['[']
  | .rightBracket => some [']']
  | .comma => some [',']
  | .dot => some ['.']
  | .minus => some ['-']
  | .plus => some ['+']
  | .semicolon => some [';']
  | .slash => some ['/']
  | .star => some ['*']
  | .colon => some [':']
  | .question => some ['?']
  | .bang => some ['!']
  | .notEqual => some ['!', '=']
  | .equal => some ['=']
  | .equalEqual => some ['=', '=']
  | .greater => some ['>']
  | .greaterEqual => some ['>', '=']
  | .less => some ['<']
  | .lessEqual => some ['<', '=']
  | .emptyBrackets => some ['[', ']']
  | _ => none

/-- The character that makes a longer sign, or the start of a comment, of a sign. -/
def lengthens? : Kind → Option Char
  | .bang | .equal | .greater | .less => some '='
  | .leftBracket => some ']'
  | .slash => some '/'
  | _ => none

@[ext]
structure Sign where
  kind : Kind
  spelling : List Char
  spells : sign? kind = some spelling

/-- What may stand between quotes. A backslash takes any character with it. -/
inductive QuotedPart where
  | plain (c : One fun c => c != '"' && c != '\\')
  | escaped (c : Char)

def QuotedPart.characters : QuotedPart → List Char
  | plain c => [c.val]
  | escaped c => ['\\', c]

/-- A name in braces. -/
@[ext]
structure Interpolation where
  before : Run isSpace
  name : Name
  after : Run isSpace

namespace Interpolation

/-- The characters behind the opening brace. -/
def inner (i : Interpolation) : List Char :=
  i.before.val ++ (i.name.characters ++ (i.after.val ++ ['}']))

/-- The name alone, if the brace stands at byte `opening`. -/
def segment (file opening : Nat) (i : Interpolation) : Segment :=
  let start := opening + 1 + byteLength i.before.val
  .name (String.ofList i.name.characters) ⟨file, start, start + byteLength i.name.characters⟩

end Interpolation

/-- Texts and interpolations by turns, up to the closing backtick. -/
inductive Template where
  | close (content : Run isTemplateText)
  | name (content : Run isTemplateText) (i : Interpolation) (more : Template)

namespace Template

def characters : Template → List Char
  | close content => content.val ++ ['`']
  | name content i more => content.val ++ '{' :: (i.inner ++ more.characters)

/-- The segments of a template that begins at byte `offset`. -/
def segments (file offset : Nat) : Template → List Segment
  | close content => textSegment content.val
  | name content i more =>
    let brace := offset + byteLength content.val
    textSegment content.val ++
      i.segment file brace :: more.segments file (brace + 1 + byteLength i.inner)

end Template

inductive Lexeme where
  | sign (s : Sign)
  | word (name : Name)
  | whole (first : One Char.isDigit) (more : Run Char.isDigit)
  | decimal (first : One Char.isDigit) (more : Run Char.isDigit)
      (place : One Char.isDigit) (places : Run Char.isDigit)
  | text (content : List QuotedPart)
  | template (body : Template)

namespace Lexeme

def characters : Lexeme → List Char
  | sign s => s.spelling
  | word name => name.characters
  | whole first more => first.val :: more.val
  | decimal first more place places => first.val :: (more.val ++ '.' :: place.val :: places.val)
  | text content => '"' :: (content.flatMap QuotedPart.characters ++ ['"'])
  | template body => '`' :: body.characters

/-- A word that a keyword spells is that keyword. -/
def kind : Lexeme → Kind
  | sign s => s.kind
  | word name =>
    match Keyword.ofSpelling? (String.ofList name.characters) with
    | some k => .keyword k
    | none => .identifier
  | whole _ _ | decimal _ _ _ _ => .number
  | text _ => .text
  | template _ => .template

/-- What a lexeme denotes that begins at byte `offset`. -/
def value (file offset : Nat) : Lexeme → Value
  | sign _ | word _ => .none
  | whole first more => .number (.ofDecimal (Nat.ofDigitChars 10 (first.val :: more.val) 0) 0)
  | decimal first more place places =>
    .number (.ofDecimal
      (Nat.ofDigitChars 10 (first.val :: more.val ++ place.val :: places.val) 0)
      (place.val :: places.val).length)
  | text content => .text (String.ofList (content.flatMap QuotedPart.characters))
  | template body =>
    let segments := body.segments file (offset + 1)
    .template (if segments = [] then [.text ""] else segments)

/-- What stands behind the lexeme does not make a longer one of it. -/
def EndsBefore (rest : List Char) : Lexeme → Prop
  | sign s => ∀ c ∈ lengthens? s.kind, rest.head? ≠ some c
  | word _ => Stops isNamePart rest
  | whole _ _ =>
    Stops Char.isDigit rest ∧ ∀ c more, rest = '.' :: c :: more → c.isDigit = false
  | decimal _ _ _ _ => Stops Char.isDigit rest
  | text _ | template _ => True

end Lexeme

theorem stops_cons {p : Char → Bool} {c : Char} (h : p c = false) (cs : List Char) :
    Stops p (c :: cs) := by
  intro d hd
  cases hd
  exact h

theorem exists_run (p : Char → Bool) (cs : List Char) :
    ∃ (run : Run p) (rest : List Char), cs = run.val ++ rest ∧ Stops p rest := by
  refine ⟨⟨cs.takeWhile p, fun _ => mem_takeWhile_true⟩, cs.dropWhile p,
    List.takeWhile_append_dropWhile.symm, ?_⟩
  intro c hc
  have hne : cs.dropWhile p ≠ [] := by
    intro hnil
    rw [hnil] at hc
    cases hc
  have hhead := List.head_dropWhile_not p hne
  rw [List.head?_eq_some_head hne] at hc
  cases hc
  simpa using hhead

theorem Run.takeWhile {p : Char → Bool} (run : Run p) {rest : List Char} (h : Stops p rest) :
    (run.val ++ rest).takeWhile p = run.val :=
  takeWhile_of_stops run.property h

theorem Name.leadingName (n : Name) {rest : List Char} (h : Stops isNamePart rest) :
    Scan.leadingName (n.characters ++ rest) = n.characters := by
  have hfirst := n.first.property
  have hmore := n.more.takeWhile h
  simp only [Scan.leadingName, Name.characters, List.cons_append, hfirst, if_true,
    List.takeWhile_cons, isNamePart_of_isNameStart hfirst, hmore]

theorem exists_name {cs : List Char} (h : Scan.leadingName cs ≠ []) :
    ∃ (n : Name) (rest : List Char), cs = n.characters ++ rest ∧ Stops isNamePart rest := by
  cases cs with
  | nil => exact absurd rfl h
  | cons c cs =>
    by_cases hc : isNameStart c = true
    · obtain ⟨more, rest, rfl, hrest⟩ := exists_run isNamePart cs
      exact ⟨⟨⟨c, hc⟩, more⟩, rest, rfl, hrest⟩
    · exact absurd (by simp [Scan.leadingName, hc]) h

theorem quoted?_sound {cs content : List Char} (h : quoted? cs = some content) :
    ∃ (parts : List QuotedPart) (rest : List Char),
      content = parts.flatMap QuotedPart.characters ∧ cs = content ++ '"' :: rest := by
  fun_induction quoted? cs generalizing content with
  | case1 => cases h
  | case2 cs =>
    cases h
    exact ⟨[], cs, rfl, rfl⟩
  | case3 c cs ih =>
    obtain ⟨inner, hinner, rfl⟩ := Option.map_eq_some_iff.mp h
    obtain ⟨parts, rest, rfl, rfl⟩ := ih hinner
    exact ⟨.escaped c :: parts, rest, rfl, rfl⟩
  | case4 c cs hquote hslash ih =>
    obtain ⟨inner, hinner, rfl⟩ := Option.map_eq_some_iff.mp h
    obtain ⟨parts, rest, rfl, rfl⟩ := ih hinner
    have hplain : (c != '"' && c != '\\') = true := by
      have hne : c ≠ '\\' := by
        intro hc
        cases hcs : parts.flatMap QuotedPart.characters ++ '"' :: rest with
        | nil => simp at hcs
        | cons d ds => exact hslash d ds hc hcs
      simp [show c ≠ '"' from hquote, hne]
    exact ⟨.plain ⟨c, hplain⟩ :: parts, rest, rfl, rfl⟩

theorem quoted?_complete (parts : List QuotedPart) (rest : List Char) :
    quoted? (parts.flatMap QuotedPart.characters ++ '"' :: rest) =
      some (parts.flatMap QuotedPart.characters) := by
  induction parts with
  | nil => rfl
  | cons part parts ih =>
    rw [List.flatMap_cons, List.append_assoc]
    cases part with
    | plain c =>
      have hc := c.property
      simp only [Bool.and_eq_true, bne_iff_ne] at hc
      change quoted? (c.val :: (parts.flatMap QuotedPart.characters ++ '"' :: rest)) = _
      rw [quoted?_plain hc.1 (fun _ _ hslash _ => hc.2 hslash), ih]
      rfl
    | escaped c =>
      change quoted? ('\\' :: c :: (parts.flatMap QuotedPart.characters ++ '"' :: rest)) = _
      rw [quoted?, ih]
      rfl

namespace Interpolation

theorem stops_after (i : Interpolation) (rest : List Char) :
    Stops isNamePart (i.after.val ++ '}' :: rest) := by
  obtain ⟨after, hall⟩ := i.after
  cases after with
  | nil => exact stops_cons rfl rest
  | cons c after =>
    have hc := hall c List.mem_cons_self
    simp only [isSpace, Bool.or_eq_true, beq_iff_eq] at hc
    refine stops_cons ?_ _
    rcases hc with rfl | rfl <;> rfl

theorem stops_name (i : Interpolation) (rest : List Char) :
    Stops isSpace (i.name.characters ++ rest) := by
  have hc := i.name.first.property
  refine stops_cons ?_ _
  by_contra hspace
  simp only [isSpace, Bool.not_eq_false, Bool.or_eq_true, beq_iff_eq] at hspace
  rcases hspace with hspace | hspace <;> rw [hspace] at hc <;> cases hc

theorem inner_append (i : Interpolation) (rest : List Char) :
    i.inner ++ rest = i.before.val ++ (i.name.characters ++ (i.after.val ++ '}' :: rest)) := by
  simp [inner]

end Interpolation

theorem interpolation_complete (file opening : Nat) (i : Interpolation) (rest : List Char) :
    interpolation file opening (i.inner ++ rest) =
      .ok (i.segment file opening, i.inner.length) := by
  have hbrace : Stops isSpace ('}' :: rest) := stops_cons rfl rest
  have hdrop : (i.before.val ++ (i.name.characters ++ (i.after.val ++ '}' :: rest))).drop
      (i.before.val.length + i.name.characters.length) = i.after.val ++ '}' :: rest := by
    rw [← List.drop_drop, List.drop_left, List.drop_left]
  have hnil : i.name.characters ≠ [] := List.cons_ne_nil _ _
  unfold interpolation
  dsimp only
  rw [i.inner_append, i.before.takeWhile (i.stops_name _), List.drop_left,
    i.name.leadingName (i.stops_after rest), if_neg hnil, hdrop, i.after.takeWhile hbrace,
    ← List.drop_drop, hdrop, List.drop_left]
  simp [Interpolation.segment, Interpolation.inner, Nat.add_assoc]

theorem interpolation_sound {file opening : Nat} {cs : List Char} {segment : Segment} {n : Nat}
    (h : interpolation file opening cs = .ok (segment, n)) :
    ∃ (i : Interpolation) (rest : List Char), cs = i.inner ++ rest ∧
      segment = i.segment file opening ∧ n = i.inner.length := by
  -- It is enough to find the parts: how they are read is known.
  suffices hparts : ∃ (i : Interpolation) (rest : List Char), cs = i.inner ++ rest by
    obtain ⟨i, rest, rfl⟩ := hparts
    rw [interpolation_complete] at h
    cases h
    exact ⟨i, rest, rfl, rfl, rfl⟩
  obtain ⟨before, rest, rfl, hrest⟩ := exists_run isSpace cs
  unfold interpolation at h
  dsimp only at h
  rw [before.takeWhile hrest, List.drop_left] at h
  split_ifs at h with hname hbrace
  obtain ⟨name, rest, rfl, hstops⟩ := exists_name hname
  obtain ⟨after, rest, rfl, hspace⟩ := exists_run isSpace rest
  rw [name.leadingName hstops, ← List.drop_drop, ← List.drop_drop, List.drop_left,
    List.drop_left, after.takeWhile hspace, List.drop_left] at hbrace
  obtain ⟨rest, rfl⟩ := List.head?_eq_some_iff.mp hbrace
  exact ⟨⟨before, name, after⟩, rest, by simp [Interpolation.inner]⟩

theorem templateSegments_complete (file opening offset : Nat) (body : Template)
    (rest : List Char) :
    templateSegments file opening offset (body.characters ++ rest) =
      .ok (body.segments file offset, body.characters.length) := by
  induction body generalizing offset with
  | close content =>
    have htick : Stops isTemplateText ('`' :: rest) := stops_cons rfl rest
    have htext : (Template.close content).characters ++ rest = content.val ++ '`' :: rest := by
      simp [Template.characters]
    have htake := content.takeWhile htick
    have hdrop : (content.val ++ '`' :: rest).drop
        ((content.val ++ '`' :: rest).takeWhile isTemplateText).length = '`' :: rest := by
      rw [htake, List.drop_left]
    rw [htext, templateSegments_backtick hdrop, htake]
    simp [Template.characters, Template.segments]
  | name content i more ih =>
    have hopen : Stops isTemplateText ('{' :: (i.inner ++ (more.characters ++ rest))) :=
      stops_cons rfl _
    have htext : (Template.name content i more).characters ++ rest =
        content.val ++ '{' :: (i.inner ++ (more.characters ++ rest)) := by
      simp [Template.characters]
    have htake := content.takeWhile hopen
    rw [htext, templateSegments_brace (by rw [htake, List.drop_left]), htake]
    dsimp only
    rw [interpolation_complete]
    change (templateSegments file opening _ ((i.inner ++ (more.characters ++ rest)).drop
      i.inner.length) >>= _) = _
    rw [List.take_left, List.drop_left, ih]
    simp [Template.characters, Template.segments, pure, Except.pure, bind, Except.bind]
    omega

theorem templateSegments_sound {file opening offset : Nat} {cs : List Char}
    {segments : List Segment} {n : Nat}
    (h : templateSegments file opening offset cs = .ok (segments, n)) :
    ∃ (body : Template) (rest : List Char), cs = body.characters ++ rest := by
  fun_induction templateSegments file opening offset cs generalizing segments n
  case case1 => cases h
  case case2 => cases h
  case case3 offset cs content inner hdrop brace segment m hinner resume later k hlater ih =>
    obtain ⟨i, rest, rfl, -, rfl⟩ := interpolation_sound hinner
    rw [List.drop_left] at ih hlater
    obtain ⟨more, rest, rfl⟩ := ih hlater
    have hsplit := List.take_append_drop content.length cs
    rw [hdrop, take_length_takeWhile] at hsplit
    refine ⟨.name ⟨content, fun _ => mem_takeWhile_true⟩ i more, rest, ?_⟩
    simpa [Template.characters] using hsplit.symm
  case case4 offset cs content rest hdrop =>
    have hsplit := List.take_append_drop content.length cs
    rw [hdrop, take_length_takeWhile] at hsplit
    refine ⟨.close ⟨content, fun _ => mem_takeWhile_true⟩, rest, ?_⟩
    simpa [Template.characters] using hsplit.symm
  case case5 => cases h

theorem fraction_eq_nil_iff {cs : List Char} :
    fraction cs = [] ↔ ∀ c more, cs = '.' :: c :: more → c.isDigit = false := by
  constructor
  · rintro h c more rfl
    by_contra hdigit
    simp [fraction, Bool.of_not_eq_false hdigit] at h
  · intro h
    unfold fraction
    split
    case h_1 cs =>
      cases cs with
      | nil => rfl
      | cons c more => simp [h c more rfl]
    case h_2 => rfl

/-- A number is followed by no digit, or it has a fraction. -/
theorem exists_number (cs : List Char) :
    ∃ (more : Run Char.isDigit) (rest : List Char), cs = more.val ++ rest ∧
      (EndsNumber rest ∨ ∃ (place : One Char.isDigit) (places : Run Char.isDigit)
        (after : List Char), rest = '.' :: place.val :: (places.val ++ after) ∧
          Stops Char.isDigit after) := by
  obtain ⟨more, rest, rfl, hrest⟩ := exists_run Char.isDigit cs
  refine ⟨more, rest, rfl, ?_⟩
  by_cases hfraction : fraction rest = []
  · exact .inl ⟨hrest, hfraction⟩
  · rw [fraction_eq_nil_iff] at hfraction
    push Not at hfraction
    obtain ⟨c, after, rfl, hc⟩ := hfraction
    obtain ⟨places, after, rfl, hafter⟩ := exists_run Char.isDigit after
    exact .inr ⟨⟨c, Bool.of_not_eq_false hc⟩, places, after, rfl, hafter⟩

theorem scanned_number {file offset : Nat} {c : Char} {cs : List Char} {value : Binary64} {n : Nat}
    (hc : c.isDigit = true) (h : number c cs = (value, n)) :
    Scan.Lexeme file offset c cs .number (.number value) n := by
  have hlexeme : Scan.Lexeme file offset c cs .number (.number (number c cs).1) (number c cs).2 :=
    .number hc
  rwa [h] at hlexeme

/-- A sign is the longest one at its place, if no comment begins there. -/
theorem symbol?_sound {c : Char} {cs : List Char} {kind : Kind} {n : Nat}
    (h : symbol? c cs = some (kind, n)) (hcomment : ¬ (c = '/' ∧ cs.head? = some '/')) :
    ∃ s : Sign, s.kind = kind ∧ s.spelling = c :: cs.take n ∧
      ∀ d ∈ lengthens? kind, (cs.drop n).head? ≠ some d := by
  suffices hparts : sign? kind = some (c :: cs.take n) ∧
      ∀ d ∈ lengthens? kind, (cs.drop n).head? ≠ some d from
    ⟨⟨kind, _, hparts.1⟩, rfl, rfl, hparts.2⟩
  unfold symbol? at h
  dsimp only at h
  split at h
  all_goals (try split at h)
  all_goals cases h
  all_goals simp_all [sign?, lengthens?, List.take_one]

theorem symbol?_complete (s : Sign) {rest : List Char}
    (h : ∀ c ∈ lengthens? s.kind, rest.head? ≠ some c) :
    ∃ c cs, s.spelling = c :: cs ∧ symbol? c (cs ++ rest) = some (s.kind, cs.length) := by
  obtain ⟨kind, spelling, hspells⟩ := s
  cases kind <;> cases hspells <;> refine ⟨_, _, rfl, ?_⟩ <;> simp_all [symbol?, lengthens?]

theorem exists_word {c : Char} (hc : isNameStart c = true) (cs : List Char) :
    ∃ name : Name, name.characters = c :: cs.takeWhile isNamePart ∧
      Stops isNamePart (cs.drop (cs.takeWhile isNamePart).length) := by
  obtain ⟨more, rest, rfl, hrest⟩ := exists_run isNamePart cs
  refine ⟨⟨⟨c, hc⟩, more⟩, ?_, ?_⟩
  · rw [more.takeWhile hrest]
    rfl
  · rw [more.takeWhile hrest, List.drop_left]
    exact hrest

theorem Lexeme.kind_word (name : Name) :
    (word name).kind = match Keyword.ofSpelling? (String.ofList name.characters) with
      | some k => .keyword k
      | none => .identifier := rfl

theorem scanned_word (file offset : Nat) (name : Name) {rest : List Char}
    (h : Stops isNamePart rest) :
    Scan.Lexeme file offset name.first.val (name.more.val ++ rest) (Lexeme.word name).kind .none
      name.more.val.length := by
  have htake := name.more.takeWhile h
  rw [Lexeme.kind_word, Name.characters]
  cases hword : Keyword.ofSpelling? (String.ofList (name.first.val :: name.more.val)) with
  | none =>
    have hlexeme : Scan.Lexeme file offset name.first.val (name.more.val ++ rest) .identifier
        .none ((name.more.val ++ rest).takeWhile isNamePart).length :=
      .identifier name.first.property (by rw [htake, hword])
    rwa [htake] at hlexeme
  | some k =>
    have hlexeme : Scan.Lexeme file offset name.first.val (name.more.val ++ rest) (.keyword k)
        .none ((name.more.val ++ rest).takeWhile isNamePart).length :=
      .keyword name.first.property (by rw [htake, hword])
    rwa [htake] at hlexeme

namespace Lexeme

/-- What the scanner takes for a lexeme is one, and it ends there. -/
theorem exists_of_scan {file offset : Nat} {c : Char} {cs : List Char} {kind : Kind}
    {value : Value} {n : Nat} (h : Scan.Lexeme file offset c cs kind value n)
    (hcomment : ¬ (c = '/' ∧ cs.head? = some '/')) :
    ∃ l : Lexeme, l.characters = c :: cs.take n ∧ l.kind = kind ∧
      l.value file offset = value ∧ l.EndsBefore (cs.drop n) := by
  cases h with
  | text hc h =>
    obtain ⟨parts, rest, rfl, rfl⟩ := quoted?_sound h
    refine ⟨.text parts, ?_, rfl, rfl, trivial⟩
    rw [hc, List.take_length_add_append]
    rfl
  | template hc h =>
    obtain ⟨body, rest, rfl⟩ := templateSegments_sound h
    rw [templateSegments_complete] at h
    cases h
    refine ⟨.template body, ?_, rfl, rfl, trivial⟩
    rw [List.take_left, hc]
    rfl
  | number hc =>
    obtain ⟨more, rest, rfl, hends | ⟨place, places, after, rfl, hafter⟩⟩ := exists_number cs
    · rw [number_whole c more.property hends]
      refine ⟨.whole ⟨c, hc⟩ more, ?_, rfl, rfl, ?_⟩
      · rw [List.take_left]
        rfl
      · rw [List.drop_left]
        exact ⟨hends.1, fraction_eq_nil_iff.mp hends.2⟩
    · have hplaces : ∀ d ∈ place.val :: places.val, d.isDigit = true :=
        List.forall_mem_cons.mpr ⟨place.property, places.property⟩
      have hnumber := number_fraction c more.property hplaces (List.cons_ne_nil _ _) hafter
      rw [List.cons_append] at hnumber
      rw [hnumber]
      have htext : more.val ++ '.' :: place.val :: (places.val ++ after) =
          (more.val ++ '.' :: place.val :: places.val) ++ after := by simp
      have hlength : more.val.length + ((place.val :: places.val).length + 1) =
          (more.val ++ '.' :: place.val :: places.val).length := by simp
      refine ⟨.decimal ⟨c, hc⟩ more place places, ?_, rfl, rfl, ?_⟩
      · rw [hlength, htext, List.take_left]
        rfl
      · rw [hlength, htext, List.drop_left]
        exact hafter
  | identifier hc h =>
    obtain ⟨name, hname, hrest⟩ := exists_word hc cs
    refine ⟨.word name, ?_, ?_, rfl, hrest⟩
    · rw [take_length_takeWhile]
      exact hname
    · rw [kind_word, hname, h]
  | keyword hc h =>
    obtain ⟨name, hname, hrest⟩ := exists_word hc cs
    refine ⟨.word name, ?_, ?_, rfl, hrest⟩
    · rw [take_length_takeWhile]
      exact hname
    · rw [kind_word, hname, h]
  | symbol h =>
    obtain ⟨s, rfl, hspelling, hends⟩ := symbol?_sound h hcomment
    exact ⟨.sign s, hspelling, rfl, rfl, hends⟩

/-- A lexeme that ends where it stands is taken for what it is. -/
theorem scan (file offset : Nat) (l : Lexeme) {rest : List Char} (h : l.EndsBefore rest) :
    ∃ c cs, l.characters = c :: cs ∧
      Scan.Lexeme file offset c (cs ++ rest) l.kind (l.value file offset) cs.length := by
  cases l with
  | sign s =>
    obtain ⟨c, cs, hspelling, hsymbol⟩ := symbol?_complete s h
    exact ⟨c, cs, hspelling, .symbol hsymbol⟩
  | word name =>
    exact ⟨name.first.val, name.more.val, rfl, scanned_word file offset name h⟩
  | whole first more =>
    have hnumber := number_whole first.val more.property ⟨h.1, fraction_eq_nil_iff.mpr h.2⟩
    exact ⟨first.val, more.val, rfl, scanned_number first.property hnumber⟩
  | decimal first more place places =>
    have hplaces : ∀ d ∈ place.val :: places.val, d.isDigit = true :=
      List.forall_mem_cons.mpr ⟨place.property, places.property⟩
    have hnumber := number_fraction first.val more.property hplaces (List.cons_ne_nil _ _) h
    refine ⟨first.val, more.val ++ '.' :: place.val :: places.val, rfl, ?_⟩
    have htext : (more.val ++ '.' :: place.val :: places.val) ++ rest =
        more.val ++ '.' :: (place.val :: places.val ++ rest) := by simp
    have hlength : (more.val ++ '.' :: place.val :: places.val).length =
        more.val.length + ((place.val :: places.val).length + 1) := by simp
    rw [htext, hlength]
    exact scanned_number first.property hnumber
  | text content =>
    have hquoted := quoted?_complete content rest
    have hlexeme : Scan.Lexeme file offset '"'
        (content.flatMap QuotedPart.characters ++ '"' :: rest) .text
        (.text (String.ofList (content.flatMap QuotedPart.characters)))
        ((content.flatMap QuotedPart.characters).length + 1) := .text rfl hquoted
    refine ⟨'"', content.flatMap QuotedPart.characters ++ ['"'], rfl, ?_⟩
    rw [List.append_assoc, List.length_append]
    exact hlexeme
  | template body =>
    have hbody := templateSegments_complete file offset (offset + 1) body rest
    exact ⟨'`', body.characters, rfl, .template rfl hbody⟩

end Lexeme

end Scriptwright.Lexicon
