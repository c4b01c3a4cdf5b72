import Scriptwright.Proofs.Token.Lexicon

/-!
# Cutting a text into gaps and lexemes

A cut of a text names its lexemes and the gaps around them, so that together they make up
the text. If each lexeme is the longest one at its place, there is only one way to cut a
text, and the scanner finds it whenever there is one: its tokens are the lexemes of the
cut, each with its kind, its value and the bytes that it takes.

The parts of a cut are found in one way. Two lexemes that end where they stand and begin the
same text are taken by the scanner for the same kind, over the same characters. The other
parts are told apart by the character that they begin with or stop before.
-/

namespace Scriptwright.Lexicon
open Scan

/-- Lexemes with a gap before each of them and one behind the last. -/
inductive Cut where
  | done (gap : Gap)
  | lexeme (gap : Gap) (l : Lexeme) (more : Cut)

namespace Cut

def characters : Cut → List Char
  | done gap => gap.characters
  | lexeme gap l more => gap.characters ++ (l.characters ++ more.characters)

/-- Each comment and each lexeme ends where nothing makes it longer. -/
def Longest : Cut → Prop
  | done gap => gap.EndsBefore []
  | lexeme gap l more =>
    gap.EndsBefore (l.characters ++ more.characters) ∧ l.EndsBefore more.characters ∧ more.Longest

def lexemes : Cut → List Lexeme
  | done _ => []
  | lexeme _ l more => l :: more.lexemes

/-- The tokens of a text that begins at byte `offset`. -/
def tokens (file offset : Nat) : Cut → List Token
  | done gap => [.finish file (offset + byteLength gap.characters)]
  | lexeme gap l more =>
    let start := offset + byteLength gap.characters
    let stop := start + byteLength l.characters
    ⟨l.kind, String.ofList l.characters, l.value file start, ⟨file, start, stop⟩⟩ ::
      more.tokens file stop

/-- The cut makes up the text, and its parts are as long as can be. -/
structure Of (text : String) (cut : Cut) : Prop where
  characters : cut.characters = text.toList
  longest : cut.Longest

/-- The cut with a blank or a comment more in front. -/
def skip (t : Trivia) : Cut → Cut
  | done gap => done (t :: gap)
  | lexeme gap l more => lexeme (t :: gap) l more

end Cut

theorem Gap.characters_cons (t : Trivia) (g : Gap) :
    Gap.characters (t :: g) = t.characters ++ Gap.characters g := List.flatMap_cons

theorem not_isBlank_of_isDigit {c : Char} (h : c.isDigit = true) : isBlank c = false := by
  by_contra hblank
  simp only [isBlank, Bool.not_eq_false, Bool.or_eq_true, beq_iff_eq] at hblank
  rcases hblank with ((rfl | rfl) | rfl) | rfl <;> cases h

theorem not_isBlank_of_isNameStart {c : Char} (h : isNameStart c = true) :
    isBlank c = false := by
  by_contra hblank
  simp only [isBlank, Bool.not_eq_false, Bool.or_eq_true, beq_iff_eq] at hblank
  rcases hblank with ((rfl | rfl) | rfl) | rfl <;> cases h

/-- The characters begin neither with a blank nor with a comment. -/
def BeginsLexeme (cs : List Char) : Prop :=
  ∃ c rest, cs = c :: rest ∧ isBlank c = false ∧ ¬ (c = '/' ∧ rest.head? = some '/')

theorem beginsLexeme_of_ne {c : Char} (hblank : isBlank c = false) (hc : c ≠ '/')
    (rest : List Char) : BeginsLexeme (c :: rest) :=
  ⟨c, rest, rfl, hblank, fun h => hc h.1⟩

theorem Sign.begins (s : Sign) {rest : List Char}
    (h : ∀ c ∈ lengthens? s.kind, rest.head? ≠ some c) : BeginsLexeme (s.spelling ++ rest) := by
  obtain ⟨kind, spelling, hspells⟩ := s
  cases kind <;> cases hspells
  case slash => exact ⟨'/', rest, rfl, rfl, fun hc => h '/' rfl hc.2⟩
  all_goals exact beginsLexeme_of_ne rfl (by decide) _

theorem Lexeme.begins (l : Lexeme) {rest : List Char} (h : l.EndsBefore rest) :
    BeginsLexeme (l.characters ++ rest) := by
  have hdigit (c : One Char.isDigit) (cs : List Char) : BeginsLexeme (c.val :: cs) := by
    refine beginsLexeme_of_ne (not_isBlank_of_isDigit c.property) ?_ cs
    intro hc
    have hslash := c.property
    rw [hc] at hslash
    cases hslash
  cases l with
  | sign s => exact s.begins h
  | word name =>
    refine beginsLexeme_of_ne (not_isBlank_of_isNameStart name.first.property) ?_ _
    intro hc
    have hslash := name.first.property
    rw [hc] at hslash
    cases hslash
  | whole first more => exact hdigit first _
  | decimal first more place places => exact hdigit first _
  | text content => exact beginsLexeme_of_ne rfl (by decide) _
  | template body => exact beginsLexeme_of_ne rfl (by decide) _

theorem tokens_gap (file offset : Nat) {g : Gap} {rest : List Char} (h : g.EndsBefore rest) :
    Scan.tokens file offset (g.characters ++ rest) =
      Scan.tokens file (offset + byteLength g.characters) rest := by
  induction g generalizing offset with
  | nil => rfl
  | cons t g ih =>
    rw [Gap.characters_cons, List.append_assoc, byteLength_append, ← Nat.add_assoc, ← ih _ h.2]
    cases t with
    | blank c => exact tokens_blank c.property
    | comment content =>
      have hends : Stops (· != '\n') (Gap.characters g ++ rest) := h.1
      have htake : ('/' :: (content.val ++ (Gap.characters g ++ rest))).takeWhile (· != '\n') =
          '/' :: content.val := by
        rw [List.takeWhile_cons_of_pos rfl, content.takeWhile hends]
      change Scan.tokens file offset
        ('/' :: '/' :: (content.val ++ (Gap.characters g ++ rest))) = _
      rw [tokens_comment (by decide) ⟨rfl, rfl⟩, htake, List.length_cons, List.drop_succ_cons,
        List.drop_left]
      rfl

theorem tokens_cons {file offset : Nat} {l : Lexeme} {rest : List Char} (h : l.EndsBefore rest)
    {later : List Token}
    (hlater : Scan.tokens file (offset + byteLength l.characters) rest = .ok later) :
    Scan.tokens file offset (l.characters ++ rest) =
      .ok (⟨l.kind, String.ofList l.characters, l.value file offset,
        ⟨file, offset, offset + byteLength l.characters⟩⟩ :: later) := by
  obtain ⟨c, cs, hl, hlexeme⟩ := l.scan file offset h
  obtain ⟨_, _, hbegin, hblank, hcomment⟩ := l.begins h
  rw [hl, List.cons_append] at hbegin ⊢
  rw [hl] at hlater
  cases hbegin
  rw [tokens_lexeme (by simp [hblank]) hcomment, lexeme_eq_ok_iff.mpr hlexeme]
  change (Scan.tokens file (offset + byteLength (c :: (cs ++ rest).take cs.length))
    ((cs ++ rest).drop cs.length) >>= _) = _
  rw [List.take_left, List.drop_left, hlater]
  rfl

/-- The scanner finds the tokens of a cut. -/
theorem Cut.scan (file offset : Nat) {cut : Cut} (h : cut.Longest) :
    Scan.tokens file offset cut.characters = .ok (cut.tokens file offset) := by
  induction cut generalizing offset with
  | done gap =>
    have hgap := tokens_gap file offset h
    rw [List.append_nil] at hgap
    rw [characters, hgap, Scan.tokens, tokens]
  | lexeme gap l more ih =>
    rw [characters, tokens_gap file offset h.1, tokens_cons h.2.1 (ih _ h.2.2)]
    rfl

namespace Cut

theorem characters_skip (t : Trivia) (cut : Cut) :
    (cut.skip t).characters = t.characters ++ cut.characters := by
  cases cut with
  | done gap => exact Gap.characters_cons t gap
  | lexeme gap l more => rw [skip, characters, Gap.characters_cons, List.append_assoc, characters]

theorem longest_skip {t : Trivia} {cut : Cut} (ht : t.EndsBefore cut.characters)
    (h : cut.Longest) : (cut.skip t).Longest := by
  cases cut with
  | done gap =>
    refine ⟨?_, h⟩
    rw [List.append_nil]
    exact ht
  | lexeme gap l more => exact ⟨⟨ht, h.1⟩, h.2⟩

end Cut

theorem exists_cut {file offset : Nat} {cs : List Char} {ts : List Token}
    (h : Scan.tokens file offset cs = .ok ts) : ∃ cut : Cut, cut.characters = cs ∧ cut.Longest := by
  fun_induction Scan.tokens file offset cs generalizing ts
  case case1 => exact ⟨.done [], rfl, trivial⟩
  case case2 c cs hblank ih =>
    obtain ⟨cut, rfl, hlongest⟩ := ih h
    exact ⟨cut.skip (.blank ⟨c, hblank⟩), cut.characters_skip _, cut.longest_skip trivial hlongest⟩
  case case3 c cs hblank hcomment comment ih =>
    obtain ⟨rfl, hhead⟩ := hcomment
    obtain ⟨cs, rfl⟩ := List.head?_eq_some_iff.mp hhead
    obtain ⟨content, rest, rfl, hrest⟩ := exists_run (· != '\n') cs
    have hcomment : comment = '/' :: content.val := by
      change ('/' :: (content.val ++ rest)).takeWhile (· != '\n') = _
      rw [List.takeWhile_cons_of_pos rfl, content.takeWhile hrest]
    rw [hcomment, List.length_cons, List.drop_succ_cons, List.drop_left] at ih h
    obtain ⟨cut, rfl, hlongest⟩ := ih h
    exact ⟨cut.skip (.comment content), cut.characters_skip _, cut.longest_skip hrest hlongest⟩
  case case4 => cases h
  case case5 => cases h
  case case6 offset c cs hblank hcomment kind value n hlexeme characters stop later hlater ih =>
    obtain ⟨more, hmore, hlongest⟩ := ih hlater
    obtain ⟨l, hl, -, -, hends⟩ := Lexeme.exists_of_scan (lexeme_eq_ok_iff.mp hlexeme) hcomment
    refine ⟨.lexeme [] l more, ?_, trivial, ?_, hlongest⟩
    · rw [Cut.characters, hl, hmore]
      simp [Gap.characters]
    · rw [hmore]
      exact hends

theorem Run.append_inj {p : Char → Bool} {run run' : Run p} {rest rest' : List Char}
    (hrest : Stops p rest) (hrest' : Stops p rest') (h : run.val ++ rest = run'.val ++ rest') :
    run = run' ∧ rest = rest' := by
  have hrun : run.val = run'.val := by
    rw [← run.takeWhile hrest, h, run'.takeWhile hrest']
  rw [hrun] at h
  exact ⟨Subtype.ext hrun, List.append_cancel_left h⟩

theorem Name.ext_characters {n n' : Name} (h : n.characters = n'.characters) : n = n' := by
  obtain ⟨hfirst, hmore⟩ := List.cons.inj h
  exact Name.ext (Subtype.ext hfirst) (Subtype.ext hmore)

theorem QuotedPart.flatMap_characters_injective :
    Function.Injective (List.flatMap QuotedPart.characters) := by
  intro parts
  induction parts with
  | nil =>
    intro parts' h
    cases parts' with
    | nil => rfl
    | cons part parts' => cases part <;> cases h
  | cons part parts ih =>
    intro parts' h
    cases parts' with
    | nil => cases part <;> cases h
    | cons part' parts' =>
      rw [List.flatMap_cons, List.flatMap_cons] at h
      cases part with
      | plain c =>
        cases part' with
        | plain c' =>
          obtain ⟨hc, hrest⟩ := List.cons.inj h
          rw [Subtype.ext hc, ih hrest]
        | escaped c' =>
          have hc := c.property
          rw [(List.cons.inj h).1] at hc
          cases hc
      | escaped c =>
        cases part' with
        | plain c' =>
          have hc := c'.property
          rw [← (List.cons.inj h).1] at hc
          cases hc
        | escaped c' =>
          obtain ⟨hc, hrest⟩ := List.cons.inj (List.cons.inj h).2
          rw [hc, ih hrest]

theorem Interpolation.append_inj {i i' : Interpolation} {rest rest' : List Char}
    (h : i.inner ++ rest = i'.inner ++ rest') : i = i' ∧ rest = rest' := by
  rw [i.inner_append, i'.inner_append] at h
  obtain ⟨hbefore, h⟩ := Run.append_inj (i.stops_name _) (i'.stops_name _) h
  have hname : i.name.characters = i'.name.characters := by
    rw [← i.name.leadingName (i.stops_after rest), h, i'.name.leadingName (i'.stops_after rest')]
  rw [hname] at h
  obtain ⟨hafter, h⟩ := Run.append_inj (stops_cons rfl rest) (stops_cons rfl rest')
    (List.append_cancel_left h)
  constructor
  · exact Interpolation.ext hbefore (Name.ext_characters hname) hafter
  · exact (List.cons.inj h).2

theorem Template.append_inj {t t' : Template} {rest rest' : List Char}
    (h : t.characters ++ rest = t'.characters ++ rest') : t = t' ∧ rest = rest' := by
  have hstops (c : Char) (cs : List Char) (hc : isTemplateText c = false) :
      Stops isTemplateText (c :: cs) := stops_cons hc cs
  induction t generalizing t' with
  | close content =>
    cases t' with
    | close content' =>
      simp only [characters, List.append_assoc, List.cons_append, List.nil_append] at h
      obtain ⟨hcontent, h⟩ := Run.append_inj (hstops _ _ rfl) (hstops _ _ rfl) h
      exact ⟨congrArg close hcontent, (List.cons.inj h).2⟩
    | name content' i' more' =>
      simp only [characters, List.append_assoc, List.cons_append, List.nil_append] at h
      obtain ⟨-, h⟩ := Run.append_inj (hstops _ _ rfl) (hstops _ _ rfl) h
      cases h
  | name content i more ih =>
    cases t' with
    | close content' =>
      simp only [characters, List.append_assoc, List.cons_append, List.nil_append] at h
      obtain ⟨-, h⟩ := Run.append_inj (hstops _ _ rfl) (hstops _ _ rfl) h
      cases h
    | name content' i' more' =>
      simp only [characters, List.append_assoc, List.cons_append] at h
      obtain ⟨hcontent, h⟩ := Run.append_inj (hstops _ _ rfl) (hstops _ _ rfl) h
      obtain ⟨hi, h⟩ := Interpolation.append_inj (List.cons.inj h).2
      obtain ⟨hmore, hrest⟩ := ih h
      exact ⟨by rw [hcontent, hi, hmore], hrest⟩

namespace Lexeme

theorem exists_sign {l : Lexeme} {s : Sign} (h : l.kind = s.kind) : ∃ s', l = sign s' := by
  have hspells := s.spells
  rw [← h] at hspells
  cases l with
  | sign s' => exact ⟨s', rfl⟩
  | word name =>
    rw [kind_word] at hspells
    split at hspells <;> cases hspells
  | whole | decimal | text | template => cases hspells

theorem exists_word_of_kind {l : Lexeme} {name : Name} (h : l.kind = (word name).kind) :
    ∃ name', l = word name' := by
  cases l with
  | sign s =>
    obtain ⟨s', hs⟩ := exists_sign h.symm
    cases hs
  | word name' => exact ⟨name', rfl⟩
  | whole | decimal | text | template =>
    rw [kind_word] at h
    split at h <;> cases h

theorem not_whole_decimal {first first' place : One Char.isDigit}
    {more more' places : Run Char.isDigit} :
    (whole first more).characters ≠ (decimal first' more' place places).characters := by
  intro h
  have hmore : more.val = more'.val ++ '.' :: place.val :: places.val := (List.cons.inj h).2
  have hdot := more.property '.' (by simp [hmore])
  cases hdot

/-- A lexeme is known from its kind and its characters. -/
theorem ext_characters {l l' : Lexeme} (hkind : l.kind = l'.kind)
    (h : l.characters = l'.characters) : l = l' := by
  cases l with
  | sign s =>
    obtain ⟨s', rfl⟩ := exists_sign hkind.symm
    exact congrArg sign (Sign.ext hkind h)
  | word name =>
    obtain ⟨name', rfl⟩ := exists_word_of_kind hkind.symm
    exact congrArg word (Name.ext_characters h)
  | whole first more =>
    cases l' with
    | sign s => exact absurd (exists_sign hkind) (by simp)
    | word name => exact absurd (exists_word_of_kind hkind) (by simp)
    | whole first' more' =>
      obtain ⟨hfirst, hmore⟩ := List.cons.inj h
      rw [Subtype.ext hfirst, Subtype.ext hmore]
    | decimal => exact absurd h not_whole_decimal
    | text | template => cases hkind
  | decimal first more place places =>
    cases l' with
    | sign s => exact absurd (exists_sign hkind) (by simp)
    | word name => exact absurd (exists_word_of_kind hkind) (by simp)
    | whole => exact absurd h.symm not_whole_decimal
    | decimal first' more' place' places' =>
      obtain ⟨hfirst, hrest⟩ := List.cons.inj h
      obtain ⟨rfl, hdot⟩ := Run.append_inj (stops_cons rfl _) (stops_cons rfl _) hrest
      obtain ⟨hplace, hplaces⟩ := List.cons.inj (List.cons.inj hdot).2
      rw [Subtype.ext hfirst, Subtype.ext hplace, Subtype.ext hplaces]
    | text | template => cases hkind
  | text content =>
    cases l' with
    | sign s => exact absurd (exists_sign hkind) (by simp)
    | word name => exact absurd (exists_word_of_kind hkind) (by simp)
    | whole | decimal | template => cases hkind
    | text content' =>
      have hcontent := List.append_cancel_right (List.cons.inj h).2
      exact congrArg text (QuotedPart.flatMap_characters_injective hcontent)
  | template body =>
    cases l' with
    | sign s => exact absurd (exists_sign hkind) (by simp)
    | word name => exact absurd (exists_word_of_kind hkind) (by simp)
    | whole | decimal | text => cases hkind
    | template body' =>
      have hbody : body.characters ++ [] = body'.characters ++ [] := by
        rw [(List.cons.inj h).2]
      exact congrArg template (Template.append_inj hbody).1

theorem append_inj {l l' : Lexeme} {rest rest' : List Char} (hends : l.EndsBefore rest)
    (hends' : l'.EndsBefore rest') (h : l.characters ++ rest = l'.characters ++ rest') :
    l = l' ∧ rest = rest' := by
  obtain ⟨c, cs, hl, hscan⟩ := l.scan 0 0 hends
  obtain ⟨c', cs', hl', hscan'⟩ := l'.scan 0 0 hends'
  rw [hl, hl'] at h
  obtain ⟨hc, hcs⟩ := List.cons.inj h
  replace hcs : cs ++ rest = cs' ++ rest' := hcs
  have hok := lexeme_eq_ok_iff.mpr hscan
  rw [hc, hcs, lexeme_eq_ok_iff.mpr hscan'] at hok
  simp only [Except.ok.injEq, Prod.mk.injEq] at hok
  obtain ⟨htext, hrest⟩ := List.append_inj hcs hok.2.2.symm
  refine ⟨ext_characters hok.1.symm ?_, hrest⟩
  rw [hl, hl', hc, htext]

end Lexeme

theorem Trivia.append_inj {t t' : Trivia} {rest rest' : List Char} (hends : t.EndsBefore rest)
    (hends' : t'.EndsBefore rest') (h : t.characters ++ rest = t'.characters ++ rest') :
    t = t' ∧ rest = rest' := by
  -- A slash is no blank.
  have hslash (c : One isBlank) : c.val ≠ '/' := by
    intro hc
    have hblank := c.property
    rw [hc] at hblank
    cases hblank
  cases t with
  | blank c =>
    cases t' with
    | blank c' =>
      obtain ⟨hc, hrest⟩ := List.cons.inj h
      exact ⟨congrArg blank (Subtype.ext hc), hrest⟩
    | comment content' => exact absurd (List.cons.inj h).1 (hslash c)
  | comment content =>
    cases t' with
    | blank c' => exact absurd (List.cons.inj h).1.symm (hslash c')
    | comment content' =>
      have hcontent := (List.cons.inj (List.cons.inj h).2).2
      obtain ⟨rfl, hrest⟩ := Run.append_inj hends hends' hcontent
      exact ⟨rfl, hrest⟩

theorem Trivia.not_beginsLexeme (t : Trivia) (rest : List Char) :
    ¬ BeginsLexeme (t.characters ++ rest) := by
  rintro ⟨c, more, hcs, hblank, hcomment⟩
  cases t with
  | blank d =>
    cases hcs
    rw [d.property] at hblank
    cases hblank
  | comment content =>
    cases hcs
    exact hcomment ⟨rfl, rfl⟩

/-- A gap ends before a lexeme or with the text. -/
theorem Gap.append_inj {g g' : Gap} {rest rest' : List Char} (hends : g.EndsBefore rest)
    (hends' : g'.EndsBefore rest') (hrest : rest = [] ∨ BeginsLexeme rest)
    (hrest' : rest' = [] ∨ BeginsLexeme rest')
    (h : g.characters ++ rest = g'.characters ++ rest') : g = g' ∧ rest = rest' := by
  have hstop (t : Trivia) (cs : List Char) (hcs : t.characters ++ cs = [] ∨
      BeginsLexeme (t.characters ++ cs)) : False := by
    rcases hcs with hnil | hbegins
    · cases t <;> cases hnil
    · exact t.not_beginsLexeme cs hbegins
  induction g generalizing g' with
  | nil =>
    cases g' with
    | nil => exact ⟨rfl, h⟩
    | cons t' g' =>
      replace h : rest = t'.characters ++ (characters g' ++ rest') := by
        simpa [characters] using h
      rw [h] at hrest
      exact (hstop t' _ hrest).elim
  | cons t g ih =>
    cases g' with
    | nil =>
      replace h : rest' = t.characters ++ (characters g ++ rest) := by
        simpa [characters] using h.symm
      rw [h] at hrest'
      exact (hstop t _ hrest').elim
    | cons t' g' =>
      rw [Gap.characters_cons, Gap.characters_cons, List.append_assoc, List.append_assoc] at h
      obtain ⟨rfl, hgap⟩ := Trivia.append_inj hends.1 hends'.1 h
      obtain ⟨rfl, hrest⟩ := ih hends.2 hends'.2 hgap
      exact ⟨rfl, hrest⟩

/-- A text is cut in one way. -/
theorem Cut.ext_characters {cut cut' : Cut} (hlongest : cut.Longest) (hlongest' : cut'.Longest)
    (h : cut.characters = cut'.characters) : cut = cut' := by
  have hlexeme {l : Lexeme} {more : Cut} (hends : l.EndsBefore more.characters) :
      l.characters ++ more.characters = [] ∨ BeginsLexeme (l.characters ++ more.characters) :=
    .inr (l.begins hends)
  induction cut generalizing cut' with
  | done gap =>
    cases cut' with
    | done gap' =>
      have hgap : gap.characters ++ [] = gap'.characters ++ [] := by
        rw [show gap.characters = gap'.characters from h]
      rw [(Gap.append_inj hlongest hlongest' (.inl rfl) (.inl rfl) hgap).1]
    | lexeme gap' l' more' =>
      rw [characters, ← List.append_nil gap.characters] at h
      have hnil := (Gap.append_inj hlongest hlongest'.1 (.inl rfl) (hlexeme hlongest'.2.1) h).2
      obtain ⟨_, _, hbegins, -⟩ := l'.begins hlongest'.2.1
      rw [← hnil] at hbegins
      cases hbegins
  | lexeme gap l more ih =>
    cases cut' with
    | done gap' =>
      rw [characters, characters, ← List.append_nil gap'.characters] at h
      have hnil := (Gap.append_inj hlongest.1 hlongest' (hlexeme hlongest.2.1) (.inl rfl) h).2
      obtain ⟨_, _, hbegins, -⟩ := l.begins hlongest.2.1
      rw [hnil] at hbegins
      cases hbegins
    | lexeme gap' l' more' =>
      obtain ⟨rfl, htext⟩ := Gap.append_inj hlongest.1 hlongest'.1 (hlexeme hlongest.2.1)
        (hlexeme hlongest'.2.1) h
      obtain ⟨rfl, hmore⟩ := Lexeme.append_inj hlongest.2.1 hlongest'.2.1 htext
      rw [ih hlongest.2.2 hlongest'.2.2 hmore]

/-- The token's lexeme is not empty and stands in the text at the bytes of its span. -/
def Spells (file : Nat) (text : List Char) (t : Token) : Prop :=
  ∃ before after : List Char, text = before ++ (t.lexeme.toList ++ after) ∧
    t.span = ⟨file, byteLength before, byteLength before + byteLength t.lexeme.toList⟩ ∧
    t.span.start < t.span.stop

theorem Lexeme.byteLength_pos {l : Lexeme} {rest : List Char} (h : l.EndsBefore rest) :
    0 < byteLength l.characters := by
  obtain ⟨c, cs, hl, -⟩ := l.scan 0 0 h
  rw [hl, byteLength_cons]
  have hc := c.utf8Size_pos
  omega

/-- The tokens of a cut, if `before` stands before it. -/
theorem Cut.tokens_spell (file : Nat) {cut : Cut} (h : cut.Longest) (before : List Char) :
    ∃ body : List Token,
      cut.tokens file (byteLength before) =
        body ++ [.finish file (byteLength (before ++ cut.characters))] ∧
      body.map (fun t => (t.kind, t.lexeme)) =
        cut.lexemes.map (fun l => (l.kind, String.ofList l.characters)) ∧
      (∀ t ∈ body, Spells file (before ++ cut.characters) t) ∧
      body.Pairwise (fun t u => t.span.stop ≤ u.span.start) ∧
      ∀ t ∈ body, byteLength before ≤ t.span.start := by
  induction cut generalizing before with
  | done gap =>
    refine ⟨[], ?_, rfl, List.forall_mem_nil _, List.Pairwise.nil, List.forall_mem_nil _⟩
    rw [tokens, characters, byteLength_append]
    rfl
  | lexeme gap l more ih =>
    obtain ⟨body, htokens, hbody, hspells, hpairs, hstarts⟩ :=
      ih h.2.2 (before ++ gap.characters ++ l.characters)
    have htext : before ++ gap.characters ++ l.characters ++ more.characters =
        before ++ (Cut.lexeme gap l more).characters := by
      simp only [characters, List.append_assoc]
    have hpos := l.byteLength_pos h.2.1
    rw [htext] at htokens hspells
    simp only [byteLength_append] at htokens hstarts
    refine ⟨⟨l.kind, String.ofList l.characters,
      l.value file (byteLength before + byteLength gap.characters), ⟨file,
        byteLength before + byteLength gap.characters,
        byteLength before + byteLength gap.characters + byteLength l.characters⟩⟩ :: body,
      ?_, ?_, ?_, ?_, ?_⟩
    · rw [tokens, htokens]
      simp only [byteLength_append]
      rfl
    · rw [List.map_cons, hbody]
      rfl
    · refine List.forall_mem_cons.mpr ⟨⟨before ++ gap.characters, more.characters, ?_, ?_, ?_⟩,
        hspells⟩
      · simp [characters]
      · simp [byteLength_append]
      · simpa using hpos
    · refine List.pairwise_cons.mpr ⟨?_, hpairs⟩
      exact hstarts
    · refine List.forall_mem_cons.mpr ⟨Nat.le_add_right _ _, ?_⟩
      intro t ht
      have hstart := hstarts t ht
      omega

/-- The scanner takes the texts that can be cut into gaps and lexemes, each as long as can
be. There is one such cut, and the tokens are its lexemes in their order, each with the
bytes where it stands, and the end of the text behind them. -/
theorem scan_eq_ok_iff_cut (file : Nat) (text : String) :
    (∀ ts, scan file text = .ok ts ↔ ∃ cut : Cut, cut.Of text ∧ ts = cut.tokens file 0) ∧
    (∀ cut cut' : Cut, cut.Of text → cut'.Of text → cut = cut') ∧
    ∀ cut : Cut, cut.Of text → ∃ body : List Token,
      cut.tokens file 0 = body ++ [.finish file text.utf8ByteSize] ∧
      body.map (fun t => (t.kind, t.lexeme)) =
        cut.lexemes.map (fun l => (l.kind, String.ofList l.characters)) ∧
      (∀ t ∈ body, Spells file text.toList t) ∧
      body.Pairwise (fun t u => t.span.stop ≤ u.span.start) := by
  refine ⟨?_, ?_, ?_⟩
  · intro ts
    constructor
    · intro h
      obtain ⟨cut, hcs, hlongest⟩ := exists_cut h
      refine ⟨cut, ⟨hcs, hlongest⟩, ?_⟩
      have hscan := cut.scan file 0 hlongest
      rw [hcs] at hscan
      exact Except.ok.inj (h.symm.trans hscan)
    · rintro ⟨cut, hcut, rfl⟩
      rw [scan, ← hcut.characters]
      exact cut.scan file 0 hcut.longest
  · intro cut cut' hcut hcut'
    exact Cut.ext_characters hcut.longest hcut'.longest
      (hcut.characters.trans hcut'.characters.symm)
  · intro cut hcut
    obtain ⟨body, htokens, hbody, hspells, hpairs, -⟩ := cut.tokens_spell file hcut.longest []
    rw [List.nil_append, hcut.characters] at htokens hspells
    refine ⟨body, ?_, hbody, hspells, hpairs⟩
    have hsize := utf8ByteSize_ofList text.toList
    rw [String.ofList_toList] at hsize
    rw [hsize]
    exact htokens

end Scriptwright.Lexicon
