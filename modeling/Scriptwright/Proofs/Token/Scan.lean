import Mathlib.Data.List.Chain
import Scriptwright.Token.Scan

/-!
# What the scanner reads

A reader of names or digits takes the characters of its class and stops before the first
other one, so it reads back what was written if nothing of the class follows.

A token before the last one is a lexeme of the text. Hence an identifier is a name, a
number is not negative, and in a template names divide the texts.
-/

namespace Scriptwright

theorem eq_ok_of_mem_toOption {ε α : Type} {x : Except ε α} {a : α} (h : a ∈ x.toOption) :
    x = .ok a := by
  cases x with
  | error e => cases h
  | ok b =>
    cases h
    rfl

namespace Scan

/-- The first of the characters, if there is one, is not in the class. -/
def Stops (p : Char → Bool) (rest : List Char) : Prop := ∀ c ∈ rest.head?, p c = false

section Classes
variable {p : Char → Bool} {cs rest : List Char}

theorem takeWhile_of_stops (hcs : ∀ c ∈ cs, p c = true) (hrest : Stops p rest) :
    (cs ++ rest).takeWhile p = cs := by
  have hempty : rest.takeWhile p = [] := by
    cases rest with
    | nil => rfl
    | cons c rest => exact List.takeWhile_cons_of_neg (by simp [hrest c rfl])
  rw [List.takeWhile_append_of_pos hcs, hempty, List.append_nil]

theorem dropWhile_of_stops (hcs : ∀ c ∈ cs, p c = true) (hrest : Stops p rest) :
    (cs ++ rest).dropWhile p = rest := by
  have hboth := List.takeWhile_append_dropWhile (p := p) (l := cs ++ rest)
  rw [takeWhile_of_stops hcs hrest] at hboth
  exact List.append_cancel_left hboth

end Classes

/-- No digit follows, not even behind a point. -/
def EndsNumber (rest : List Char) : Prop :=
  Stops Char.isDigit rest ∧ fraction rest = []

theorem endsNumber_nil : EndsNumber [] := ⟨fun _ hc => (by cases hc), rfl⟩

/-- Nothing follows that lengthens a number, or a name of such characters. -/
structure Parted (part : Char → Bool) (rest : List Char) : Prop where
  name : Stops part rest
  fraction : Scan.fraction rest = []

theorem Parted.endsNumber {part : Char → Bool} {rest : List Char} (h : Parted part rest)
    (hdigit : ∀ c, Char.isDigit c = true → part c = true) : EndsNumber rest := by
  refine ⟨fun c hc => ?_, h.fraction⟩
  by_contra hc'
  have hpart := h.name c hc
  rw [hdigit c (Bool.of_not_eq_false hc')] at hpart
  cases hpart

theorem number_whole (d : Char) {ds rest : List Char} (hds : ∀ c ∈ ds, c.isDigit = true)
    (hrest : EndsNumber rest) :
    number d (ds ++ rest) = (.ofDecimal (Nat.ofDigitChars 10 (d :: ds) 0) 0, ds.length) := by
  unfold number
  dsimp only
  rw [takeWhile_of_stops hds hrest.1, List.drop_left, hrest.2]
  simp

theorem number_fraction (d : Char) {ds fs rest : List Char} (hds : ∀ c ∈ ds, c.isDigit = true)
    (hfs : ∀ c ∈ fs, c.isDigit = true) (hne : fs ≠ [])
    (hrest : Stops Char.isDigit rest) :
    number d (ds ++ '.' :: (fs ++ rest)) =
      (.ofDecimal (Nat.ofDigitChars 10 (d :: ds ++ fs) 0) fs.length,
        ds.length + (fs.length + 1)) := by
  have hpoint : Stops Char.isDigit ('.' :: (fs ++ rest)) := by
    rintro c ⟨⟩
    rfl
  have hfraction : fraction ('.' :: (fs ++ rest)) = fs := takeWhile_of_stops hfs hrest
  unfold number
  dsimp only
  rw [takeWhile_of_stops hds hpoint, List.drop_left, hfraction, if_neg hne]

/-- A name as a text spells it. -/
def IsName (name : String) : Prop :=
  ∃ c cs, name.toList = c :: cs ∧ isNameStart c = true ∧ ∀ d ∈ cs, isNamePart d = true

def spellsName : List Char → Bool
  | [] => false
  | c :: cs => isNameStart c && cs.all isNamePart

theorem spellsName_iff {name : String} : spellsName name.toList = true ↔ IsName name := by
  unfold IsName
  cases name.toList with
  | nil => simp [spellsName]
  | cons c cs => simp [spellsName]

instance (name : String) : Decidable (IsName name) := decidable_of_iff _ spellsName_iff

theorem mem_takeWhile_true {p : Char → Bool} {cs : List Char} {c : Char} (h : c ∈ cs.takeWhile p) :
    p c = true :=
  List.all_eq_true.mp List.all_takeWhile c h

theorem isName_word {c : Char} (hc : isNameStart c = true) (cs : List Char) :
    IsName (String.ofList (c :: cs.takeWhile isNamePart)) :=
  ⟨c, cs.takeWhile isNamePart, String.toList_ofList, hc, fun _ => mem_takeWhile_true⟩

theorem isNamePart_of_isNameStart {c : Char} (h : isNameStart c = true) : isNamePart c = true := by
  simp only [isNameStart, Bool.or_eq_true] at h
  simp only [isNamePart, Char.isAlphanum, Bool.or_eq_true]
  exact h.imp_left .inl

theorem isName_leadingName {cs : List Char} (h : leadingName cs ≠ []) :
    IsName (String.ofList (leadingName cs)) := by
  cases cs with
  | nil => exact absurd rfl h
  | cons c cs =>
    by_cases hc : isNameStart c = true
    · have hname : leadingName (c :: cs) = c :: cs.takeWhile isNamePart := by
        simp [leadingName, hc, isNamePart_of_isNameStart hc]
      rw [hname]
      exact isName_word hc cs
    · exact absurd (by simp [leadingName, hc]) h

/-- What a lexeme is that begins with `c` and takes `n` of the characters behind it. -/
inductive Lexeme (file offset : Nat) (c : Char) (cs : List Char) : Kind → Value → Nat → Prop
  | text {content} (hc : c = '"') (h : quoted? cs = some content) :
      Lexeme file offset c cs .text (.text (String.ofList content)) (content.length + 1)
  | template {segments n} (hc : c = '`')
      (h : templateSegments file offset (offset + 1) cs = .ok (segments, n)) :
      Lexeme file offset c cs .template
        (.template (if segments = [] then [.text ""] else segments)) n
  | number (hc : c.isDigit = true) :
      Lexeme file offset c cs .number (.number (number c cs).1) (number c cs).2
  | identifier (hc : isNameStart c = true)
      (h : Keyword.ofSpelling? (String.ofList (c :: cs.takeWhile isNamePart)) = none) :
      Lexeme file offset c cs .identifier .none (cs.takeWhile isNamePart).length
  | keyword {word} (hc : isNameStart c = true)
      (h : Keyword.ofSpelling? (String.ofList (c :: cs.takeWhile isNamePart)) = some word) :
      Lexeme file offset c cs (.keyword word) .none (cs.takeWhile isNamePart).length
  | symbol {kind n} (h : symbol? c cs = some (kind, n)) : Lexeme file offset c cs kind .none n

theorem lexeme_cases {file offset : Nat} {c : Char} {cs : List Char} {kind : Kind} {value : Value}
    {n : Nat} (h : lexeme file offset c cs = .ok (kind, value, n)) :
    Lexeme file offset c cs kind value n := by
  unfold lexeme at h
  split at h
  case isTrue hc =>
    split at h
    case h_1 content hquoted =>
      cases h
      exact .text hc hquoted
    case h_2 => cases h
  case isFalse =>
    split at h
    case isTrue hc =>
      split at h
      case h_1 => cases h
      case h_2 segments m hsegments =>
        cases h
        exact .template hc hsegments
    case isFalse =>
      split at h
      case isTrue hc =>
        cases h
        exact .number hc
      case isFalse =>
        split at h
        case isTrue hc =>
          cases hword : Keyword.ofSpelling? (String.ofList (c :: cs.takeWhile isNamePart)) with
          | none =>
            simp only [hword, Except.ok.injEq, Prod.mk.injEq] at h
            obtain ⟨rfl, rfl, rfl⟩ := h
            exact .identifier hc hword
          | some word =>
            simp only [hword, Except.ok.injEq, Prod.mk.injEq] at h
            obtain ⟨rfl, rfl, rfl⟩ := h
            exact .keyword hc hword
        case isFalse =>
          split at h
          case h_1 hsymbol =>
            cases h
            exact .symbol hsymbol
          case h_2 => cases h

theorem not_isNameStart_of_isDigit {c : Char} (h : c.isDigit = true) : isNameStart c = false := by
  have hle : c.val.toNat ≤ 57 := of_decide_eq_true (Bool.and_eq_true_iff.mp h).2
  have hupper : c.isUpper = false := by
    refine Bool.eq_false_iff.mpr fun hupper => ?_
    have hge : 65 ≤ c.val.toNat := (of_decide_eq_true hupper).1
    omega
  have hlower : c.isLower = false := by
    refine Bool.eq_false_iff.mpr fun hlower => ?_
    have hge : 97 ≤ c.val.toNat := of_decide_eq_true (Bool.and_eq_true_iff.mp hlower).1
    omega
  have hletter : c.isAlpha = false := Bool.or_eq_false_iff.mpr ⟨hupper, hlower⟩
  have hunderscore : c ≠ '_' := by
    rintro rfl
    cases h
  simp [isNameStart, hletter, hunderscore]

theorem ne_quote_of_isDigit {c : Char} (h : c.isDigit = true) : c ≠ '"' ∧ c ≠ '`' := by
  constructor <;> rintro rfl <;> cases h

theorem ne_quote_of_isNameStart {c : Char} (h : isNameStart c = true) :
    c ≠ '"' ∧ c ≠ '`' ∧ c.isDigit = false := by
  refine ⟨?_, ?_, ?_⟩
  · rintro rfl
    cases h
  · rintro rfl
    cases h
  · by_contra hdigit
    rw [not_isNameStart_of_isDigit (by simpa using hdigit)] at h
    cases h

/-- A symbol begins with a character that no other lexeme begins with. -/
theorem ne_quote_of_symbol? {c : Char} {cs : List Char} {kind : Kind} {n : Nat}
    (h : symbol? c cs = some (kind, n)) :
    c ≠ '"' ∧ c ≠ '`' ∧ c.isDigit = false ∧ isNameStart c = false := by
  unfold symbol? at h
  dsimp only at h
  split at h
  case h_20 => cases h
  all_goals decide

theorem lexeme_eq_ok_iff {file offset : Nat} {c : Char} {cs : List Char} {kind : Kind}
    {value : Value} {n : Nat} :
    lexeme file offset c cs = .ok (kind, value, n) ↔ Lexeme file offset c cs kind value n := by
  constructor
  · exact lexeme_cases
  · intro h
    unfold lexeme
    cases h with
    | text hc h => rw [if_pos hc, h]
    | template hc h =>
      subst hc
      rw [if_neg (by decide), if_pos rfl, h]
    | number hc =>
      have hquote := ne_quote_of_isDigit hc
      rw [if_neg hquote.1, if_neg hquote.2, if_pos hc]
    | identifier hc h =>
      obtain ⟨hquote, htick, hdigit⟩ := ne_quote_of_isNameStart hc
      rw [if_neg hquote, if_neg htick, if_neg (by simp [hdigit]), if_pos hc]
      dsimp only
      rw [h]
    | keyword hc h =>
      obtain ⟨hquote, htick, hdigit⟩ := ne_quote_of_isNameStart hc
      rw [if_neg hquote, if_neg htick, if_neg (by simp [hdigit]), if_pos hc]
      dsimp only
      rw [h]
    | symbol h =>
      obtain ⟨hquote, htick, hdigit, hname⟩ := ne_quote_of_symbol? h
      rw [if_neg hquote, if_neg htick, if_neg (by simp [hdigit]), if_neg (by simp [hname]), h]

/-- The token is a lexeme of some text. -/
def Lexed (file : Nat) (t : Token) : Prop :=
  ∃ offset c cs n, Lexeme file offset c cs t.kind t.value n ∧
    t.lexeme = String.ofList (c :: cs.take n)

theorem lexed_or_finish {file offset : Nat} {cs : List Char} {ts : List Token}
    (h : tokens file offset cs = .ok ts) {t : Token} (ht : t ∈ ts) :
    Lexed file t ∨ ∃ stop, t = .finish file stop := by
  fun_induction tokens file offset cs generalizing ts
  case case1 offset =>
    cases h
    exact .inr ⟨offset, List.mem_singleton.mp ht⟩
  case case2 ih => exact ih h ht
  case case3 ih => exact ih h ht
  case case4 => cases h
  case case5 => cases h
  case case6 offset c cs _ _ kind value n hlexeme characters stop later hlater ih =>
    cases h
    rcases List.mem_cons.mp ht with rfl | ht
    · exact .inl ⟨offset, c, cs, n, lexeme_cases hlexeme, rfl⟩
    · exact ih hlater ht

/-- The kinds of operators and punctuation marks. -/
def isSymbolKind : Kind → Bool
  | .identifier | .text | .template | .number | .keyword _ | .endOfText => false
  | _ => true

theorem isSymbolKind_of_symbol? {c : Char} {cs : List Char} {kind : Kind} {n : Nat}
    (h : symbol? c cs = some (kind, n)) : isSymbolKind kind = true := by
  unfold symbol? at h
  dsimp only at h
  split at h <;> (try split at h) <;> cases h <;> rfl

theorem take_length_takeWhile (p : Char → Bool) (cs : List Char) :
    cs.take (cs.takeWhile p).length = cs.takeWhile p :=
  (List.prefix_iff_eq_take.mp (List.takeWhile_prefix p)).symm

theorem Lexed.isName {file : Nat} {t : Token} (h : Lexed file t) (hkind : t.kind = .identifier) :
    IsName t.lexeme := by
  obtain ⟨offset, c, cs, n, hlexeme, hspelling⟩ := h
  rw [hkind] at hlexeme
  generalize t.value = value at hlexeme
  rw [hspelling]
  cases hlexeme with
  | identifier hc _ =>
    rw [take_length_takeWhile]
    exact isName_word hc cs
  | symbol h => cases isSymbolKind_of_symbol? h

theorem Lexed.value_text {file : Nat} {t : Token} (h : Lexed file t) (hkind : t.kind = .text) :
    ∃ content, t.value = .text content := by
  obtain ⟨offset, c, cs, n, hlexeme, -⟩ := h
  rw [hkind] at hlexeme
  generalize t.value = value at hlexeme ⊢
  cases hlexeme with
  | text => exact ⟨_, rfl⟩
  | symbol h => cases isSymbolKind_of_symbol? h

theorem Lexed.value_template {file : Nat} {t : Token} (h : Lexed file t)
    (hkind : t.kind = .template) : ∃ segments, t.value = .template segments := by
  obtain ⟨offset, c, cs, n, hlexeme, -⟩ := h
  rw [hkind] at hlexeme
  generalize t.value = value at hlexeme ⊢
  cases hlexeme with
  | template => exact ⟨_, rfl⟩
  | symbol h => cases isSymbolKind_of_symbol? h

theorem bits_number_le (c : Char) (cs : List Char) :
    (number c cs).1.bits.toNat ≤ Binary64.infinityBits := by
  unfold number
  dsimp only
  rw [Binary64.bits_ofDecimal]
  exact Binary64.nearestBits_le _ _

theorem Lexed.bits_le {file : Nat} {t : Token} (h : Lexed file t) {x : Binary64}
    (hvalue : t.value = .number x) : x.bits.toNat ≤ Binary64.infinityBits := by
  obtain ⟨offset, c, cs, n, hlexeme, -⟩ := h
  rw [hvalue] at hlexeme
  generalize t.kind = kind at hlexeme
  cases hlexeme with
  | number => exact bits_number_le c cs

/-- No text comes directly after a text. -/
def Alternating {α : Type} (isText : α → Bool) (pieces : List α) : Prop :=
  pieces.IsChain fun a b => isText a = false ∨ isText b = false

def isTextSegment : Segment → Bool
  | .text _ => true
  | .name _ _ => false

theorem interpolation_ok {file opening : Nat} {cs : List Char} {segment : Segment} {n : Nat}
    (h : interpolation file opening cs = .ok (segment, n)) :
    ∃ name span, segment = .name name span ∧ IsName name := by
  unfold interpolation at h
  dsimp only at h
  split_ifs at h with hname hbrace
  cases h
  exact ⟨_, _, rfl, isName_leadingName hname⟩

/-- Segments as they come from a template of a text. -/
structure Divided (segments : List Segment) : Prop where
  alternating : Alternating isTextSegment segments
  name {name : String} {span : Span} (h : .name name span ∈ segments) : IsName name
  text {content : String} (h : .text content ∈ segments) :
    ∀ c ∈ content.toList, isTemplateText c = true

theorem divided_singleton {content : List Char} (h : ∀ c ∈ content, isTemplateText c = true) :
    Divided [.text (String.ofList content)] where
  alternating := .singleton _
  name hmem := by simp at hmem
  text hmem := by
    cases List.mem_singleton.mp hmem
    simpa using h

theorem divided_textSegment {content : List Char} (h : ∀ c ∈ content, isTemplateText c = true) :
    Divided (textSegment content) := by
  unfold textSegment
  split_ifs
  · exact ⟨.nil, nofun, nofun⟩
  · exact divided_singleton h

theorem Divided.cons_name {segments : List Segment} (h : Divided segments) {name : String}
    (hname : IsName name) (span : Span) : Divided (.name name span :: segments) where
  alternating := by
    cases segments with
    | nil => exact .singleton _
    | cons segment segments => exact .cons_cons (.inl rfl) h.alternating
  name hmem := by
    rcases List.mem_cons.mp hmem with heq | hmem
    · cases heq
      exact hname
    · exact h.name hmem
  text hmem := by
    rcases List.mem_cons.mp hmem with heq | hmem
    · cases heq
    · exact h.text hmem

theorem Divided.tail {segment : Segment} {segments : List Segment}
    (h : Divided (segment :: segments)) : Divided segments where
  alternating := List.IsChain.tail h.alternating
  name hmem := h.name (List.mem_cons_of_mem _ hmem)
  text hmem := h.text (List.mem_cons_of_mem _ hmem)

/-- Behind a text stands a name or nothing. -/
theorem Divided.eq_name {content : String} {segment : Segment} {segments : List Segment}
    (h : Divided (.text content :: segment :: segments)) :
    ∃ name span, segment = .name name span := by
  have hnext := (List.isChain_cons_cons.mp h.alternating).1
  cases segment with
  | text other => simp [isTextSegment] at hnext
  | name name span => exact ⟨name, span, rfl⟩

/-- Text may stand before a name. -/
theorem Divided.text_append {content : List Char}
    (hcontent : ∀ c ∈ content, isTemplateText c = true) {name : String} {span : Span}
    {segments : List Segment} (h : Divided (.name name span :: segments)) :
    Divided (textSegment content ++ .name name span :: segments) where
  alternating := by
    unfold textSegment
    split_ifs
    · exact h.alternating
    · exact .cons_cons (.inr rfl) h.alternating
  name hmem := by
    rcases List.mem_append.mp hmem with hmem | hmem
    · exact (divided_textSegment hcontent).name hmem
    · exact h.name hmem
  text hmem := by
    rcases List.mem_append.mp hmem with hmem | hmem
    · exact (divided_textSegment hcontent).text hmem
    · exact h.text hmem

theorem divided_templateSegments {file opening offset : Nat} {cs : List Char}
    {segments : List Segment} {n : Nat}
    (h : templateSegments file opening offset cs = .ok (segments, n)) : Divided segments := by
  fun_induction templateSegments file opening offset cs generalizing segments n
  case case1 => cases h
  case case2 => cases h
  case case3 offset cs content inner _ brace segment m hinner resume later k hlater ih =>
    cases h
    obtain ⟨name, span, rfl, hname⟩ := interpolation_ok hinner
    exact .text_append (fun _ => mem_takeWhile_true) ((ih hlater).cons_name hname span)
  case case4 offset cs content rest _ =>
    cases h
    exact divided_textSegment fun _ => mem_takeWhile_true
  case case5 => cases h

theorem Lexed.divided {file : Nat} {t : Token} (h : Lexed file t) : Divided t.segments := by
  obtain ⟨offset, c, cs, n, hlexeme, -⟩ := h
  unfold Token.segments
  generalize t.kind = kind at hlexeme
  generalize t.value = value at hlexeme
  cases hlexeme with
  | template hc h =>
    dsimp only
    split_ifs
    · exact divided_singleton nofun
    · exact divided_templateSegments h
  | _ => exact ⟨.nil, nofun, nofun⟩

end Scan

def Segment.content? : Segment → Option String
  | .text content => some content
  | .name _ _ => none

def Segment.name? : Segment → Option String
  | .text _ => none
  | .name spelling _ => some spelling

/-- The names in the template of a token. -/
def Token.interpolations (t : Token) : List String := t.segments.filterMap Segment.name?

/-- The texts in the value of a token. -/
def Token.texts (t : Token) : List String :=
  match t.value with
  | .text content => [content]
  | .template segments => segments.filterMap Segment.content?
  | _ => []

theorem exists_template_of_mem {t : Token} {segment : Segment} (h : segment ∈ t.segments) :
    ∃ segments, t.value = .template segments := by
  unfold Token.segments at h
  split at h
  case h_1 segments hvalue => exact ⟨segments, hvalue⟩
  case h_2 => cases h

theorem mem_texts_of_template {t : Token} {segments : List Segment}
    (h : t.value = .template segments) {content : String} :
    content ∈ t.texts ↔ .text content ∈ t.segments := by
  unfold Token.texts Token.segments
  rw [h, List.mem_filterMap]
  constructor
  · rintro ⟨segment, hmem, hcontent⟩
    cases segment with
    | text other =>
      cases hcontent
      exact hmem
    | name name span => cases hcontent
  · intro hmem
    exact ⟨_, hmem, rfl⟩

/-- What every token of a text has. -/
structure Token.Ordinary (t : Token) : Prop where
  name (hkind : t.kind = .identifier) : Scan.IsName t.lexeme
  number {x : Binary64} (hvalue : t.value = .number x) : x.bits.toNat ≤ Binary64.infinityBits
  divided : Scan.Divided t.segments

theorem Token.ordinary_finish (file offset : Nat) : (Token.finish file offset).Ordinary where
  name hkind := by cases hkind
  number hvalue := by cases hvalue
  divided := ⟨.nil, nofun, nofun⟩

theorem ordinary_of_scan {file : Nat} {text : String} {tokens : List Token}
    (h : scan file text = .ok tokens) : ∀ t ∈ tokens, t.Ordinary := by
  intro t ht
  rcases Scan.lexed_or_finish h ht with hlexed | ⟨stop, rfl⟩
  · exact ⟨hlexed.isName, hlexed.bits_le, hlexed.divided⟩
  · exact Token.ordinary_finish file stop

end Scriptwright
