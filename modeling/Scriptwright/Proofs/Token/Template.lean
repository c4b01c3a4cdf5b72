import Mathlib.Logic.ExistsUnique
import Scriptwright.Proofs.Token.Encoding
import Scriptwright.Proofs.Token.Order

/-!
# Templates and their segments

The segments of a template leave out nothing but the blanks around its names. Written out with
the right blanks they give the template back, and no other blanks do. Texts and names are told
apart by the first character of what follows, so that what is written can be read in one way.
-/

namespace Scriptwright
open Scan

/-- The blanks before and behind a name in braces. -/
@[ext]
structure Padding where
  before : Lexicon.Run isSpace
  after : Lexicon.Run isSpace

namespace Segment

/-- Segments one behind the other, each name in braces and with blanks of its own. There is one
padding for each name, or nothing is written. -/
def write? : List Segment → List Padding → Option (List Char)
  | [], [] => some []
  | [], _ :: _ => none
  | .text content :: segments, paddings => (write? segments paddings).map (content.toList ++ ·)
  | .name _ _ :: _, [] => none
  | .name word _ :: segments, padding :: paddings => (write? segments paddings).map fun rest =>
      '{' :: (padding.before.val ++ (word.toList ++ (padding.after.val ++ '}' :: rest)))

/-- The segments between two backticks. -/
def literal? (segments : List Segment) (paddings : List Padding) : Option String :=
  (write? segments paddings).map fun inner => String.ofList ('`' :: (inner ++ ['`']))

@[simp] theorem write?_nil : write? [] [] = some [] := rfl

@[simp] theorem write?_text (content : String) (segments : List Segment)
    (paddings : List Padding) : write? (.text content :: segments) paddings =
      (write? segments paddings).map (content.toList ++ ·) := by
  cases paddings <;> rfl

@[simp] theorem write?_name (name : String) (span : Span) (segments : List Segment)
    (padding : Padding) (paddings : List Padding) :
    write? (.name name span :: segments) (padding :: paddings) =
      (write? segments paddings).map fun rest =>
        '{' :: (padding.before.val ++ (name.toList ++ (padding.after.val ++ '}' :: rest))) := rfl

/-- An empty text is no segment, and nothing is written for it. -/
theorem write?_textSegment_append (content : List Char) (segments : List Segment)
    (paddings : List Padding) : write? (textSegment content ++ segments) paddings =
      (write? segments paddings).map (content ++ ·) := by
  unfold textSegment
  split_ifs with hnil
  · simp [hnil]
  · simp

theorem write?_textSegment (content : List Char) :
    write? (textSegment content) [] = some content := by
  have h := write?_textSegment_append content [] []
  rwa [List.append_nil, write?_nil, Option.map_some, List.append_nil] at h

end Segment

theorem Lexicon.exists_name_of_isName {name : String} (h : IsName name) :
    ∃ n : Lexicon.Name, n.characters = name.toList := by
  obtain ⟨c, cs, hname, hc, hcs⟩ := h
  exact ⟨⟨⟨c, hc⟩, ⟨cs, hcs⟩⟩, hname.symm⟩

namespace Segment

/-- A name in braces is followed by a rest, and both are known from what is written. -/
theorem Padding.append_inj {name : String} (hname : IsName name) {padding padding' : Padding}
    {rest rest' : List Char}
    (h : padding.before.val ++ (name.toList ++ (padding.after.val ++ '}' :: rest)) =
      padding'.before.val ++ (name.toList ++ (padding'.after.val ++ '}' :: rest'))) :
    padding = padding' ∧ rest = rest' := by
  obtain ⟨n, hn⟩ := Lexicon.exists_name_of_isName hname
  rw [← hn] at h
  let i : Lexicon.Interpolation := ⟨padding.before, n, padding.after⟩
  let i' : Lexicon.Interpolation := ⟨padding'.before, n, padding'.after⟩
  have hinner : i.inner ++ rest = i'.inner ++ rest' := by
    rw [i.inner_append, i'.inner_append]
    exact h
  obtain ⟨hi, hrest⟩ := Lexicon.Interpolation.append_inj hinner
  constructor
  · exact Padding.ext (congrArg Lexicon.Interpolation.before hi)
      (congrArg Lexicon.Interpolation.after hi)
  · exact hrest

theorem write?_inj {segments : List Segment}
    (hname : ∀ name span, .name name span ∈ segments → IsName name)
    {paddings paddings' : List Padding} {cs : List Char}
    (h : write? segments paddings = some cs) (h' : write? segments paddings' = some cs) :
    paddings = paddings' := by
  induction segments generalizing paddings paddings' cs with
  | nil =>
    cases paddings with
    | nil =>
      cases paddings' with
      | nil => rfl
      | cons => cases h'
    | cons => cases h
  | cons segment segments ih =>
    have hlater : ∀ name span, .name name span ∈ segments → IsName name := fun name span hmem =>
      hname name span (List.mem_cons_of_mem _ hmem)
    cases segment with
    | text content =>
      rw [write?_text, Option.map_eq_some_iff] at h h'
      obtain ⟨rest, hrest, rfl⟩ := h
      obtain ⟨rest', hrest', heq⟩ := h'
      rw [List.append_cancel_left heq] at hrest'
      exact ih hlater hrest hrest'
    | name name span =>
      cases paddings with
      | nil => cases h
      | cons padding paddings =>
        cases paddings' with
        | nil => cases h'
        | cons padding' paddings' =>
          rw [write?_name, Option.map_eq_some_iff] at h h'
          obtain ⟨rest, hrest, rfl⟩ := h
          obtain ⟨rest', hrest', heq⟩ := h'
          have hthis := hname name span List.mem_cons_self
          obtain ⟨hpadding, hsame⟩ := Padding.append_inj hthis (List.cons.inj heq).2
          rw [hsame] at hrest'
          rw [hpadding, ih hlater hrest hrest']

theorem literal?_inj {segments : List Segment}
    (hname : ∀ name span, .name name span ∈ segments → IsName name)
    {paddings paddings' : List Padding} {spelling : String}
    (h : literal? segments paddings = some spelling)
    (h' : literal? segments paddings' = some spelling) : paddings = paddings' := by
  obtain ⟨inner, hinner, rfl⟩ := Option.map_eq_some_iff.mp h
  obtain ⟨inner', hinner', heq⟩ := Option.map_eq_some_iff.mp h'
  have htail := (List.cons.inj (String.ofList_injective heq)).2
  rw [List.append_cancel_right htail] at hinner'
  exact write?_inj hname hinner hinner'

end Segment

namespace Lexicon

def Interpolation.padding (i : Interpolation) : Padding := ⟨i.before, i.after⟩

namespace Template

/-- The blanks around the names of a template. -/
def paddings : Template → List Padding
  | close _ => []
  | name _ i more => i.padding :: more.paddings

theorem write?_segments (file offset : Nat) (body : Template) :
    ∃ inner, Segment.write? (body.segments file offset) body.paddings = some inner ∧
      body.characters = inner ++ ['`'] := by
  induction body generalizing offset with
  | close content =>
    use content.val
    exact ⟨Segment.write?_textSegment content.val, rfl⟩
  | name content i more ih =>
    obtain ⟨inner, hinner, hmore⟩ := ih (offset + byteLength content.val + 1 + byteLength i.inner)
    use content.val ++ '{' :: (i.inner ++ inner)
    constructor
    · rw [segments, paddings, Segment.write?_textSegment_append, Interpolation.segment,
        Segment.write?_name, hinner]
      simp [Interpolation.padding, Interpolation.inner]
    · simp [characters, hmore]

theorem name_notMem_textSegment (content : List Char) (word : String) (span : Span) :
    .name word span ∉ textSegment content := by
  unfold textSegment
  split_ifs <;> simp

/-- A text before a name is a part of all that stands before a later name. -/
theorem exists_front_of_textSegment {content : List Char} {segments front back : List Segment}
    {word : String} {span : Span}
    (h : textSegment content ++ segments = front ++ .name word span :: back) :
    ∃ front', front = textSegment content ++ front' ∧
      segments = front' ++ .name word span :: back := by
  rcases List.append_eq_append_iff.mp h with ⟨front', hfront, hsegments⟩ | ⟨text, htext, hback⟩
  · exact ⟨front', hfront, hsegments⟩
  · cases text with
    | nil =>
      rw [List.append_nil] at htext
      exact ⟨[], by rw [htext, List.append_nil], hback.symm⟩
    | cons segment text =>
      have hsegment := (List.cons.inj hback).1
      have hmem : segment ∈ textSegment content := by
        rw [htext]
        exact List.mem_append_right _ List.mem_cons_self
      rw [← hsegment] at hmem
      exact absurd hmem (name_notMem_textSegment content word span)

/-- A name stands behind what the segments before it write, a brace and its blanks. -/
theorem span_of_segments {file offset : Nat} {body : Template} {front back : List Segment}
    {word : String} {span : Span}
    (h : body.segments file offset = front ++ .name word span :: back) :
    ∃ paddings padding later written, body.paddings = paddings ++ padding :: later ∧
      Segment.write? front paddings = some written ∧ span.file = file ∧
      span.start = offset + byteLength (written ++ '{' :: padding.before.val) := by
  induction body generalizing offset front with
  | close content =>
    have hmem : .name word span ∈ textSegment content.val := by
      rw [segments] at h
      simp [h]
    exact absurd hmem (name_notMem_textSegment _ _ _)
  | name content i more ih =>
    rw [segments] at h
    obtain ⟨front, rfl, htail⟩ := exists_front_of_textSegment h
    cases front with
    | nil =>
      cases (List.cons.inj htail).1
      refine ⟨[], i.padding, more.paddings, content.val, rfl, ?_, rfl, ?_⟩
      · rw [List.append_nil]
        exact Segment.write?_textSegment content.val
      · simp [Interpolation.padding, Nat.add_assoc, show '{'.utf8Size = 1 from rfl]
    | cons segment front =>
      obtain ⟨hsegment, hmore⟩ := List.cons.inj htail
      obtain ⟨paddings, padding, later, written, hpaddings, hwritten, hfile, hstart⟩ := ih hmore
      refine ⟨i.padding :: paddings, padding, later, content.val ++ '{' :: (i.inner ++ written),
        ?_, ?_, hfile, ?_⟩
      · rw [Template.paddings, hpaddings, List.cons_append]
      · rw [← hsegment, Segment.write?_textSegment_append, Interpolation.segment,
          Segment.write?_name, hwritten]
        simp [Interpolation.padding, Interpolation.inner]
      · rw [hstart]
        simp only [byteLength_append, byteLength_cons, show '{'.utf8Size = 1 from rfl]
        omega

theorem text_mem_segments {file offset : Nat} {body : Template} {content : String}
    (h : .text content ∈ body.segments file offset) : content ≠ "" := by
  have hsegment (cs : List Char) (hmem : .text content ∈ textSegment cs) : content ≠ "" := by
    simp only [textSegment] at hmem
    split_ifs at hmem with hnil
    · cases hmem
    · cases List.mem_singleton.mp hmem
      simpa using hnil
  induction body generalizing offset with
  | close content => exact hsegment _ h
  | name content i more ih =>
    rcases List.mem_append.mp h with h | h
    · exact hsegment _ h
    · rcases List.mem_cons.mp h with h | h
      · cases h
      · exact ih h

/-- The segments of a token. A template without segments has an empty text. -/
def division (file offset : Nat) (body : Template) : List Segment :=
  if body.segments file offset = [] then [.text ""] else body.segments file offset

theorem division_ne_nil (file offset : Nat) (body : Template) : body.division file offset ≠ [] := by
  unfold division
  split_ifs with hnil
  · exact List.cons_ne_nil _ _
  · exact hnil

theorem literal?_division (file offset : Nat) (body : Template) :
    Segment.literal? (body.division file offset) body.paddings =
      some (String.ofList ('`' :: body.characters)) := by
  obtain ⟨inner, hinner, hbody⟩ := body.write?_segments file offset
  have hwrite : Segment.write? (body.division file offset) body.paddings = some inner := by
    unfold division
    split_ifs with hnil
    · rw [hnil] at hinner
      simp [hinner]
    · exact hinner
  rw [Segment.literal?, hwrite, hbody]
  rfl

theorem division_of_empty_text {file offset : Nat} {body : Template}
    (h : .text "" ∈ body.division file offset) : body.division file offset = [.text ""] := by
  unfold division at h ⊢
  split_ifs at h ⊢ with hnil
  · rfl
  · exact absurd rfl (text_mem_segments h)

theorem segments_of_division {file offset : Nat} {body : Template} {front back : List Segment}
    {word : String} {span : Span}
    (h : body.division file offset = front ++ .name word span :: back) :
    body.segments file offset = front ++ .name word span :: back := by
  unfold division at h
  split_ifs at h with hnil
  · have hmem : .name word span ∈ [Segment.text ""] := by simp [h]
    cases List.mem_singleton.mp hmem
  · exact h

end Template

/-- A template token of a cut is written as a template of the grammar. -/
theorem Cut.exists_template {file offset : Nat} {cut : Cut} {t : Token}
    (ht : t ∈ cut.tokens file offset) (hkind : t.kind = .template) :
    ∃ body : Template, t.lexeme = String.ofList ('`' :: body.characters) ∧
      t.value = .template (body.division file (t.span.start + 1)) := by
  induction cut generalizing offset with
  | done gap =>
    cases List.mem_singleton.mp ht
    cases hkind
  | lexeme gap l more ih =>
    rcases List.mem_cons.mp ht with rfl | ht
    · cases l with
      | template body => exact ⟨body, rfl, rfl⟩
      | sign s =>
        have hspells := s.spells
        rw [show s.kind = .template from hkind] at hspells
        cases hspells
      | word name =>
        dsimp only [Lexeme.kind] at hkind
        split at hkind <;> cases hkind
      | whole | decimal | text => cases hkind
    · exact ih ht

end Lexicon

theorem divided_of_scan {file : Nat} {text : String} {tokens : List Token}
    (h : scan file text = .ok tokens) {t : Token} (ht : t ∈ tokens) : Divided t.segments := by
  rcases lexed_or_finish h ht with hlexed | ⟨stop, rfl⟩
  · exact hlexed.divided
  · exact ⟨.nil, fun hmem => absurd hmem List.not_mem_nil, fun hmem => absurd hmem List.not_mem_nil⟩

/-- The source between the ends of a name's span is the name. -/
theorem Span.Selects.slice? {file low high : Nat} {text name : String} {s : Span}
    (h : s.Selects file low high text.toList name) :
    Bytes.slice? text s.start s.stop = some name := by
  obtain ⟨before, after, htext, rfl⟩ := h.spelled
  rw [Bytes.slice?_eq_some htext, String.ofList_toList]

/-- The segments of a template are a division of it. Nothing is lost but the blanks in braces,
and these are determined by what is written; texts are not divided further than the names
divide them; and the span of each name is the place where it is written. -/
theorem scan_template_segments {file : Nat} {text : String} {tokens : List Token}
    (h : scan file text = .ok tokens) {t : Token} (ht : t ∈ tokens) (hkind : t.kind = .template) :
    ∃ segments, t.value = .template segments ∧ segments ≠ [] ∧
      (∃! paddings, Segment.literal? segments paddings = some t.lexeme) ∧
      segments.IsChain (fun a b => ¬(isTextSegment a = true ∧ isTextSegment b = true)) ∧
      (.text "" ∈ segments → segments = [.text ""]) ∧
      (∀ content, .text content ∈ segments → '`' ∉ content.toList ∧ '{' ∉ content.toList) ∧
      ∀ front word span back, segments = front ++ .name word span :: back →
        span.file = file ∧ Bytes.slice? text span.start span.stop = some word ∧
        ∃ paddings padding later written,
          Segment.literal? segments (paddings ++ padding :: later) = some t.lexeme ∧
          Segment.write? front paddings = some written ∧
          span.start =
            t.span.start + byteLength ('`' :: (written ++ '{' :: padding.before.val)) := by
  obtain ⟨cut, -, -, rfl⟩ := Lexicon.exists_cut_of_scan h
  obtain ⟨body, hlexeme, hvalue⟩ := cut.exists_template ht hkind
  have hsegments : t.segments = body.division file (t.span.start + 1) := by
    rw [Token.segments, hvalue]
  have hdivided := divided_of_scan h ht
  have hplaced := placed_of_scan h ht
  rw [hsegments] at hdivided hplaced
  have hliteral := body.literal?_division file (t.span.start + 1)
  rw [← hlexeme] at hliteral
  refine ⟨body.division file (t.span.start + 1), hvalue, body.division_ne_nil _ _, ?_, ?_,
    Lexicon.Template.division_of_empty_text, ?_, ?_⟩
  · refine ⟨body.paddings, hliteral, ?_⟩
    intro paddings hpaddings
    exact Segment.literal?_inj (fun _ _ => hdivided.name) hpaddings hliteral
  · apply hdivided.alternating.imp
    intro a b hab
    simpa [Bool.not_eq_true, imp_iff_not_or] using hab
  · intro content hcontent
    have hplain := hdivided.text hcontent
    exact ⟨fun hmem => absurd (hplain _ hmem) (by decide),
      fun hmem => absurd (hplain _ hmem) (by decide)⟩
  · intro front word span back hsplit
    have hmem : .name word span ∈ body.division file (t.span.start + 1) := by simp [hsplit]
    obtain ⟨paddings, padding, later, written, hpaddings, hwritten, hfile, hstart⟩ :=
      Lexicon.Template.span_of_segments (Lexicon.Template.segments_of_division hsplit)
    refine ⟨hfile, (hplaced.selects hmem).slice?, paddings, padding, later, written, ?_,
      hwritten, ?_⟩
    · rw [← hpaddings]
      exact hliteral
    · rw [hstart, byteLength_cons, show '`'.utf8Size = 1 from rfl, Nat.add_assoc]

/-- A text of two bytes, and two names with a blank on one side each. -/
theorem scan_template_two_names :
    let segments := [.text "é", .name "x" ⟨0, 7, 8⟩, .name "y" ⟨0, 10, 11⟩]
    let t : Token := ⟨.template, "`é\x7b x\x7d\x7by\t\x7d`", .template segments, ⟨0, 2, 14⟩⟩
    scan 0 "f `é\x7b x\x7d\x7by\t\x7d`" =
      .ok [⟨.identifier, "f", .none, ⟨0, 0, 1⟩⟩, t, .finish 0 14] ∧
      (∃! paddings, Segment.literal? segments paddings = some t.lexeme) ∧
      Bytes.slice? "f `é\x7b x\x7d\x7by\t\x7d`" 10 11 = some "y" := by
  have h : scan 0 "f `é\x7b x\x7d\x7by\t\x7d`" = .ok [⟨.identifier, "f", .none, ⟨0, 0, 1⟩⟩,
      ⟨.template, "`é\x7b x\x7d\x7by\t\x7d`",
        .template [.text "é", .name "x" ⟨0, 7, 8⟩, .name "y" ⟨0, 10, 11⟩], ⟨0, 2, 14⟩⟩,
      .finish 0 14] := by
    decide +kernel
  obtain ⟨segments, hvalue, -, hliteral, -, -, -, hnames⟩ :=
    scan_template_segments h (List.mem_cons_of_mem _ List.mem_cons_self) rfl
  cases hvalue
  exact ⟨h, hliteral, (hnames [.text "é", .name "x" ⟨0, 7, 8⟩] "y" ⟨0, 10, 11⟩ [] rfl).2.1⟩

end Scriptwright
