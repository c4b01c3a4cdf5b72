import Scriptwright.Proofs.Grammar.Occurrence
import Scriptwright.Proofs.JavaScript.Reading

/-!
# Emitted expressions keep their structure

Every expression of a program that was read from a text is well formed, because its
leaves are tokens of the text. Hence its JavaScript text has one reading, which is the
tree of the expression.
-/

namespace Scriptwright
open JavaScript
open Scan (Alternating)

/-- What an expression needs of the tokens it is derived from. -/
structure Token.Lawful (t : Token) : Prop extends t.Ordinary where
  text {content : String} (h : content ∈ t.texts) : '\\' ∉ content.toList

theorem alternating_part {segments : List Segment} (h : Alternating Scan.isTextSegment segments) :
    Alternating TemplatePart.isText (segments.map Segment.part) := by
  refine (List.isChain_map _).mpr (h.imp ?_)
  intro a b hab
  cases a <;> cases b <;> exact hab

theorem Token.Lawful.template {t : Token} (h : t.Lawful) (span : Span) :
    (Expr.template (t.segments.map Segment.part) span).WellFormed := by
  refine .template ?_ ?_ (alternating_part h.divided.alternating)
  · intro content hmem
    obtain ⟨segment, hsegment, heq⟩ := List.mem_map.mp hmem
    cases segment with
    | text other =>
      cases heq
      obtain ⟨segments, hvalue⟩ := exists_template_of_mem hsegment
      exact h.text ((mem_texts_of_template hvalue).mpr hsegment)
    | name name span => cases heq
  · intro e hmem
    obtain ⟨segment, hsegment, heq⟩ := List.mem_map.mp hmem
    cases segment with
    | text other => cases heq
    | name name span =>
      cases heq
      exact .identifier (h.divided.name hsegment)

theorem lawful_of_scan {file : Nat} {text : String} {tokens : List Token}
    (h : scan file text = .ok tokens)
    (htexts : ∀ t ∈ tokens, ∀ content ∈ t.texts, '\\' ∉ content.toList) :
    ∀ t ∈ tokens, t.Lawful :=
  fun t ht => ⟨ordinary_of_scan h t ht, htexts t ht _⟩

namespace Grammar

theorem wellFormed_of_term? {t : Token} (ht : t.Lawful) {e : Expr} (h : term? t = some e) :
    e.WellFormed := by
  unfold term? at h
  split at h
  case h_1 hkind =>
    cases h
    exact .identifier (ht.name hkind)
  case h_2 hvalue =>
    cases h
    exact .number (ht.number hvalue)
  case h_3 hvalue =>
    cases h
    exact .text (ht.text (by simp [Token.texts, hvalue]))
  case h_4 =>
    cases h
    exact .boolean
  case h_5 =>
    cases h
    exact .boolean
  case h_6 =>
    cases h
    exact .nil
  case h_7 => cases h

theorem wellFormed_withSpan {e : Expr} (h : e.WellFormed) (span : Span) :
    (e.withSpan span).WellFormed := by
  cases h <;> constructor <;> assumption

theorem wellFormed_inherited : Inherited Token.Lawful Expr.WellFormed where
  term ht h := wellFormed_of_term? ht h
  template ht span := ht.template span
  withSpan h span := wellFormed_withSpan h span
  binary hleft hright _ _ := .binary hleft hright
  unary h _ _ := .unary h
  call hcallee harguments _ := .call hcallee harguments
  index hbase hproperty _ := .index hbase hproperty
  access {_ name} hbase hname _ := .access hbase (hname.name name.property)
  array h _ := .array h
  object hnames h _ := by
    refine .object (fun field hf => ?_) h
    obtain ⟨name, hname, heq⟩ := hnames field hf
    rw [← heq]
    exact hname.name name.property

theorem Derived.wellFormed {limit : Nat} {source : List Token} (h : ∀ t ∈ source, t.Lawful)
    {e : Expr} (he : Derived limit source e) : e.WellFormed :=
  wellFormed_inherited.derived h he

end Grammar

theorem Expr.WellFormed.children {e : Expr} (h : e.WellFormed) :
    ∀ child ∈ e.children, child.WellFormed := by
  intro child hmem
  cases h with
  | number | text | boolean | nil | identifier => cases hmem
  | binary hleft hright =>
    rcases List.mem_cons.mp hmem with rfl | hmem
    · exact hleft
    · rwa [List.mem_singleton.mp hmem]
  | unary h => rwa [List.mem_singleton.mp hmem]
  | call hcallee harguments =>
    rcases List.mem_cons.mp hmem with rfl | hmem
    · exact hcallee
    · exact harguments child hmem
  | index hbase hproperty =>
    rcases List.mem_cons.mp hmem with rfl | hmem
    · exact hbase
    · rwa [List.mem_singleton.mp hmem]
  | access hbase hname =>
    rcases List.mem_cons.mp hmem with rfl | hmem
    · exact hbase
    · rw [List.mem_singleton.mp hmem]
      exact .identifier hname
  | array h => exact h child hmem
  | object hnames h =>
    obtain ⟨field, hfield, rfl⟩ := List.mem_map.mp hmem
    exact h field hfield
  | template htexts h halternating =>
    obtain ⟨part, hpart, hcode⟩ := List.mem_filterMap.mp hmem
    cases part with
    | text content => cases hcode
    | code e =>
      cases hcode
      exact h child hpart

/-- The JavaScript text of every expression of a program has exactly one reading, and
that is the tree of the expression, if no text of the source has a backslash. -/
theorem reading_javaScript_iff {file programFile : Nat} {text : String} {tokens : List Token}
    {p : Program} (hscan : scan file text = .ok tokens)
    (htexts : ∀ t ∈ tokens, ∀ content ∈ t.texts, '\\' ∉ content.toList)
    (hparse : Program.ofTokens programFile tokens = .ok p) {e : Expr} (he : e.OccursIn p)
    (t : Tree) : Reading e.javaScript t ↔ t = e.tree := by
  obtain ⟨root, hroot, hwithin⟩ := he
  have hlawful := lawful_of_scan hscan htexts
  have hderived := Grammar.derived_of_ofTokens hparse hroot
  have hwellFormed : root.WellFormed :=
    hderived.wellFormed fun t ht => hlawful t (List.takeWhile_subset _ ht)
  exact (hwithin.of_hereditary (fun _ => Expr.WellFormed.children) hwellFormed).reading_iff t

theorem reading_nested_difference : ∃ (tokens : List Token) (p : Program) (e : Expr),
    scan 0 "func f = \x7ba\x7d \x7b b = `\x7ba\x7d!` return a - (1 - -a) \x7d" = .ok tokens ∧
      Program.ofTokens 0 tokens = .ok p ∧ e.OccursIn p ∧ e.javaScript = "a - (1 - (-a))" ∧
      ∀ t, Reading e.javaScript t ↔ t = e.tree := by
  have hrun : ∃ tokens ∈ (scan 0
        "func f = \x7ba\x7d \x7b b = `\x7ba\x7d!` return a - (1 - -a) \x7d").toOption,
      (∀ t ∈ tokens, ∀ content ∈ t.texts, '\\' ∉ content.toList) ∧
      ∃ p ∈ (Program.ofTokens 0 tokens).toOption, ∃ e ∈ p.roots,
        e.javaScript = "a - (1 - (-a))" := by
    decide +kernel
  obtain ⟨tokens, htokens, htexts, p, hp, e, he, htext⟩ := hrun
  have hscan := eq_ok_of_mem_toOption htokens
  have hparse := eq_ok_of_mem_toOption hp
  have hoccurs : e.OccursIn p := ⟨e, he, .self⟩
  exact ⟨tokens, p, e, hscan, hparse, hoccurs, htext,
    reading_javaScript_iff hscan htexts hparse hoccurs⟩

end Scriptwright
