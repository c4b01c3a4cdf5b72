import Mathlib.Algebra.Group.Nat.Even
import Mathlib.Data.List.Induction
import Scriptwright.Proofs.Grammar.Expr
import Scriptwright.Proofs.JavaScript.Emission

/-!
# Where an emitted template closes

JavaScript walks over a template character by character. A backslash takes the character
behind it out of account, `${` opens a substitution that the next brace closes, and a
backtick ends the template.

The emitter puts a backslash before a backtick and before `${`. It does not look at the
backslashes that stand there already. An odd number of them turns its own backslash into
text, so the template ends, or a substitution begins, where neither was meant. The same
holds at the end of a text, where an odd number takes the backtick or the substitution
that follows out of account. These are the only ways in which a template fails to close
at its last character with the substitutions it should have.
-/

namespace Scriptwright

namespace JavaScript

/-- Where a walk stands: in text, behind a backslash, or in a substitution of which the
given characters, last one first, have been read. -/
inductive Place where
  | text
  | escaped
  | code (read : List Char)

/-- The substitutions on the way to the closing backtick, and the characters behind it. -/
def walk : Place → List Char → Option (List String × List Char)
  | _, [] => none
  | .escaped, _ :: cs => walk .text cs
  | .code read, '}' :: cs =>
    (walk .text cs).map fun found => (String.ofList read.reverse :: found.1, found.2)
  | .code read, c :: cs => walk (.code (c :: read)) cs
  | .text, '`' :: cs => some ([], cs)
  | .text, '\\' :: cs => walk .escaped cs
  | .text, '$' :: '{' :: cs => walk (.code []) cs
  | .text, _ :: cs => walk .text cs

/-- The walk over a whole text from its opening backtick. -/
def walkTemplate (text : String) : Option (List String × List Char) :=
  match text.toList with
  | '`' :: cs => walk .text cs
  | _ => none

/-- The text is one template that closes at its last character. -/
def IsTemplate (text : String) (substitutions : List String) : Prop :=
  walkTemplate text = some (substitutions, [])

instance (text : String) (substitutions : List String) :
    Decidable (IsTemplate text substitutions) :=
  inferInstanceAs (Decidable (_ = _))

section Steps

attribute [local simp] walk

theorem walk_escaped (c : Char) (cs : List Char) : walk .escaped (c :: cs) = walk .text cs := by
  rw [walk]

theorem walk_backslash (cs : List Char) : walk .text ('\\' :: cs) = walk .escaped cs := by
  rw [walk]

/-- A character of text that ends nothing and opens nothing. -/
theorem walk_plain {c : Char} (htick : c ≠ '`') (hslash : c ≠ '\\') {cs : List Char}
    (hdollar : c = '$' → cs.head? ≠ some '{') : walk .text (c :: cs) = walk .text cs := by
  rw [walk]
  · exact htick
  · exact hslash
  · rintro ds rfl rfl
    exact hdollar rfl rfl

theorem walk_code {c : Char} (hc : c ≠ '}') (read cs : List Char) :
    walk (.code read) (c :: cs) = walk (.code (c :: read)) cs := by
  rw [walk]
  exact hc

theorem walk_code_ne_nil {read cs rest : List Char} : walk (.code read) cs ≠ some ([], rest) := by
  induction cs generalizing read with
  | nil => simp
  | cons c cs ih =>
    by_cases hc : c = '}'
    · subst hc
      simp
    · rw [walk_code hc]
      exact ih

theorem walk_code_name {name : List Char} (h : '}' ∉ name) (read cs : List Char) :
    walk (.code read) (name ++ '}' :: cs) = (walk .text cs).map fun found =>
      (String.ofList (read.reverse ++ name) :: found.1, found.2) := by
  induction name generalizing read with
  | nil => simp
  | cons c name ih =>
    rw [List.mem_cons, not_or] at h
    rw [List.cons_append, walk_code (Ne.symm h.1), ih h.2]
    simp

end Steps

/-- Whether a backslash is in force behind the character, if one was or was not before. -/
def escapeStep (escaping : Bool) (c : Char) : Bool := !escaping && c == '\\'

def Place.ofEscaping : Bool → Place
  | true => .escaped
  | false => .text

/-- Unless the character is significant where it stands, a walk passes over it. -/
theorem walk_step {escaping : Bool} {c : Char} {cs : List Char}
    (htick : escaping = false → c ≠ '`')
    (hdollar : escaping = false → c = '$' → cs.head? ≠ some '{') :
    walk (.ofEscaping escaping) (c :: cs) = walk (.ofEscaping (escapeStep escaping c)) cs := by
  cases escaping with
  | true => exact walk_escaped c cs
  | false =>
    by_cases hslash : c = '\\'
    · subst hslash
      exact walk_backslash cs
    · have hstep : escapeStep false c = false := by simp [escapeStep, hslash]
      rw [hstep]
      exact walk_plain (htick rfl) hslash (hdollar rfl)

/-- The number of backslashes at the end. -/
def trailingBackslashes (cs : List Char) : Nat := (cs.reverse.takeWhile (· == '\\')).length

theorem foldl_escapeStep (cs : List Char) :
    cs.foldl escapeStep false = false ↔ Even (trailingBackslashes cs) := by
  induction cs using List.reverseRecOn with
  | nil => simp [trailingBackslashes]
  | append_singleton cs c ih =>
    rw [List.foldl_append]
    by_cases hc : c = '\\'
    · have hcount : trailingBackslashes (cs ++ [c]) = trailingBackslashes cs + 1 := by
        simp [trailingBackslashes, hc]
      rw [hcount, Nat.even_add_one, ← ih]
      simp [escapeStep, hc]
    · have hcount : trailingBackslashes (cs ++ [c]) = 0 := by
        simp [trailingBackslashes, hc]
      simp [hcount, escapeStep, hc]

/-- The end of a text, a backtick or the beginning of a substitution. -/
def Significant (after : List Char) : Prop :=
  after = [] ∨ after.head? = some '`' ∨ ['$', '{'] <+: after

/-- No backslash is in force before the end of the text, a backtick or `${`. -/
def Unescaped (escaping : Bool) (content : List Char) : Prop :=
  ∀ before after, content = before ++ after → Significant after →
    before.foldl escapeStep escaping = false

theorem unescaped_iff_even (content : List Char) :
    Unescaped false content ↔ ∀ before after, content = before ++ after → Significant after →
      Even (trailingBackslashes before) := by
  simp only [Unescaped, foldl_escapeStep]

theorem unescaped_nil {escaping : Bool} : Unescaped escaping [] ↔ escaping = false := by
  constructor
  · intro h
    exact h [] [] rfl (.inl rfl)
  · rintro rfl before after heq _
    rw [(List.append_eq_nil_iff.mp heq.symm).1]
    rfl

/-- A first character counts only if something significant begins with it. -/
theorem unescaped_cons {escaping : Bool} {c : Char} {cs : List Char} :
    Unescaped escaping (c :: cs) ↔ (Significant (c :: cs) → escaping = false) ∧
      Unescaped (escapeStep escaping c) cs := by
  constructor
  · intro h
    refine ⟨h [] (c :: cs) rfl, ?_⟩
    intro before after heq hafter
    exact h (c :: before) after (by rw [heq, List.cons_append]) hafter
  · rintro ⟨hfirst, hmore⟩ before after heq hafter
    cases before with
    | nil =>
      rw [List.nil_append] at heq
      exact hfirst (heq ▸ hafter)
    | cons d before =>
      obtain ⟨rfl, rfl⟩ := List.cons.inj heq
      exact hmore before after rfl hafter

/-- In a text without backticks and braces only the end is significant. -/
theorem unescaped_templateText {content : List Char}
    (h : ∀ c ∈ content, Scan.isTemplateText c = true) :
    Unescaped false content ↔ content.foldl escapeStep false = false := by
  constructor
  · intro hall
    exact hall content [] (by simp) (.inl rfl)
  · intro hend before after heq hafter
    have hplain : ∀ c ∈ after, Scan.isTemplateText c = true := by
      intro c hc
      exact h c (heq ▸ List.mem_append_right _ hc)
    have hnil : after = [] := by
      rcases hafter with hnil | hhead | ⟨more, rfl⟩
      · exact hnil
      · exact absurd (hplain '`' (List.mem_of_mem_head? hhead)) (by decide)
      · exact absurd (hplain '{' (by simp)) (by decide)
    rw [hnil, List.append_nil] at heq
    rw [← heq]
    exact hend

/-- The walk over an emitted text closes behind it exactly if nothing that the emitter
escapes was escaped already. -/
theorem walk_escape_iff (escaping : Bool) (content : List Char) :
    walk (.ofEscaping escaping) (escape content ++ ['`']) = some ([], []) ↔
      Unescaped escaping content := by
  fun_induction escape content generalizing escaping with
  | case1 =>
    rw [unescaped_nil]
    cases escaping <;> simp [Place.ofEscaping, walk]
  | case2 cs ih =>
    have hsignificant : Significant ('`' :: cs) := .inr (.inl rfl)
    rw [unescaped_cons]
    cases escaping with
    | false =>
      have hwalk : walk .text ('\\' :: '`' :: (escape cs ++ ['`'])) =
          walk .text (escape cs ++ ['`']) := by
        rw [walk_backslash, walk_escaped]
      exact (hwalk ▸ ih false).trans ⟨fun h => ⟨fun _ => rfl, h⟩, fun h => h.2⟩
    | true =>
      have hwalk : walk .escaped ('\\' :: '`' :: (escape cs ++ ['`'])) =
          some ([], escape cs ++ ['`']) := by
        rw [walk_escaped, walk]
      simp [Place.ofEscaping, hwalk, hsignificant]
  | case3 cs ih =>
    have hsignificant : Significant ('$' :: '{' :: cs) := .inr (.inr ⟨cs, rfl⟩)
    rw [unescaped_cons, unescaped_cons]
    cases escaping with
    | false =>
      have hwalk : walk .text ('\\' :: '$' :: '{' :: (escape cs ++ ['`'])) =
          walk .text (escape cs ++ ['`']) := by
        rw [walk_backslash, walk_escaped, walk_plain (by decide) (by decide) (by simp)]
      exact (hwalk ▸ ih false).trans
        ⟨fun h => ⟨fun _ => rfl, fun _ => rfl, h⟩, fun h => h.2.2⟩
    | true =>
      have hwalk : walk .escaped ('\\' :: '$' :: '{' :: (escape cs ++ ['`'])) =
          walk (.code []) (escape cs ++ ['`']) := by
        rw [walk_escaped, walk]
      simp [Place.ofEscaping, hwalk, hsignificant, walk_code_ne_nil]
  | case4 c cs htick hdollar ih =>
    have hplain : ¬ Significant (c :: cs) := by
      rintro (hnil | hhead | ⟨more, hmore⟩)
      · cases hnil
      · exact htick (Option.some.inj hhead)
      · cases hmore
        exact hdollar more rfl rfl
    have hhead : c = '$' → (escape cs ++ ['`']).head? ≠ some '{' := by
      rintro rfl
      refine head?_escape_ne_brace ?_ (by simp)
      intro hbrace
      obtain ⟨more, rfl⟩ := List.head?_eq_some_iff.mp hbrace
      exact hdollar more rfl rfl
    have hwalk : walk (.ofEscaping escaping) (c :: (escape cs ++ ['`'])) =
        walk (.ofEscaping (escapeStep escaping c)) (escape cs ++ ['`']) :=
      walk_step (fun _ => htick) fun _ => hhead
    rw [unescaped_cons, List.cons_append, hwalk, ih]
    simp [hplain]

/-- A text without backticks and braces is emitted as it is, and its end alone counts. -/
theorem walk_templateText {content tail : List Char}
    (hcontent : ∀ c ∈ content, Scan.isTemplateText c = true) (htail : tail.head? ≠ some '{')
    (escaping : Bool) :
    walk (.ofEscaping escaping) (escape content ++ tail) =
      walk (.ofEscaping (content.foldl escapeStep escaping)) tail := by
  induction content generalizing escaping with
  | nil => rfl
  | cons c cs ih =>
    obtain ⟨hc, hcs⟩ := List.forall_mem_cons.mp hcontent
    simp only [Scan.isTemplateText, Bool.and_eq_true, bne_iff_ne] at hc
    have hhead : cs.head? ≠ some '{' := by
      intro hbrace
      obtain ⟨more, rfl⟩ := List.head?_eq_some_iff.mp hbrace
      exact absurd (hcs '{' List.mem_cons_self) (by decide)
    have hescape : escape (c :: cs) = c :: escape cs := by
      rw [escape]
      · exact hc.1
      · rintro more rfl rfl
        exact hhead rfl
    rw [hescape, List.cons_append,
      walk_step (fun _ => hc.1) (fun _ _ => head?_escape_ne_brace hhead htail), ih hcs]
    rfl

/-- What is no backtick, backslash or dollar is passed over. -/
theorem walk_inert {cs : List Char} (h : ∀ c ∈ cs, c ≠ '`' ∧ c ≠ '\\' ∧ c ≠ '$')
    (tail : List Char) : walk .text (cs ++ tail) = walk .text tail := by
  induction cs with
  | nil => rfl
  | cons c cs ih =>
    obtain ⟨⟨htick, hslash, hdollar⟩, hcs⟩ := List.forall_mem_cons.mp h
    rw [List.cons_append, walk_plain htick hslash (fun heq => absurd heq hdollar), ih hcs]

theorem isNamePart_of_mem {name : String} (h : Scan.IsName name) {c : Char}
    (hc : c ∈ name.toList) : Scan.isNamePart c = true := by
  obtain ⟨first, more, hname, hfirst, hmore⟩ := h
  rw [hname] at hc
  rcases List.mem_cons.mp hc with rfl | hc
  · exact Scan.isNamePart_of_isNameStart hfirst
  · exact hmore c hc

theorem ne_of_isNamePart {c d : Char} (hc : Scan.isNamePart c = true)
    (hd : Scan.isNamePart d = false) : c ≠ d := by
  rintro rfl
  rw [hc] at hd
  cases hd

/-- A substitution behind a backslash is text. -/
theorem walk_escaped_substitution {name : String} (h : Scan.IsName name) (tail : List Char) :
    walk .escaped ('$' :: '{' :: (name.toList ++ '}' :: tail)) = walk .text tail := by
  have hinert : ∀ c ∈ '{' :: (name.toList ++ ['}']), c ≠ '`' ∧ c ≠ '\\' ∧ c ≠ '$' := by
    intro c hc
    rcases List.mem_cons.mp hc with rfl | hc
    · decide
    · rcases List.mem_append.mp hc with hc | hc
      · have hpart := isNamePart_of_mem h hc
        exact ⟨ne_of_isNamePart hpart rfl, ne_of_isNamePart hpart rfl, ne_of_isNamePart hpart rfl⟩
      · cases List.mem_singleton.mp hc
        decide
  have hwalk := walk_inert hinert tail
  rw [List.cons_append, List.append_assoc] at hwalk
  rw [walk_escaped]
  exact hwalk

theorem walk_substitution {name : String} (h : Scan.IsName name) (tail : List Char) :
    walk .text ('$' :: '{' :: (name.toList ++ '}' :: tail)) =
      (walk .text tail).map fun found => (name :: found.1, found.2) := by
  have hbrace : '}' ∉ name.toList := by
    intro hmem
    exact absurd (isNamePart_of_mem h hmem) (by decide)
  rw [walk, walk_code_name hbrace]
  simp

/-- The emitted segments up to the closing backtick. -/
def segmentsText (segments : List Segment) : List Char :=
  (Expr.partsJavaScript (segments.map Segment.part)).toList ++ ['`']

section Segments

attribute [local simp] Expr.partsJavaScript Expr.javaScript

theorem segmentsText_text (content : String) (segments : List Segment) :
    segmentsText (.text content :: segments) = escape content.toList ++ segmentsText segments := by
  simp [segmentsText, Segment.part, templateText]

theorem segmentsText_name (name : String) (span : Span) (segments : List Segment) :
    segmentsText (.name name span :: segments) =
      '$' :: '{' :: (name.toList ++ '}' :: segmentsText segments) := by
  simp [segmentsText, Segment.part]

theorem head?_segmentsText {content : String} {segments : List Segment}
    (h : Scan.Divided (.text content :: segments)) :
    (segmentsText segments).head? ≠ some '{' := by
  cases segments with
  | nil => simp [segmentsText]
  | cons segment segments =>
    obtain ⟨name, span, rfl⟩ := h.eq_name
    simp [segmentsText_name]

end Segments

theorem walk_text_segment {content : String} {segments : List Segment}
    (h : Scan.Divided (.text content :: segments)) (escaping : Bool) :
    walk (.ofEscaping escaping) (segmentsText (.text content :: segments)) =
      walk (.ofEscaping (content.toList.foldl escapeStep escaping)) (segmentsText segments) := by
  rw [segmentsText_text]
  exact walk_templateText (h.text List.mem_cons_self) (head?_segmentsText h) escaping

/-- A walk never finds more substitutions than there are names. -/
theorem length_found_le {segments : List Segment} (h : Scan.Divided segments) (escaping : Bool)
    {found : List String × List Char}
    (hwalk : walk (.ofEscaping escaping) (segmentsText segments) = some found) :
    found.1.length ≤ (segments.filterMap Segment.name?).length := by
  induction segments generalizing escaping found with
  | nil =>
    cases escaping with
    | false =>
      cases hwalk
      exact Nat.le_refl 0
    | true => cases hwalk
  | cons segment segments ih =>
    cases segment with
    | text content =>
      rw [walk_text_segment h] at hwalk
      exact ih h.tail _ hwalk
    | name name span =>
      rw [segmentsText_name] at hwalk
      have hname := h.name List.mem_cons_self
      cases escaping with
      | true =>
        have hrest := (walk_escaped_substitution hname _).symm.trans hwalk
        have hle := ih h.tail false hrest
        exact Nat.le_succ_of_le hle
      | false =>
        have hrest := (walk_substitution hname _).symm.trans hwalk
        obtain ⟨later, hlater, rfl⟩ := Option.map_eq_some_iff.mp hrest
        have hle := ih h.tail false hlater
        exact Nat.succ_le_succ hle

/-- A backslash at the end of a text takes away the closing backtick or a substitution. -/
theorem walk_escaped_segments_ne {content : String} {segments : List Segment}
    (h : Scan.Divided (.text content :: segments)) :
    walk .escaped (segmentsText segments) ≠ some (segments.filterMap Segment.name?, []) := by
  cases segments with
  | nil => simp [segmentsText, Expr.partsJavaScript, walk]
  | cons segment segments =>
    obtain ⟨name, span, rfl⟩ := h.eq_name
    rw [segmentsText_name, walk_escaped_substitution (h.tail.name List.mem_cons_self)]
    intro hwalk
    have hle := length_found_le h.tail.tail false hwalk
    exact Nat.not_succ_le_self _ hle

theorem walk_segments_iff {segments : List Segment} (h : Scan.Divided segments) :
    walk .text (segmentsText segments) = some (segments.filterMap Segment.name?, []) ↔
      ∀ content, .text content ∈ segments → content.toList.foldl escapeStep false = false := by
  induction segments with
  | nil => simp [segmentsText, Expr.partsJavaScript, walk]
  | cons segment segments ih =>
    cases segment with
    | text content =>
      have hwalk := walk_text_segment h false
      cases hend : content.toList.foldl escapeStep false with
      | false =>
        rw [hend] at hwalk
        rw [show walk .text _ = walk .text (segmentsText segments) from hwalk]
        refine (ih h.tail).trans ?_
        simp [hend]
      | true =>
        rw [hend] at hwalk
        rw [show walk .text _ = walk .escaped (segmentsText segments) from hwalk]
        refine iff_of_false (walk_escaped_segments_ne h) ?_
        intro hall
        rw [hall content List.mem_cons_self] at hend
        cases hend
    | name name span =>
      have hname := h.name List.mem_cons_self
      rw [segmentsText_name, walk_substitution hname]
      refine Iff.trans ?_ ((ih h.tail).trans ?_)
      · simp [Segment.name?]
      · simp

end JavaScript

open JavaScript

theorem isTemplate_text_iff (content : String) (span : Span) :
    IsTemplate (Expr.text content span).javaScript [] ↔ Unescaped false content.toList := by
  have htext : (Expr.text content span).javaScript.toList =
      '`' :: (escape content.toList ++ ['`']) := by
    simp [Expr.javaScript, backticked, templateText]
  unfold IsTemplate walkTemplate
  rw [htext]
  exact walk_escape_iff false content.toList

theorem isTemplate_template_iff {segments : List Segment} (h : Scan.Divided segments)
    (span : Span) :
    IsTemplate (Expr.template (segments.map Segment.part) span).javaScript
        (segments.filterMap Segment.name?) ↔
      ∀ content, .text content ∈ segments → Unescaped false content.toList := by
  have htext : (Expr.template (segments.map Segment.part) span).javaScript.toList =
      '`' :: segmentsText segments := by
    simp [Expr.javaScript, backticked, segmentsText]
  unfold IsTemplate walkTemplate
  rw [htext]
  refine (walk_segments_iff h).trans (forall₂_congr fun content hmem => ?_)
  exact (unescaped_templateText (h.text hmem)).symm

open Grammar in
theorem run_expr_text {t : Token} {content : String} (hkind : t.kind = .text)
    (hvalue : t.value = .text content) :
    Parser.run (Parser.expr nestingLimit) [t] = .ok (.text content t.span, []) := by
  have hdenotes : term? t = some (.text content t.span) := by
    simp [term?, hkind, hvalue]
  have hrun := (expr_reads nestingLimit).complete
    (ExprTree.single (.plain (.term ⟨t, .text content t.span, hdenotes⟩) []) rfl) (ends_nil _)
  exact hrun

open Grammar in
theorem run_expr_template {t : Token} (hkind : t.kind = .template) :
    Parser.run (Parser.expr nestingLimit) [t] =
      .ok (.template (t.segments.map Segment.part) t.span, []) := by
  have hrun := (expr_reads nestingLimit).complete (ExprTree.template ⟨t, hkind⟩) (ends_nil _)
  exact hrun

/-- The JavaScript text of a text or template token is one closed template with the
names of the token as its substitutions, exactly if an even number of backslashes stands
before whatever the emitter escapes and before the end of each text. -/
theorem isTemplate_javaScript_iff {file : Nat} {source : String} {tokens : List Token}
    (hscan : scan file source = .ok tokens) {t : Token} (ht : t ∈ tokens)
    (hkind : t.kind = .text ∨ t.kind = .template) :
    ∃ e, Parser.run (Parser.expr nestingLimit) [t] = .ok (e, []) ∧
      (IsTemplate e.javaScript t.interpolations ↔
        ∀ content ∈ t.texts, ∀ before after, content.toList = before ++ after →
          Significant after → Even (trailingBackslashes before)) := by
  simp only [← unescaped_iff_even]
  rcases Scan.lexed_or_finish hscan ht with hlexed | ⟨stop, rfl⟩
  · rcases hkind with hkind | hkind
    · obtain ⟨content, hvalue⟩ := hlexed.value_text hkind
      refine ⟨_, run_expr_text hkind hvalue, ?_⟩
      have hnames : t.interpolations = [] := by
        simp [Token.interpolations, Token.segments, hvalue]
      have htexts : t.texts = [content] := by
        simp [Token.texts, hvalue]
      rw [hnames, htexts, List.forall_mem_singleton]
      exact isTemplate_text_iff content t.span
    · obtain ⟨segments, hvalue⟩ := hlexed.value_template hkind
      refine ⟨_, run_expr_template hkind, ?_⟩
      simp only [mem_texts_of_template hvalue]
      exact isTemplate_template_iff hlexed.divided t.span
  · rcases hkind with hkind | hkind <;> cases hkind

/-- Behind two backslashes the emitter escapes a backtick, and the template is closed. -/
theorem isTemplate_even_backslashes : ∃ tokens t e,
    scan 0 "func f = \x7b\x7d \x7b return \"\\\\`\" \x7d" = .ok tokens ∧ t ∈ tokens ∧
      t.kind = .text ∧ Parser.run (Parser.expr nestingLimit) [t] = .ok (e, []) ∧
      e.javaScript = "`\\\\\\``" ∧ IsTemplate e.javaScript t.interpolations := by
  have hrun : ∃ tokens ∈ (scan 0 "func f = \x7b\x7d \x7b return \"\\\\`\" \x7d").toOption,
      ∃ t ∈ tokens, t.kind = .text ∧ t.texts = ["\\\\`"] ∧
        ∃ found ∈ (Parser.run (Parser.expr nestingLimit) [t]).toOption,
          found.1.javaScript = "`\\\\\\``" := by
    decide +kernel
  obtain ⟨tokens, htokens, t, ht, hkind, htexts, found, hfound, htext⟩ := hrun
  have hscan := eq_ok_of_mem_toOption htokens
  obtain ⟨e, he, hiff⟩ := isTemplate_javaScript_iff hscan ht (.inl hkind)
  have hfound : (e, []) = found := Except.ok.inj (he.symm.trans (eq_ok_of_mem_toOption hfound))
  rw [← hfound] at htext
  have hunescaped : Unescaped false "\\\\`".toList := by
    have hplain : ¬ Significant ['\\', '`'] := by
      simp [Significant]
    refine unescaped_cons.mpr ⟨fun _ => rfl, unescaped_cons.mpr ⟨fun h => absurd h hplain, ?_⟩⟩
    exact unescaped_cons.mpr ⟨fun _ => rfl, unescaped_nil.mpr rfl⟩
  rw [htexts, List.forall_mem_singleton, ← unescaped_iff_even] at hiff
  exact ⟨tokens, t, e, hscan, ht, hkind, he, htext, hiff.mpr hunescaped⟩

/-- A backtick that is escaped in the source closes the template too early. -/
theorem not_isTemplate_escaped_backtick :
    ∃ tokens ∈ (scan 0 "func f = \x7b\x7d \x7b return \"\\`\" \x7d").toOption, ∃ t ∈ tokens,
      t.kind = .text ∧ ∃ found ∈ (Parser.run (Parser.expr nestingLimit) [t]).toOption,
        ¬ IsTemplate found.1.javaScript t.interpolations := by
  decide +kernel

end Scriptwright
