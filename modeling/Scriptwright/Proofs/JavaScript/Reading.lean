import Scriptwright.Proofs.JavaScript.Emission
import Scriptwright.Proofs.JavaScript.Unique

/-!
# The reading of an emitted expression

The text of an expression is read as the tree of the expression, and as nothing else. An
operand is always a name, a literal, a group, a call or an access, so no operator in it
competes with the one that it stands beside. The text may stand before any other text
that does not lengthen its last name or number.
-/

namespace Scriptwright
open JavaScript
open Scan (IsName Alternating)

mutual

/-- What an expression says in JavaScript. A text is a template, and the literals that
are words and the number without an end are names. -/
def Expr.tree : Expr → Tree
  | .number value _ => if value.isInfinite then .name "Infinity" else .number value
  | .text content _ => .template (textParts content)
  | .boolean value _ => .name (if value then "true" else "false")
  | .nil _ => .name "null"
  | .identifier name _ => .name name
  | .binary left op right _ => .binary left.tree op right.tree
  | .unary op argument _ => .unary op argument.tree
  | .call callee arguments _ => .call callee.tree (Expr.listTree arguments)
  | .member base property computed _ => .member base.tree property.tree computed
  | .array elements _ => .array (Expr.listTree elements)
  | .object fields _ => .object (Expr.fieldsTree fields)
  | .template parts _ => .template (Expr.partsTree parts)

def Expr.listTree : List Expr → List Tree
  | [] => []
  | e :: es => e.tree :: Expr.listTree es

def Expr.fieldsTree : List (String × Expr) → List (String × Tree)
  | [] => []
  | (name, e) :: fields => (name, e.tree) :: Expr.fieldsTree fields

def Expr.partsTree : List TemplatePart → List Part
  | [] => []
  | .text content :: parts => textParts content ++ Expr.partsTree parts
  | .code e :: parts => .code e.tree :: Expr.partsTree parts

end

def TemplatePart.isText : TemplatePart → Bool
  | .text _ => true
  | .code _ => false

/-- An expression as it comes from a source text without backslashes in its literals. -/
inductive Expr.WellFormed : Expr → Prop
  | number {value span} (h : value.bits.toNat ≤ Binary64.infinityBits) :
      WellFormed (.number value span)
  | text {content span} (h : '\\' ∉ content.toList) : WellFormed (.text content span)
  | boolean {value span} : WellFormed (.boolean value span)
  | nil {span} : WellFormed (.nil span)
  | identifier {name span} (h : IsName name) : WellFormed (.identifier name span)
  | binary {left op right span} (hleft : WellFormed left) (hright : WellFormed right) :
      WellFormed (.binary left op right span)
  | unary {op argument span} (h : WellFormed argument) : WellFormed (.unary op argument span)
  | call {callee arguments span} (hcallee : WellFormed callee)
      (harguments : ∀ e ∈ arguments, WellFormed e) : WellFormed (.call callee arguments span)
  | index {base property span} (hbase : WellFormed base) (hproperty : WellFormed property) :
      WellFormed (.member base property true span)
  | access {base name nameSpan span} (hbase : WellFormed base) (hname : IsName name) :
      WellFormed (.member base (.identifier name nameSpan) false span)
  | array {elements span} (h : ∀ e ∈ elements, WellFormed e) : WellFormed (.array elements span)
  | object {fields span} (hnames : ∀ field ∈ fields, IsName field.1)
      (h : ∀ field ∈ fields, WellFormed field.2) : WellFormed (.object fields span)
  | template {parts span} (htexts : ∀ content, .text content ∈ parts → '\\' ∉ content.toList)
      (h : ∀ e, .code e ∈ parts → WellFormed e)
      (halternating : Alternating TemplatePart.isText parts) :
      WellFormed (.template parts span)

namespace JavaScript

/-- A primary expression with calls and accesses behind it. -/
def ReadsOperand (cs rest : List Char) (t : Tree) : Prop :=
  ∃ middle head, ReadsPrimary cs middle head ∧ ReadsTrailers head middle rest t

theorem ReadsPrimary.operand {cs rest : List Char} {t : Tree} (h : ReadsPrimary cs rest t) :
    ReadsOperand cs rest t :=
  ⟨rest, t, h, .stop⟩

theorem ReadsTrailers.trans : ∀ {base t t' : Tree} {cs middle rest : List Char},
    ReadsTrailers base cs middle t → ReadsTrailers t middle rest t' →
      ReadsTrailers base cs rest t'
  | _, _, _, _, _, _, .stop, h => h
  | _, _, _, _, _, _, .call hopen harguments hmore, h => .call hopen harguments (hmore.trans h)
  | _, _, _, _, _, _, .index hopen hproperty hclose hmore, h =>
    .index hopen hproperty hclose (hmore.trans h)
  | _, _, _, _, _, _, .access hdot hname hmore, h => .access hdot hname (hmore.trans h)

theorem ReadsOperand.trailers {cs middle rest : List Char} {base t : Tree}
    (h : ReadsOperand cs middle base) (htrailers : ReadsTrailers base middle rest t) :
    ReadsOperand cs rest t := by
  obtain ⟨after, head, hhead, hmore⟩ := h
  exact ⟨after, head, hhead, hmore.trans htrailers⟩

/-- A chain is also a chain of any looser level. -/
theorem ReadsChain.loosen {k : Nat} {cs rest : List Char} {t : Tree} (h : ReadsChain k cs rest t)
    (hk : k ≤ 6) {j : Nat} (hj : j ≤ k) : ReadsChain j cs rest t := by
  induction k with
  | zero =>
    cases Nat.le_zero.mp hj
    exact h
  | succ k ih =>
    rcases Nat.le_succ_iff.mp hj with hle | rfl
    · exact ih (.chain hk h .stop) (Nat.le_of_succ_le hk) hle
    · exact h

theorem ReadsUnary.chain {cs rest : List Char} {t : Tree} (h : ReadsUnary cs rest t) {k : Nat}
    (hk : k ≤ 6) : ReadsChain k cs rest t :=
  (ReadsChain.operand h).loosen (Nat.le_refl 6) hk

theorem ReadsOperand.unary {cs rest : List Char} {t : Tree} (h : ReadsOperand cs rest t) :
    ReadsUnary cs rest t := by
  obtain ⟨middle, head, hhead, htrailers⟩ := h
  exact .operand hhead htrailers

theorem readsChain_binary {cs middle after rest : List Char} {left right : Tree}
    {spelling : String} {op : BinaryOp} (hleft : ReadsOperand cs middle left)
    (hsign : next? middle = some (.sign spelling, after)) (hop : binarySign? spelling = some op)
    (hright : ReadsOperand after rest right) : ReadsChain 0 cs rest (.binary left op right) := by
  have hlevel := level_le op
  have hlinks : ReadsLinks (level op) left middle rest (.binary left op right) :=
    .link hsign hop rfl (hright.unary.chain (by omega)) .stop
  have hchain : ReadsChain (level op) cs rest (.binary left op right) :=
    .chain (by omega) (hleft.unary.chain (by omega)) hlinks
  exact hchain.loosen (by omega) (Nat.zero_le _)

theorem ReadsPrimary.of_next? {cs cs' rest : List Char} {t : Tree} (h : ReadsPrimary cs rest t)
    (hnext : next? cs' = next? cs) : ReadsPrimary cs' rest t := by
  cases h with
  | name h => exact .name (hnext.trans h)
  | number h => exact .number (hnext.trans h)
  | group hopen h hclose => exact .group (hnext.trans hopen) h hclose
  | array hopen h => exact .array (hnext.trans hopen) h
  | object hopen h => exact .object (hnext.trans hopen) h
  | template hopen h => exact .template (hnext.trans hopen) h

theorem ReadsUnary.of_next? {cs cs' rest : List Char} {t : Tree} (h : ReadsUnary cs rest t)
    (hnext : next? cs' = next? cs) : ReadsUnary cs' rest t := by
  cases h with
  | sign hsign hop h => exact .sign (hnext.trans hsign) hop h
  | operand hhead htrailers => exact .operand (hhead.of_next? hnext) htrailers

theorem ReadsChain.of_next? : ∀ {k : Nat} {cs cs' rest : List Char} {t : Tree},
    ReadsChain k cs rest t → next? cs' = next? cs → ReadsChain k cs' rest t
  | _, _, _, _, _, .operand h, hnext => .operand (h.of_next? hnext)
  | _, _, _, _, _, .chain hk hfirst hlinks, hnext => .chain hk (hfirst.of_next? hnext) hlinks

theorem ReadsOperand.blank {cs rest : List Char} {t : Tree} (h : ReadsOperand cs rest t) :
    ReadsOperand (' ' :: cs) rest t := by
  obtain ⟨middle, head, hhead, htrailers⟩ := h
  exact ⟨middle, head, hhead.of_next? (next?_blank cs), htrailers⟩

theorem ReadsChain.blank {k : Nat} {cs rest : List Char} {t : Tree} (h : ReadsChain k cs rest t) :
    ReadsChain k (' ' :: cs) rest t :=
  h.of_next? (next?_blank cs)

theorem ReadsField.blank {cs rest : List Char} {field : String × Tree}
    (h : ReadsField cs rest field) : ReadsField (' ' :: cs) rest field := by
  cases h with
  | field hname hcolon h => exact .field ((next?_blank cs).trans hname) hcolon h

end JavaScript

/-- The text of the expression is read as its tree. Unless the expression is an
operation, it can be an operand without parentheses. -/
structure Expr.Emits (e : Expr) : Prop where
  chain {rest : List Char} (hrest : Apart rest) :
    ReadsChain 0 (e.javaScript.toList ++ rest) rest e.tree
  operand (hop : e.isOperation = false) {rest : List Char} (hrest : Apart rest) :
    ReadsOperand (e.javaScript.toList ++ rest) rest e.tree
  opens (hop : e.isOperation = false) :
    ∃ c cs, e.javaScript.toList = c :: cs ∧ isOpening c = true

theorem Expr.emits_of_operand {e : Expr}
    (hreads : ∀ {rest : List Char}, Apart rest →
      ReadsOperand (e.javaScript.toList ++ rest) rest e.tree)
    (hopens : ∃ c cs, e.javaScript.toList = c :: cs ∧ isOpening c = true) : e.Emits := by
  refine ⟨?_, ?_, ?_⟩
  · intro rest hrest
    exact (hreads hrest).unary.chain (Nat.zero_le 6)
  · intro _ rest hrest
    exact hreads hrest
  · intro _
    exact hopens

/-- The text of an operand. -/
def Expr.operandText (e : Expr) : List Char :=
  (parenthesizedIf e.isOperation e.javaScript).toList

theorem Expr.operandText_of_operation {e : Expr} (h : e.isOperation = true) :
    e.operandText = '(' :: (e.javaScript.toList ++ [')']) := by
  simp [Expr.operandText, parenthesizedIf, h]

theorem Expr.operandText_of_not_operation {e : Expr} (h : e.isOperation = false) :
    e.operandText = e.javaScript.toList := by
  simp [Expr.operandText, parenthesizedIf, h]

theorem Expr.Emits.operandText_reads {e : Expr} (h : e.Emits) {rest : List Char}
    (hrest : Apart rest) : ReadsOperand (e.operandText ++ rest) rest e.tree := by
  cases hop : e.isOperation with
  | false =>
    rw [Expr.operandText_of_not_operation hop]
    exact h.operand hop hrest
  | true =>
    rw [Expr.operandText_of_operation hop, List.cons_append, List.append_assoc]
    exact (ReadsPrimary.group rfl (h.chain (apart_cons ')' rest rfl)) rfl).operand

theorem Expr.Emits.operandText_opens {e : Expr} (h : e.Emits) :
    ∃ c cs, e.operandText = c :: cs ∧ isOpening c = true := by
  cases hop : e.isOperation with
  | false =>
    rw [Expr.operandText_of_not_operation hop]
    exact h.opens hop
  | true =>
    rw [Expr.operandText_of_operation hop]
    exact ⟨'(', _, rfl, rfl⟩

theorem toList_commaSeparated (text : String) (texts : List String) :
    (commaSeparated (text :: texts)).toList =
      text.toList ++ texts.flatMap fun text => ',' :: ' ' :: text.toList := by
  unfold commaSeparated
  induction texts generalizing text with
  | nil => simp
  | cons next texts ih =>
    rw [String.intercalate_cons_cons, String.toList_append, String.toList_append, ih,
      List.flatMap_cons]
    simp

/-- What can stand behind an item: a comma or the closing sign. -/
theorem apart_items {close : Char} {rest : List Char} (hclose : Apart (close :: rest))
    (texts : List String) :
    Apart ((texts.flatMap fun text => ',' :: ' ' :: text.toList) ++ close :: rest) := by
  cases texts with
  | nil => exact hclose
  | cons text texts => exact apart_cons ',' _ rfl

section
variable {close : Char} {spelling : String} {rest : List Char}
variable (hsign : next? (close :: rest) = some (.sign spelling, rest))
  (hclose : Apart (close :: rest))
include hsign hclose

theorem readsMoreItems {es : List Expr} (h : ∀ e ∈ es, e.Emits) :
    ReadsMoreItems spelling
      (((Expr.listJavaScript es).flatMap fun text => ',' :: ' ' :: text.toList) ++ close :: rest)
      rest (Expr.listTree es) := by
  induction es with
  | nil => exact .none hsign
  | cons e es ih =>
    have hmore := ih fun e he => h e (List.mem_cons_of_mem _ he)
    have hitem := (h e List.mem_cons_self).chain
      (apart_items hclose (Expr.listJavaScript es))
    rw [Expr.listJavaScript, List.flatMap_cons, List.append_assoc, List.cons_append,
      List.cons_append]
    exact .some rfl hitem.blank hmore

theorem readsItems {es : List Expr} (h : ∀ e ∈ es, e.Emits) :
    ReadsItems spelling
      ((commaSeparated (Expr.listJavaScript es)).toList ++ close :: rest) rest
      (Expr.listTree es) := by
  cases es with
  | nil => exact .none hsign
  | cons e es =>
    have hmore := readsMoreItems hsign hclose fun e he => h e (List.mem_cons_of_mem _ he)
    have hitem := (h e List.mem_cons_self).chain
      (apart_items hclose (Expr.listJavaScript es))
    rw [Expr.listJavaScript, toList_commaSeparated, List.append_assoc]
    exact .some hitem hmore

end

theorem readsField {name : String} (hname : IsName name) {e : Expr} (he : e.Emits)
    {rest : List Char} (hrest : Apart rest) :
    ReadsField ((name ++ ": " ++ e.javaScript).toList ++ rest) rest (name, e.tree) := by
  have hcolon : Apart (':' :: ' ' :: (e.javaScript.toList ++ rest)) :=
    apart_cons _ _ rfl
  have htext : (name ++ ": " ++ e.javaScript).toList ++ rest =
      name.toList ++ ':' :: ' ' :: (e.javaScript.toList ++ rest) := by
    simp
  rw [htext]
  exact .field (next?_name hname hcolon) rfl (he.chain hrest).blank

theorem readsMoreFields {fields : List (String × Expr)} (hnames : ∀ field ∈ fields, IsName field.1)
    (h : ∀ field ∈ fields, field.2.Emits) (rest : List Char) :
    ReadsMoreFields
      (((Expr.fieldsJavaScript fields).flatMap fun text => ',' :: ' ' :: text.toList) ++
        ' ' :: '}' :: rest)
      rest (Expr.fieldsTree fields) := by
  induction fields with
  | nil => exact .none rfl
  | cons field fields ih =>
    obtain ⟨name, e⟩ := field
    have hmore := ih (fun field hf => hnames field (List.mem_cons_of_mem _ hf))
      fun field hf => h field (List.mem_cons_of_mem _ hf)
    have hfield := readsField (hnames _ List.mem_cons_self) (h _ List.mem_cons_self)
      (apart_items (apart_cons ' ' ('}' :: rest) rfl) (Expr.fieldsJavaScript fields))
    rw [Expr.fieldsJavaScript, List.flatMap_cons, List.append_assoc, List.cons_append,
      List.cons_append]
    exact .some rfl hfield.blank hmore

theorem readsFields {fields : List (String × Expr)} (hnames : ∀ field ∈ fields, IsName field.1)
    (h : ∀ field ∈ fields, field.2.Emits) (rest : List Char) :
    ReadsFields
      (' ' :: ((commaSeparated (Expr.fieldsJavaScript fields)).toList ++ ' ' :: '}' :: rest))
      rest (Expr.fieldsTree fields) := by
  cases fields with
  | nil => exact .none rfl
  | cons field fields =>
    obtain ⟨name, e⟩ := field
    have hmore := readsMoreFields (fun field hf => hnames field (List.mem_cons_of_mem _ hf))
      (fun field hf => h field (List.mem_cons_of_mem _ hf)) rest
    have hfield := readsField (hnames _ List.mem_cons_self) (h _ List.mem_cons_self)
      (apart_items (apart_cons ' ' ('}' :: rest) rfl) (Expr.fieldsJavaScript fields))
    rw [Expr.fieldsJavaScript, toList_commaSeparated, List.append_assoc]
    exact .some hfield.blank hmore

/-- Behind a text stands a substitution or the end of the template. -/
theorem eq_code_of_alternating {content : String} {part : TemplatePart} {parts : List TemplatePart}
    (h : Alternating TemplatePart.isText (.text content :: part :: parts)) :
    ∃ e, part = .code e := by
  have hnext := (List.isChain_cons_cons.mp h).1
  cases part with
  | text other => simp [TemplatePart.isText] at hnext
  | code e => exact ⟨e, rfl⟩

theorem beginsWithCode_partsTree {content : String} {parts : List TemplatePart}
    (h : Alternating TemplatePart.isText (.text content :: parts)) :
    BeginsWithCode (Expr.partsTree parts) := by
  cases parts with
  | nil => exact trivial
  | cons part parts =>
    obtain ⟨e, rfl⟩ := eq_code_of_alternating h
    exact trivial

theorem head?_partsJavaScript_ne_brace {content : String} {parts : List TemplatePart}
    (h : Alternating TemplatePart.isText (.text content :: parts)) (rest : List Char) :
    ((Expr.partsJavaScript parts).toList ++ '`' :: rest).head? ≠ some '{' := by
  cases parts with
  | nil => simp [Expr.partsJavaScript]
  | cons part parts =>
    obtain ⟨e, rfl⟩ := eq_code_of_alternating h
    simp [Expr.partsJavaScript]

theorem readsParts {parts : List TemplatePart}
    (htexts : ∀ content, .text content ∈ parts → '\\' ∉ content.toList)
    (h : ∀ e, .code e ∈ parts → e.Emits) (halternating : Alternating TemplatePart.isText parts)
    (rest : List Char) :
    ReadsParts ((Expr.partsJavaScript parts).toList ++ '`' :: rest) rest
      (Expr.partsTree parts) := by
  induction parts with
  | nil => exact .close rfl
  | cons part parts ih =>
    have hmore := ih (fun content hc => htexts content (List.mem_cons_of_mem _ hc))
      (fun e he => h e (List.mem_cons_of_mem _ he)) (List.IsChain.tail halternating)
    cases part with
    | text content =>
      have htext := readsParts_escape (htexts content List.mem_cons_self)
        (head?_partsJavaScript_ne_brace halternating rest) hmore
      rw [foldr_push (beginsWithCode_partsTree halternating), String.ofList_toList] at htext
      rw [Expr.partsJavaScript, String.toList_append, List.append_assoc, templateText,
        String.toList_ofList]
      exact htext
    | code e =>
      have hcode := (h e List.mem_cons_self).chain
        (apart_cons '}' ((Expr.partsJavaScript parts).toList ++ '`' :: rest) rfl)
      refine .code ?_ hcode rfl hmore
      simp [Expr.partsJavaScript]

theorem readsPrimary_template {content : String} {rest : List Char} {parts : List Part}
    (h : ReadsParts (content.toList ++ '`' :: rest) rest parts) :
    ReadsPrimary ((backticked content).toList ++ rest) rest (.template parts) := by
  have htext : (backticked content).toList ++ rest = '`' :: (content.toList ++ '`' :: rest) := by
    simp [backticked]
  rw [htext]
  exact .template rfl h

theorem backticked_opens (content : String) :
    ∃ c cs, (backticked content).toList = c :: cs ∧ isOpening c = true :=
  ⟨'`', content.toList ++ ['`'], by simp [backticked], rfl⟩

theorem Expr.emits_text {content : String} (h : '\\' ∉ content.toList) (span : Span) :
    (Expr.text content span).Emits := by
  refine Expr.emits_of_operand ?_ (backticked_opens _)
  intro rest _
  have hclose : ReadsParts ('`' :: rest) rest [] := .close rfl
  have hparts := readsParts_escape h (by simp) hclose
  rw [foldr_push beginsWithCode_nil, String.ofList_toList, List.append_nil] at hparts
  refine (readsPrimary_template ?_).operand
  rw [templateText, String.toList_ofList]
  exact hparts

theorem Expr.emits_name {name : String} (h : IsName name) {e : Expr}
    (htext : e.javaScript = name) (htree : e.tree = .name name) : e.Emits := by
  refine Expr.emits_of_operand ?_ ?_
  · intro rest hrest
    rw [htext, htree]
    exact (ReadsPrimary.name (next?_name h hrest)).operand
  · obtain ⟨c, cs, hname, hc, -⟩ := h
    refine ⟨c, cs, htext ▸ hname, ?_⟩
    simp [isOpening, isNameStart_of_scan hc]

theorem isName_boolean (value : Bool) : IsName (if value then "true" else "false") := by
  cases value <;> decide

theorem Expr.emits_number {value : Binary64} (h : value.bits.toNat ≤ Binary64.infinityBits)
    (span : Span) : (Expr.number value span).Emits := by
  have htext := Binary64.javaScript_of_le h
  cases hinfinite : value.isInfinite with
  | true =>
    rw [hinfinite, if_pos rfl] at htext
    exact Expr.emits_name (by decide) htext (by simp [Expr.tree, hinfinite])
  | false =>
    have hcs : (Expr.number value span).javaScript.toList = Binary64.shortest value.magnitude := by
      rw [Expr.javaScript, htext, hinfinite]
      simp
    have htree : (Expr.number value span).tree = .number value := by
      simp [Expr.tree, hinfinite]
    refine Expr.emits_of_operand ?_ ?_
    · intro rest hrest
      have hread := Binary64.readAs_shortest h hrest.endsNumber
      rw [hcs, htree]
      exact (ReadsPrimary.number (next?_number hread)).operand
    · obtain ⟨d, ds, hdigits, hdigit, -⟩ := Binary64.readAs_shortest h apart_nil.endsNumber
      refine ⟨d, ds, hcs.trans hdigits, ?_⟩
      simp [isOpening, hdigit]

theorem Expr.emits_binary {left right : Expr} (hleft : left.Emits) (hright : right.Emits)
    (op : BinaryOp) (span : Span) : (Expr.binary left op right span).Emits := by
  refine ⟨?_, nofun, nofun⟩
  intro rest hrest
  have htext : (Expr.binary left op right span).javaScript.toList ++ rest =
      left.operandText ++
        ' ' :: (op.javaScript.toList ++ ' ' :: (right.operandText ++ rest)) := by
    simp [Expr.javaScript, Expr.operandText]
  rw [htext]
  exact readsChain_binary (hleft.operandText_reads (apart_cons ' ' _ rfl)) (next?_operator op _)
    (binarySign?_javaScript op) (hright.operandText_reads hrest).blank

theorem Expr.emits_unary {argument : Expr} (h : argument.Emits) (op : UnaryOp) (span : Span) :
    (Expr.unary op argument span).Emits := by
  refine ⟨?_, nofun, nofun⟩
  intro rest hrest
  obtain ⟨c, cs, hcs, hc⟩ := h.operandText_opens
  have hsign := next?_prefixSign op hc (cs ++ rest)
  have hargument := h.operandText_reads hrest
  have htext : (Expr.unary op argument span).javaScript.toList ++ rest =
      op.javaScript.toList ++ (argument.operandText ++ rest) := by
    simp [Expr.javaScript, Expr.operandText]
  rw [hcs, List.cons_append] at hargument
  rw [htext, hcs, List.cons_append]
  have hunary := ReadsUnary.sign hsign (unarySign?_javaScript op) hargument.unary
  exact hunary.chain (Nat.zero_le 6)

/-- A call or an access is read behind its base. -/
theorem Expr.emits_trailer {base e : Expr} (hbase : base.Emits) (trailer : List Char)
    (htext : e.javaScript.toList = base.operandText ++ trailer)
    (hapart : ∀ rest, Apart (trailer ++ rest))
    (htrailer : ∀ {rest : List Char}, Apart rest →
      ReadsTrailers base.tree (trailer ++ rest) rest e.tree) : e.Emits := by
  refine Expr.emits_of_operand ?_ ?_
  · intro rest hrest
    rw [htext, List.append_assoc]
    exact (hbase.operandText_reads (hapart rest)).trailers (htrailer hrest)
  · obtain ⟨c, cs, hcs, hc⟩ := hbase.operandText_opens
    rw [htext, hcs]
    exact ⟨c, cs ++ trailer, rfl, hc⟩

theorem Expr.emits_call {callee : Expr} (hcallee : callee.Emits) {arguments : List Expr}
    (harguments : ∀ e ∈ arguments, e.Emits) (span : Span) :
    (Expr.call callee arguments span).Emits := by
  refine Expr.emits_trailer hcallee
    ('(' :: ((commaSeparated (Expr.listJavaScript arguments)).toList ++ [')'])) ?_ ?_ ?_
  · simp [Expr.javaScript, Expr.operandText]
  · intro rest
    exact apart_cons _ _ rfl
  · intro rest _
    have hclose : next? (')' :: rest) = some (.sign ")", rest) := rfl
    have hitems := readsItems hclose (apart_cons ')' rest rfl) harguments
    rw [List.cons_append, List.append_assoc]
    exact .call rfl hitems .stop

theorem Expr.emits_index {base property : Expr} (hbase : base.Emits) (hproperty : property.Emits)
    (span : Span) : (Expr.member base property true span).Emits := by
  refine Expr.emits_trailer hbase ('[' :: (property.javaScript.toList ++ [']'])) ?_ ?_ ?_
  · simp [Expr.javaScript, Expr.operandText]
  · intro rest
    exact apart_cons _ _ rfl
  · intro rest _
    have hinner := hproperty.chain (apart_cons ']' rest rfl)
    rw [List.cons_append, List.append_assoc]
    exact .index rfl hinner rfl .stop

/-- A point before a name does not make a fraction. -/
theorem apart_point_name {name : String} (h : IsName name) (rest : List Char) :
    Apart ('.' :: name.toList ++ rest) := by
  obtain ⟨c, cs, hcs, hc, -⟩ := h
  have hdigit : c.isDigit = false := by
    by_contra hdigit
    have hstart := not_isNameStart_of_isDigit (Bool.eq_true_of_not_eq_false hdigit)
    rw [isNameStart_of_scan hc] at hstart
    cases hstart
  refine ⟨by rintro _ ⟨⟩; rfl, ?_⟩
  rw [hcs]
  simp [Scan.fraction, hdigit]

theorem Expr.emits_access {base : Expr} (hbase : base.Emits) {name : String} (hname : IsName name)
    (nameSpan span : Span) :
    (Expr.member base (.identifier name nameSpan) false span).Emits := by
  obtain ⟨c, cs, hcs, hc, -⟩ := id hname
  have hpoint : c ≠ '.' := by
    rintro rfl
    cases hc
  refine Expr.emits_trailer hbase ('.' :: name.toList) ?_ ?_ ?_
  · simp [Expr.javaScript, Expr.operandText]
  · intro rest
    exact apart_point_name hname rest
  · intro rest hrest
    have hdot := next?_point hpoint (cs ++ rest)
    rw [← List.cons_append, ← hcs] at hdot
    exact .access hdot (next?_name hname hrest) .stop

theorem Expr.emits_array {elements : List Expr} (h : ∀ e ∈ elements, e.Emits) (span : Span) :
    (Expr.array elements span).Emits := by
  have htext : (Expr.array elements span).javaScript.toList =
      '[' :: ((commaSeparated (Expr.listJavaScript elements)).toList ++ [']']) := by
    simp [Expr.javaScript]
  refine Expr.emits_of_operand ?_ ⟨_, _, htext, rfl⟩
  intro rest _
  have hclose : next? (']' :: rest) = some (.sign "]", rest) := rfl
  have hitems := readsItems hclose (apart_cons ']' rest rfl) h
  rw [htext, List.cons_append, List.append_assoc]
  exact (ReadsPrimary.array rfl hitems).operand

theorem Expr.emits_object {fields : List (String × Expr)}
    (hnames : ∀ field ∈ fields, IsName field.1) (h : ∀ field ∈ fields, field.2.Emits)
    (span : Span) : (Expr.object fields span).Emits := by
  have htext : (Expr.object fields span).javaScript.toList =
      '{' :: ' ' :: ((commaSeparated (Expr.fieldsJavaScript fields)).toList ++ [' ', '}']) := by
    simp [Expr.javaScript]
  refine Expr.emits_of_operand ?_ ⟨_, _, htext, rfl⟩
  intro rest _
  have hfields := readsFields hnames h rest
  rw [htext, List.cons_append, List.cons_append, List.append_assoc]
  exact (ReadsPrimary.object rfl hfields).operand

theorem Expr.emits_template {parts : List TemplatePart}
    (htexts : ∀ content, .text content ∈ parts → '\\' ∉ content.toList)
    (h : ∀ e, .code e ∈ parts → e.Emits) (halternating : Alternating TemplatePart.isText parts)
    (span : Span) :
    (Expr.template parts span).Emits := by
  refine Expr.emits_of_operand ?_ (backticked_opens _)
  intro rest _
  exact (readsPrimary_template (readsParts htexts h halternating rest)).operand

theorem Expr.WellFormed.emits {e : Expr} (h : e.WellFormed) : e.Emits := by
  induction h with
  | number h => exact emits_number h _
  | text h => exact emits_text h _
  | @boolean value span => exact emits_name (isName_boolean value) rfl rfl
  | nil => exact emits_name (by decide : IsName "null") rfl rfl
  | identifier h => exact emits_name h rfl rfl
  | binary _ _ hleft hright => exact emits_binary hleft hright _ _
  | unary _ h => exact emits_unary h _ _
  | call _ _ hcallee harguments => exact emits_call hcallee harguments _
  | index _ _ hbase hproperty => exact emits_index hbase hproperty _
  | access _ hname hbase => exact emits_access hbase hname _ _
  | array _ h => exact emits_array h _
  | object hnames _ h => exact emits_object hnames h _
  | template htexts _ halternating h => exact emits_template htexts h halternating _

/-- The text has one reading, and it is the tree of the expression. -/
theorem Expr.WellFormed.reading_iff {e : Expr} (h : e.WellFormed) (t : Tree) :
    Reading e.javaScript t ↔ t = e.tree := by
  have hchain := h.emits.chain apart_nil
  rw [List.append_nil] at hchain
  have hreading : Reading e.javaScript e.tree := ⟨[], hchain, nofun⟩
  constructor
  · intro ht
    exact reading_unique ht hreading
  · rintro rfl
    exact hreading

end Scriptwright
