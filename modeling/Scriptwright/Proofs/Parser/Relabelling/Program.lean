import Scriptwright.Proofs.Parser.Relabelling

/-!
# Programs with other spans

What `Relabelling` says of expressions holds of types, statements, blocks and
declarations: if the spans of tokens are changed in a way that agrees with joining, a
declaration is read from the same number of tokens and has the same JavaScript text.
-/

namespace Scriptwright

def TypeExpr.isFunction : TypeExpr → Bool
  | .function .. => true
  | _ => false

/-- Types have no JavaScript text. A function type calls for a function after it. -/
structure TypeExpr.Tracked (f : Span → Span) (t t' : TypeExpr) : Prop where
  isFunction : t'.isFunction = t.isFunction
  span : t'.span = f t.span

structure Signature.Tracked (f : Span → Span) (s s' : Signature) : Prop where
  name : s'.name = s.name
  span : s'.span = f s.span

structure Assignment.Tracked (f : Span → Span) (a a' : Assignment) : Prop where
  text : a'.javaScript = a.javaScript
  span : a'.span = f a.span

structure Block.Tracked (f : Span → Span) (b b' : Block) : Prop where
  text : ∀ level, b'.javaScript level = b.javaScript level
  span : b'.span = f b.span

/-- The same JavaScript text at every depth. -/
def Declaration.SameText (d d' : Declaration) : Prop :=
  ∀ level, d'.javaScript level = d.javaScript level

def Statement.SameText (s s' : Statement) : Prop :=
  ∀ level, s'.javaScript level = s.javaScript level

def Item.SameText (i i' : Item) : Prop :=
  ∀ level, Item.listJavaScript level [i'] = Item.listJavaScript level [i]

theorem Item.listJavaScript_cons (level : Nat) (item : Item) (items : List Item) :
    listJavaScript level (item :: items) =
      listJavaScript level [item] ++ listJavaScript level items := by
  cases item <;> simp only [listJavaScript, String.append_empty]

theorem Item.listJavaScript_of_sameText {items items' : List Item}
    (h : List.Forall₂ SameText items items') (level : Nat) :
    listJavaScript level items' = listJavaScript level items := by
  induction h with
  | nil => rfl
  | @cons item item' items items' hitem _ ih =>
    rw [listJavaScript_cons level item', listJavaScript_cons level item, hitem level, ih]

theorem Declaration.sameText_function {body body' : Block}
    (hbody : ∀ level, body'.javaScript level = body.javaScript level)
    {parameters parameters' : List Parameter}
    (hparameters : List.Forall₂ (fun p p' => p'.name = p.name) parameters parameters')
    (name : String) (result result' : Option TypeExpr) (span span' : Span) :
    SameText (.function name parameters result body span)
      (.function name parameters' result' body' span') := by
  have hnames : parameters'.map (·.name) = parameters.map (·.name) := by
    induction hparameters with
    | nil => rfl
    | cons hp _ ih => rw [List.map_cons, List.map_cons, hp, ih]
  intro level
  simp only [javaScript, hnames, hbody]

theorem Block.tracked_mk {f : Span → Span} {items items' : List Item}
    (hitems : List.Forall₂ Item.SameText items items') {result result' : Option Expr}
    (hresult : Option.Rel (Expr.Tracked f) result result') (span : Span) :
    (Block.mk items result span).Tracked f (.mk items' result' (f span)) where
  text level := by
    have htext := Item.listJavaScript_of_sameText hitems level
    cases hresult with
    | none => simp only [Block.javaScript, htext]
    | some he => simp only [Block.javaScript, htext, he.text]
  span := rfl

namespace Parser

section
variable {f : Span → Span} (hf : ∀ a b : Span, f (a.cover b) = (f a).cover (f b))
variable {inner : Parser TypeExpr} (hinner : Tracks f (TypeExpr.Tracked f) inner inner)

include hinner in
theorem tracks_property :
    Tracks f (fun p p' => p.2.Tracked f p'.2) (property inner) (property inner) := by
  refine tracks_take_bind fun name => ?_
  refine tracks_take_bind fun _ => ?_
  exact hinner.bind fun t t' ht => tracks_pure ht

include hf hinner

theorem tracks_interfaceFrom (opening : Token) :
    Tracks f (TypeExpr.Tracked f) (interfaceFrom inner opening)
      (interfaceFrom inner (opening.relabel f)) := by
  refine (tracks_commaList (tracks_property hinner) .rightBrace).bind fun fields fields' _ => ?_
  refine tracks_take_bind fun closing => ?_
  refine tracks_accept_bind fun colon => ?_
  cases colon with
  | true =>
    refine hinner.bind fun result result' hresult => ?_
    have hspan : (opening.relabel f).span.cover result'.span =
        f (opening.span.cover result.span) := by
      rw [hf, hresult.span]
      rfl
    exact tracks_pure ⟨rfl, hspan⟩
  | false => exact tracks_pure ⟨rfl, (hf opening.span closing.span).symm⟩

theorem tracks_typeExprIn :
    Tracks f (TypeExpr.Tracked f) (typeExprIn inner) (typeExprIn inner) := by
  refine tracks_any_bind fun t => ?_
  obtain ⟨kind, lexeme, value, span⟩ := t
  cases kind with
  | emptyBrackets =>
    refine hinner.bind fun element element' helement => ?_
    have hspan : (f span).cover element'.span = f (span.cover element.span) := by
      rw [hf, helement.span]
    exact tracks_pure ⟨rfl, hspan⟩
  | leftBrace => exact tracks_interfaceFrom hf hinner _
  | identifier => exact tracks_pure ⟨rfl, rfl⟩
  | _ => exact tracks_refuse _ .typeExpr

omit hinner

theorem tracks_typeExpr (room : Nat) :
    Tracks f (TypeExpr.Tracked f) (typeExpr room) (typeExpr room) := by
  induction room with
  | zero => exact tracks_fail .nestingTooDeep
  | succ room ih => exact tracks_typeExprIn hf ih

end

section
variable {f : Span → Span} (hf : ∀ a b : Span, f (a.cover b) = (f a).cover (f b))
variable {typeExpr : Parser TypeExpr} (htype : Tracks f (TypeExpr.Tracked f) typeExpr typeExpr)
  {expr : Parser Expr} (hexpr : Tracks f (Expr.Tracked f) expr expr)
  {block : Token → Parser Block}
  (hblock : ∀ t, Tracks f (Block.Tracked f) (block t) (block (t.relabel f)))

theorem tracks_parameter (signature signature' : Option Signature) :
    Tracks f (fun p p' => p'.name = p.name) (parameter signature) (parameter signature') := by
  refine tracks_take_bind fun name => ?_
  exact tracks_pure rfl

theorem tracks_checkName (name : String) {signature signature' : Option Signature}
    (hsignature : Option.Rel (Signature.Tracked f) signature signature') :
    Tracks f (fun _ _ => True) (checkName name signature) (checkName name signature') := by
  cases hsignature with
  | none => exact tracks_pure trivial
  | some hs =>
    simp only [checkName, hs.name, hs.span]
    split_ifs
    · exact tracks_pure trivial
    · exact tracks_failOver .signatureNameMismatch _

theorem rel_itemStart (t : Token) :
    Option.Rel (fun t u => u = t.relabel f) (itemStart? t) (itemStart? (t.relabel f)) := by
  unfold itemStart?
  change Option.Rel _ _ (if t.kind = .rightBrace ∨ t.kind = .keyword .returnWord then _ else _)
  split_ifs
  · exact .none
  · exact .some rfl

include hblock

theorem tracks_functionFrom {signature signature' : Option Signature}
    (hsignature : Option.Rel (Signature.Tracked f) signature signature') (start start' : Token) :
    Tracks f Declaration.SameText (functionFrom block signature start)
      (functionFrom block signature' start') := by
  refine tracks_take_bind fun name => ?_
  refine tracks_take_bind fun _ => ?_
  refine (tracks_checkName name.lexeme hsignature).bind fun _ _ _ => ?_
  refine tracks_take_bind fun _ => ?_
  refine (tracks_commaList (tracks_parameter signature signature') .rightBrace).bind
    fun parameters parameters' hparameters => ?_
  refine tracks_take_bind fun _ => ?_
  refine tracks_take_bind fun opening => ?_
  refine (hblock opening).bind fun body body' hbody => ?_
  exact tracks_pure (Declaration.sameText_function hbody.text hparameters _ _ _ _ _)

include hf htype

theorem tracks_typeFrom (start : Token) :
    Tracks f Declaration.SameText (typeFrom typeExpr block start)
      (typeFrom typeExpr block (start.relabel f)) := by
  refine tracks_take_bind fun name => ?_
  refine tracks_take_bind fun _ => ?_
  refine htype.bind fun definition definition' hdefinition => ?_
  have hspan : (start.relabel f).span.cover definition'.span =
      f (start.span.cover definition.span) := by
    rw [hf, hdefinition.span]
    rfl
  have hkind := hdefinition.isFunction
  -- Both are function types or neither is.
  cases definition with
  | function parameters result span =>
    cases definition' with
    | function parameters' result' span' =>
      refine tracks_nextIs_bind fun func => ?_
      split_ifs
      · refine tracks_any_bind fun func => ?_
        have hsignature : Signature.Tracked f ⟨name.lexeme, parameters, result, _⟩
            ⟨name.lexeme, parameters', result', _⟩ := ⟨rfl, hspan⟩
        exact tracks_functionFrom hblock (.some hsignature) func _
      · rw [hspan]
        exact tracks_failOver .signatureWithoutFunction _
    | _ => cases hkind
  | _ =>
    cases definition' with
    | function parameters' result' span' => cases hkind
    | _ => exact tracks_pure fun level => rfl

theorem tracks_declarationFrom (t : Token) :
    Tracks f Declaration.SameText (declarationFrom typeExpr block t)
      (declarationFrom typeExpr block (t.relabel f)) := by
  obtain ⟨kind, lexeme, value, span⟩ := t
  cases kind with
  | keyword word =>
    cases word with
    | typeWord => exact tracks_typeFrom hf htype hblock _
    | funcWord => exact tracks_functionFrom hblock .none _ _
    | _ => exact tracks_refuse _ .declaration
  | _ => exact tracks_refuse _ .declaration

omit htype hblock
include hexpr

theorem tracks_assignmentFrom (name : Token) :
    Tracks f (Assignment.Tracked f) (assignmentFrom expr name)
      (assignmentFrom expr (name.relabel f)) := by
  refine tracks_take_bind fun _ => ?_
  refine hexpr.bind fun right right' hright => ?_
  have hspan : (name.relabel f).span.cover right'.span = f (name.span.cover right.span) := by
    rw [hf, hright.span]
    rfl
  refine tracks_pure ⟨?_, hspan⟩
  simp only [Assignment.javaScript, hright.text, Expr.javaScript]
  rfl

theorem tracks_assignment :
    Tracks f (Assignment.Tracked f) (assignment expr) (assignment expr) := by
  refine tracks_take_bind fun name => ?_
  exact tracks_assignmentFrom hf hexpr name

omit hexpr in
theorem tracks_condition : Tracks f (Expr.Tracked f) condition condition := by
  refine tracks_take_bind fun name => ?_
  refine tracks_any_bind fun t => ?_
  have hkind : (t.relabel f).kind = t.kind := rfl
  rw [hkind]
  cases BinaryOp.ofKind? t.kind with
  | none => exact tracks_refuse t .condition
  | some op =>
    dsimp only
    split_ifs
    · refine tracks_any_bind fun rightToken => ?_
      refine (tracks_term .condition rightToken).bind fun right right' hright => ?_
      have hcompare := (Expr.Tracked.identifier name.lexeme name.span).binary hright op
        (name.span.cover right.span)
      rw [hf, ← hright.span] at hcompare
      exact tracks_pure hcompare
    · exact tracks_refuse t .condition

omit hexpr in
include hblock in
theorem tracks_branchFrom (start start' : Token) :
    Tracks f Statement.SameText (branchFrom block start) (branchFrom block start') := by
  refine (tracks_condition hf).bind fun condition condition' hcondition => ?_
  refine tracks_take_bind fun opening => ?_
  refine (hblock opening).bind fun thenBlock thenBlock' hthen => ?_
  refine tracks_accept_bind fun hasElse => ?_
  cases hasElse with
  | true =>
    refine tracks_take_bind fun opening => ?_
    refine (hblock opening).bind fun elseBlock elseBlock' helse => ?_
    refine tracks_pure fun level => ?_
    simp only [Statement.javaScript, hcondition.text, hthen.text, helse.text]
  | false =>
    refine tracks_pure fun level => ?_
    simp only [Statement.javaScript, hcondition.text, hthen.text]

omit hf in
include hblock in
theorem tracks_whileFrom (start start' : Token) :
    Tracks f Statement.SameText (whileFrom expr block start) (whileFrom expr block start') := by
  refine hexpr.bind fun condition condition' hcondition => ?_
  refine tracks_take_bind fun opening => ?_
  refine (hblock opening).bind fun body body' hbody => ?_
  refine tracks_pure fun level => ?_
  simp only [Statement.javaScript, hcondition.text, hbody.text]

include hblock

theorem tracks_forFrom (start start' : Token) :
    Tracks f Statement.SameText (forFrom expr block start) (forFrom expr block start') := by
  refine (tracks_assignment hf hexpr).bind fun initializer initializer' hinitializer => ?_
  refine tracks_take_bind fun _ => ?_
  refine hexpr.bind fun condition condition' hcondition => ?_
  refine tracks_take_bind fun _ => ?_
  refine (tracks_assignment hf hexpr).bind fun increment increment' hincrement => ?_
  refine tracks_take_bind fun opening => ?_
  refine (hblock opening).bind fun body body' hbody => ?_
  refine tracks_pure fun level => ?_
  simp only [Statement.javaScript, JavaScript.clause, hinitializer.text, hcondition.text,
    hincrement.text, hbody.text]

theorem tracks_statementFrom (t : Token) :
    Tracks f Statement.SameText (statementFrom expr block t)
      (statementFrom expr block (t.relabel f)) := by
  have hassign : Tracks f Statement.SameText
      (do let a ← assignmentFrom expr t; return .assign a a.span)
      (do let a ← assignmentFrom expr (t.relabel f); return .assign a a.span) := by
    refine (tracks_assignmentFrom hf hexpr t).bind fun a a' ha => tracks_pure fun level => ?_
    simp only [Statement.javaScript, ha.text]
  obtain ⟨kind, lexeme, value, span⟩ := t
  cases kind with
  | identifier => exact hassign
  | keyword word =>
    cases word with
    | ifWord => exact tracks_branchFrom hf hblock _ _
    | whileWord => exact tracks_whileFrom hexpr hblock _ _
    | forWord => exact tracks_forFrom hf hexpr hblock _ _
    | _ => exact tracks_refuse _ .assignedName
  | _ => exact tracks_refuse _ .assignedName

include htype

theorem tracks_itemFrom (t : Token) :
    Tracks f Item.SameText (itemFrom typeExpr expr block t)
      (itemFrom typeExpr expr block (t.relabel f)) := by
  unfold itemFrom
  change Tracks f _ _ (if t.kind = .keyword .typeWord ∨ t.kind = .keyword .funcWord then _ else _)
  split_ifs
  · refine (tracks_declarationFrom hf htype hblock t).bind fun d d' hd => ?_
    refine tracks_pure fun level => ?_
    simp only [Item.listJavaScript, hd level]
  · refine (tracks_statementFrom hf hexpr hblock t).bind fun s s' hs => ?_
    refine tracks_pure fun level => ?_
    simp only [Item.listJavaScript, hs level]

theorem tracks_blockIn (opening : Token) :
    Tracks f (Block.Tracked f) (blockIn typeExpr expr block opening)
      (blockIn typeExpr expr block (opening.relabel f)) := by
  have hstep : ∀ items items' t t', List.Forall₂ Item.SameText items items' → t' = t.relabel f →
      Tracks f (List.Forall₂ Item.SameText)
        (do return (← itemFrom typeExpr expr block t) :: items)
        (do return (← itemFrom typeExpr expr block t') :: items') := by
    rintro items items' t _ hitems rfl
    exact (tracks_itemFrom hf htype hexpr hblock t).bind fun item item' hitem =>
      tracks_pure (.cons hitem hitems)
  refine (tracks_extend rel_itemStart hstep .nil).bind fun items items' hitems => ?_
  have hitems' := List.rel_reverse hitems
  refine tracks_any_bind fun t => ?_
  change Tracks f _ _ (if t.kind = .keyword .returnWord then _ else _)
  split_ifs
  · refine hexpr.bind fun result result' hresult => ?_
    refine tracks_take_bind fun closing => ?_
    have hb := Block.tracked_mk hitems' (.some hresult) (opening.span.cover closing.span)
    rw [hf] at hb
    exact tracks_pure hb
  · have hb := Block.tracked_mk (f := f) hitems' .none (opening.span.cover t.span)
    rw [hf] at hb
    exact tracks_pure hb

omit htype hexpr hblock

theorem tracks_block (room : Nat) (opening : Token) :
    Tracks f (Block.Tracked f) (Parser.block room opening)
      (Parser.block room (opening.relabel f)) := by
  induction room generalizing opening with
  | zero => exact tracks_fail .nestingTooDeep
  | succ room ih =>
    exact tracks_blockIn hf (tracks_typeExpr hf room) (tracks_expr hf room) ih opening

/-- One declaration, as it is read at a given depth. -/
theorem tracks_declaration (room : Nat) (t : Token) :
    Tracks f Declaration.SameText (declarationFrom (Parser.typeExpr room) (Parser.block room) t)
      (declarationFrom (Parser.typeExpr room) (Parser.block room) (t.relabel f)) :=
  tracks_declarationFrom hf (tracks_typeExpr hf room) (tracks_block hf room) t

end

end Parser

end Scriptwright
