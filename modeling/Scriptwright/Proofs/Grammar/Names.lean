import Scriptwright.Proofs.Compile.Concatenation
import Scriptwright.Proofs.Grammar.Occurrence

/-!
# The names of a program

A name enters a program where it declares a function, a parameter or a type, where it refers
to a type, where it is a property of an interface or of an object, and where it stands in an
expression. All these names are lexemes of identifiers, which are never keywords. Only the
names between the braces of a template are read in another way: they are spelled like names,
and nothing keeps them from being keywords.
-/

namespace Scriptwright

/-- A name of a program, and whether it stands in a template. -/
structure Mention where
  name : String
  interpolated : Bool
  deriving DecidableEq

/-- A name outside of templates. -/
def Mention.plain (name : String) : Mention := ⟨name, false⟩

theorem Record.mem_of_get? {α : Type} {name : String} {fields : Record α} {value : α}
    (h : get? name fields = some value) : (name, value) ∈ fields := by
  induction fields with
  | nil => cases h
  | cons field fields ih =>
    obtain ⟨n, v⟩ := field
    rw [get?] at h
    split_ifs at h with hname
    · cases h
      rw [hname]
      exact List.mem_cons_self
    · exact List.mem_cons_of_mem _ (ih h)

mutual

def TypeExpr.names : TypeExpr → List String
  | .simple name _ => [name]
  | .array element _ => element.names
  | .interface shape => shape.names
  | .function parameters result _ => parameters.names ++ result.names

def Interface.names : Interface → List String
  | .mk fields _ => Interface.fieldNames fields

def Interface.fieldNames : List (String × TypeExpr) → List String
  | [] => []
  | (name, type) :: fields => name :: (type.names ++ Interface.fieldNames fields)

end

theorem Interface.fieldNames_eq (fields : List (String × TypeExpr)) :
    fieldNames fields = fields.flatMap fun field => field.1 :: field.2.names := by
  induction fields with
  | nil => rfl
  | cons field fields ih => rw [fieldNames, ih, List.flatMap_cons, List.cons_append]

theorem Interface.mem_names_of_get? {shape : Interface} {property name : String} {type : TypeExpr}
    (h : Record.get? property shape.fields = some type) (hname : name ∈ type.names) :
    name ∈ shape.names := by
  obtain ⟨fields, span⟩ := shape
  rw [names, fieldNames_eq]
  exact List.mem_flatMap.mpr ⟨_, Record.mem_of_get? h, List.mem_cons_of_mem _ hname⟩

mutual

def Expr.mentions : Expr → List Mention
  | .number _ _ | .text _ _ | .boolean _ _ | .nil _ => []
  | .identifier name _ => [.plain name]
  | .binary left _ right _ => left.mentions ++ right.mentions
  | .unary _ argument _ => argument.mentions
  | .call callee arguments _ => callee.mentions ++ Expr.listMentions arguments
  | .member base property _ _ => base.mentions ++ property.mentions
  | .array elements _ => Expr.listMentions elements
  | .object fields _ => Expr.fieldMentions fields
  | .template parts _ => Expr.partMentions parts

def Expr.listMentions : List Expr → List Mention
  | [] => []
  | e :: es => e.mentions ++ Expr.listMentions es

def Expr.fieldMentions : List (String × Expr) → List Mention
  | [] => []
  | (name, e) :: fields => .plain name :: (e.mentions ++ Expr.fieldMentions fields)

/-- All names in a template are interpolated, whatever they are part of. -/
def Expr.partMentions : List TemplatePart → List Mention
  | [] => []
  | .text _ :: parts => Expr.partMentions parts
  | .code e :: parts => e.mentions.map (⟨·.name, true⟩) ++ Expr.partMentions parts

end

namespace Expr

theorem listMentions_eq (es : List Expr) : listMentions es = es.flatMap mentions := by
  induction es with
  | nil => rfl
  | cons e es ih => rw [listMentions, ih, List.flatMap_cons]

theorem fieldMentions_eq (fields : List (String × Expr)) :
    fieldMentions fields = fields.flatMap fun field => .plain field.1 :: field.2.mentions := by
  induction fields with
  | nil => rfl
  | cons field fields ih => rw [fieldMentions, ih, List.flatMap_cons, List.cons_append]

theorem partMentions_part (segments : List Segment) :
    partMentions (segments.map Segment.part) =
      (segments.filterMap Segment.name?).map (⟨·, true⟩) := by
  induction segments with
  | nil => rfl
  | cons segment segments ih =>
    cases segment with
    | text content => exact ih
    | name name span => exact congrArg (_ :: ·) ih

theorem mentions_withSpan (span : Span) (e : Expr) : (e.withSpan span).mentions = e.mentions := by
  cases e <;> rfl

end Expr

def Parameter.names (p : Parameter) : List String :=
  p.name :: p.type.toList.flatMap TypeExpr.names

mutual

/-- The names outside of expressions. -/
def Declaration.names : Declaration → List String
  | .function name parameters result body _ =>
    name :: (parameters.flatMap Parameter.names ++ result.toList.flatMap TypeExpr.names ++
      body.names)
  | .typeName name definition _ => name :: definition.names

def Block.names : Block → List String
  | .mk items _ _ => Item.listNames items

def Item.listNames : List Item → List String
  | [] => []
  | .declaration d :: items => d.names ++ Item.listNames items
  | .statement s :: items => s.names ++ Item.listNames items

def Statement.names : Statement → List String
  | .assign _ _ => []
  | .branch _ thenBlock none _ => thenBlock.names
  | .branch _ thenBlock (some elseBlock) _ => thenBlock.names ++ elseBlock.names
  | .whileLoop _ body _ | .forLoop _ _ _ body _ => body.names

end

/-- All names of a program. -/
def Program.mentions (p : Program) : List Mention :=
  (p.declarations.flatMap Declaration.names).map .plain ++ p.roots.flatMap Expr.mentions

/-- The names that a token brings. -/
def Token.mentions (t : Token) : List Mention :=
  (if t.kind = .identifier then [.plain t.lexeme] else []) ++ t.interpolations.map (⟨·, true⟩)

namespace Grammar

section
variable {lawful : Mention → Prop}

theorem lawful_lexeme {t : Token} (ht : ∀ m ∈ t.mentions, lawful m) (hkind : t.kind = .identifier) :
    lawful (.plain t.lexeme) := by
  apply ht
  rw [Token.mentions, if_pos hkind]
  exact List.mem_cons_self

theorem mentions_of_term? {t : Token} (ht : ∀ m ∈ t.mentions, lawful m) {e : Expr}
    (h : term? t = some e) : ∀ m ∈ e.mentions, lawful m := by
  unfold term? at h
  split at h
  case h_1 hkind =>
    cases h
    exact List.forall_mem_singleton.mpr (lawful_lexeme ht hkind)
  case h_2 | h_3 | h_4 | h_5 | h_6 =>
    cases h
    exact List.forall_mem_nil _
  case h_7 => cases h

theorem mentions_inherited :
    Inherited (∀ m ∈ ·.mentions, lawful m) (∀ m ∈ ·.mentions, lawful m) where
  term ht h := mentions_of_term? ht h
  template ht span := by
    intro m hm
    apply ht
    rw [Expr.mentions, Expr.partMentions_part] at hm
    exact List.mem_append_right _ hm
  withSpan h span := by
    rwa [Expr.mentions_withSpan]
  binary hleft hright _ _ := List.forall_mem_append.mpr ⟨hleft, hright⟩
  unary h _ _ := h
  call hcallee harguments _ := by
    rw [Expr.mentions, Expr.listMentions_eq]
    exact List.forall_mem_append.mpr ⟨hcallee, List.forall_mem_flatMap.mpr harguments⟩
  index hbase hproperty _ := List.forall_mem_append.mpr ⟨hbase, hproperty⟩
  access {_ name} hbase hname _ := by
    have hlexeme := lawful_lexeme hname name.property
    exact List.forall_mem_append.mpr ⟨hbase, List.forall_mem_singleton.mpr hlexeme⟩
  array h _ := by
    rw [Expr.mentions, Expr.listMentions_eq]
    exact List.forall_mem_flatMap.mpr h
  object hnames h _ := by
    rw [Expr.mentions, Expr.fieldMentions_eq]
    refine List.forall_mem_flatMap.mpr fun field hfield => ?_
    obtain ⟨name, hname, heq⟩ := hnames field hfield
    rw [← heq]
    exact List.forall_mem_cons.mpr ⟨lawful_lexeme hname name.property, h field hfield⟩

/-- Trees whose tokens bring lawful names stand for values that have lawful names. -/
def NamesLawful {δ : Type} (lawful : Mention → Prop) (tokens : δ → List Token)
    (names : δ → List String) : Prop :=
  ∀ d, (∀ t ∈ tokens d, ∀ m ∈ t.mentions, lawful m) → ∀ name ∈ names d, lawful (.plain name)

section
variable {T : Phrase TypeExpr} (hT : NamesLawful lawful T.tokens fun d => (T.value d).names)
include hT

theorem ShapeTree.names_lawful :
    NamesLawful lawful (ShapeTree.tokens (T := T)) fun d => d.value.names := by
  intro d h name hname
  simp only [ShapeTree.tokens, List.forall_mem_cons, List.forall_mem_append] at h
  have hfields : name ∈ (Record.merged (d.properties.items.map PropertyTree.value)).flatMap
      fun field => field.1 :: field.2.names := by
    rw [← Interface.fieldNames_eq]
    exact hname
  obtain ⟨field, hfield, hname⟩ := List.mem_flatMap.mp hfields
  obtain ⟨tree, htree, rfl⟩ := List.mem_map.mp (Record.merged_subset _ hfield)
  have htokens := fun t ht => h.2.1 t (CommaList.tokens_subset htree ht)
  simp only [PropertyTree.tokens, List.forall_mem_cons] at htokens
  cases List.mem_cons.mp hname with
  | inl hname =>
    rw [hname]
    exact lawful_lexeme htokens.1 tree.name.property
  | inr hname => exact hT tree.type htokens.2.2 name hname

theorem TypeTree.names_lawful :
    NamesLawful lawful (TypeTree.tokens (T := T)) fun d => d.value.names := by
  intro d h
  cases d with
  | array brackets element => exact hT element (List.forall_mem_cons.mp h).2
  | interface shape => exact ShapeTree.names_lawful hT shape h
  | function parameters colon result =>
    simp only [TypeTree.tokens, List.forall_mem_cons, List.forall_mem_append] at h
    exact List.forall_mem_append.mpr
      ⟨ShapeTree.names_lawful hT parameters h.1, hT result h.2.2⟩
  | simple name =>
    have hname := h name.val List.mem_cons_self
    exact List.forall_mem_singleton.mpr (lawful_lexeme hname name.property)

end

theorem typePhrase_names_lawful (n : Nat) :
    NamesLawful lawful (typePhrase n).tokens fun d => ((typePhrase n).value d).names := by
  induction n with
  | zero => exact fun d => d.elim
  | succ n ih => exact TypeTree.names_lawful ih

/-- All names outside of expressions are lawful. -/
def namesLawful (lawful : Mention → Prop) : Traits where
  type a := ∀ name ∈ a.names, lawful (.plain name)
  expr _ := True
  assignment _ := True
  statement s := ∀ name ∈ s.names, lawful (.plain name)
  declaration d := ∀ name ∈ d.names, lawful (.plain name)
  block b := ∀ name ∈ b.names, lawful (.plain name)

theorem namesLawful_items {items : List Item} (h : ∀ i ∈ items, (namesLawful lawful).item i) :
    ∀ name ∈ Item.listNames items, lawful (.plain name) := by
  induction items with
  | nil => exact List.forall_mem_nil _
  | cons item items ih =>
    obtain ⟨hitem, hitems⟩ := List.forall_mem_cons.mp h
    cases item with
    | declaration d => exact List.forall_mem_append.mpr ⟨hitem, ih hitems⟩
    | statement s => exact List.forall_mem_append.mpr ⟨hitem, ih hitems⟩

theorem namesLawful_function {name : Terminal .identifier}
    {parameters : List (Terminal .identifier)} {signature : Option (Interface × TypeExpr)}
    {b : Block} (hname : ∀ m ∈ name.val.mentions, lawful m)
    (hparameters : ∀ parameter ∈ parameters, ∀ m ∈ parameter.val.mentions, lawful m)
    (hsignature : ∀ s ∈ signature, ∃ span, (namesLawful lawful).type (.function s.1 s.2 span))
    (hbody : (namesLawful lawful).block b) (span : Span) :
    (namesLawful lawful).declaration (.function name.val.lexeme
      (parameters.map fun parameter => ⟨parameter.val.lexeme,
        signature.bind fun s => Record.get? parameter.val.lexeme s.1.fields, parameter.val.span⟩)
      (signature.map (·.2)) b span) := by
  have hnames : ∀ s ∈ signature, ∀ name ∈ s.1.names ++ s.2.names, lawful (.plain name) := by
    intro s hs
    obtain ⟨span, htype⟩ := hsignature s hs
    exact htype
  refine List.forall_mem_cons.mpr ⟨lawful_lexeme hname name.property, ?_⟩
  simp only [List.forall_mem_append, List.forall_mem_flatMap, List.forall_mem_map]
  refine ⟨⟨fun parameter hparameter => ?_, fun result hresult => ?_⟩, hbody⟩
  · have hlexeme := lawful_lexeme (hparameters parameter hparameter) parameter.property
    refine List.forall_mem_cons.mpr ⟨hlexeme, List.forall_mem_flatMap.mpr fun type htype => ?_⟩
    obtain ⟨s, hs, hget⟩ := Option.bind_eq_some_iff.mp (Option.mem_toList.mp htype)
    intro name hname
    exact hnames s hs name (List.mem_append_left _ (Interface.mem_names_of_get? hget hname))
  · obtain ⟨s, hs, rfl⟩ := Option.map_eq_some_iff.mp (Option.mem_toList.mp hresult)
    exact (List.forall_mem_append.mp (hnames s hs)).2

theorem namesLawful_inherited : (namesLawful lawful).Inherited (∀ m ∈ ·.mentions, lawful m) where
  condition _ := trivial
  assignment _ _ _ := trivial
  assign _ _ := List.forall_mem_nil _
  branch _ hthen _ := hthen
  branchElse _ hthen helse _ := List.forall_mem_append.mpr ⟨hthen, helse⟩
  whileLoop _ hbody _ := hbody
  forLoop _ _ _ hbody _ := hbody
  function hname hparameters hsignature hbody span :=
    namesLawful_function hname hparameters hsignature hbody span
  typeName {name _} hname h _ := List.forall_mem_cons.mpr ⟨lawful_lexeme hname name.property, h⟩
  block hitems _ _ := namesLawful_items hitems

/-- What the tokens of a program bring is all that it mentions. -/
theorem mentions_of_ofTokens {file : Nat} {tokens : List Token} {p : Program}
    (h : Program.ofTokens file tokens = .ok p)
    (htokens : ∀ t ∈ tokens, ∀ m ∈ t.mentions, lawful m) :
    ∀ m ∈ p.mentions, lawful m := by
  have hbody : ∀ t ∈ Token.body tokens, ∀ m ∈ t.mentions, lawful m :=
    fun t ht => htokens t (List.takeWhile_subset _ ht)
  refine List.forall_mem_append.mpr ⟨?_, List.forall_mem_flatMap.mpr fun root hroot => ?_⟩
  · obtain ⟨d, hd, rfl⟩ := ofTokens_eq_ok.mp h
    rw [← hd] at hbody
    refine List.forall_mem_map.mpr (List.forall_mem_flatMap.mpr ?_)
    intro declaration hdeclaration
    obtain ⟨tree, htree, rfl⟩ := List.mem_map.mp hdeclaration
    exact namesLawful_inherited.closed.declaration (fun n _ => typePhrase_names_lawful n)
      (fun _ _ _ _ => trivial) tree fun t ht => hbody t (List.mem_flatMap.mpr ⟨tree, htree, ht⟩)
  · exact mentions_inherited.derived hbody (derived_of_ofTokens h hroot)

end

end Grammar

/-- The mention is spelled like a name, and no keyword outside of templates. -/
structure Mention.Lawful (m : Mention) : Prop where
  isName : Scan.IsName m.name
  not_keyword (h : m.interpolated = false) : Keyword.ofSpelling? m.name = none

theorem Scan.Lexed.not_keyword {file : Nat} {t : Token} (h : Scan.Lexed file t)
    (hkind : t.kind = .identifier) : Keyword.ofSpelling? t.lexeme = none := by
  obtain ⟨offset, c, cs, n, hlexeme, hspelling⟩ := h
  rw [hkind] at hlexeme
  generalize t.value = value at hlexeme
  rw [hspelling]
  cases hlexeme with
  | identifier hc hword => rwa [take_length_takeWhile]
  | symbol h => cases isSymbolKind_of_symbol? h

theorem Scan.Lexed.mentions_lawful {file : Nat} {t : Token} (h : Scan.Lexed file t) :
    ∀ m ∈ t.mentions, m.Lawful := by
  refine List.forall_mem_append.mpr ⟨?_, List.forall_mem_map.mpr fun name hname => ?_⟩
  · split_ifs with hkind
    · exact List.forall_mem_singleton.mpr ⟨h.isName hkind, fun _ => h.not_keyword hkind⟩
    · exact List.forall_mem_nil _
  · obtain ⟨segment, hsegment, heq⟩ := List.mem_filterMap.mp hname
    cases segment with
    | text content => cases heq
    | name other span =>
      cases heq
      exact ⟨h.divided.name hsegment, fun h => by cases h⟩

theorem mentions_of_scan {file : Nat} {text : String} {tokens : List Token}
    (h : scan file text = .ok tokens) : ∀ t ∈ tokens, ∀ m ∈ t.mentions, m.Lawful := by
  intro t ht
  rcases Scan.lexed_or_finish h ht with hlexed | ⟨stop, rfl⟩
  · exact hlexed.mentions_lawful
  · exact List.forall_mem_nil _

/-- Whatever a compiled program mentions is spelled like a name, and outside of templates it
is no keyword. -/
theorem mentions_of_compile {text path javaScript : String}
    (h : compile text path = .ok javaScript) :
    ∃ p, SourceFile.program ⟨0, path, text⟩ = .ok p ∧ p.javaScript = javaScript ∧
      ∀ m ∈ p.mentions, Scan.IsName m.name ∧
        (m.interpolated = false → Keyword.ofSpelling? m.name = none) := by
  obtain ⟨p, hprogram, hjavaScript⟩ := compile_eq_ok.mp h
  obtain ⟨tokens, hscan, hparse⟩ := SourceFile.program_eq_ok.mp hprogram
  refine ⟨p, hprogram, hjavaScript, fun m hm => ?_⟩
  have hlawful := Grammar.mentions_of_ofTokens hparse (mentions_of_scan hscan) m hm
  exact ⟨hlawful.isName, hlawful.not_keyword⟩

/-- A text with names at all places, of which the last one is a keyword in a template. -/
def signedText : String :=
  "type f = \x7ba: T\x7d: []U func f = \x7ba\x7d \x7b return \x7bb: a.c(`\x7bif\x7d`)\x7d \x7d"

theorem mentions_of_signedText : ∃ (p : Program) (javaScript : String),
    compile signedText "a.nl" = .ok javaScript ∧ p.javaScript = javaScript ∧
      p.mentions = [⟨"f", false⟩, ⟨"a", false⟩, ⟨"T", false⟩, ⟨"U", false⟩, ⟨"b", false⟩,
        ⟨"a", false⟩, ⟨"c", false⟩, ⟨"if", true⟩] ∧
      ∀ m ∈ p.mentions, Scan.IsName m.name ∧
        (m.interpolated = false → Keyword.ofSpelling? m.name = none) := by
  have hrun : ∃ javaScript ∈ (compile signedText "a.nl").toOption,
      ∃ p ∈ (SourceFile.program ⟨0, "a.nl", signedText⟩).toOption,
        p.mentions = [⟨"f", false⟩, ⟨"a", false⟩, ⟨"T", false⟩, ⟨"U", false⟩, ⟨"b", false⟩,
          ⟨"a", false⟩, ⟨"c", false⟩, ⟨"if", true⟩] := by
    decide +kernel
  obtain ⟨javaScript, hjavaScript, p, hp, hmentions⟩ := hrun
  have hcompile := eq_ok_of_mem_toOption hjavaScript
  obtain ⟨p', hprogram, htext, hnames⟩ := mentions_of_compile hcompile
  cases (eq_ok_of_mem_toOption hp).symm.trans hprogram
  exact ⟨p, javaScript, hcompile, htext, hmentions, hnames⟩

/-- A keyword in a template is taken for a name. -/
theorem keyword_in_template : ∃ (p : Program) (m : Mention),
    SourceFile.program ⟨0, "test.nl", "func f = \x7b\x7d \x7b return `\x7bfunc\x7d` \x7d"⟩ = .ok p ∧
      m ∈ p.mentions ∧ Keyword.ofSpelling? m.name = some .funcWord := by
  have hrun : ∃ p ∈ (SourceFile.program
        ⟨0, "test.nl", "func f = \x7b\x7d \x7b return `\x7bfunc\x7d` \x7d"⟩).toOption,
      ∃ m ∈ p.mentions, Keyword.ofSpelling? m.name = some .funcWord := by
    decide +kernel
  obtain ⟨p, hp, m, hm, hkeyword⟩ := hrun
  exact ⟨p, m, eq_ok_of_mem_toOption hp, hm, hkeyword⟩

end Scriptwright
