import Scriptwright.Proofs.JavaScript.Faithful
import Scriptwright.Proofs.JavaScript.Statement

/-!
# What is left of a program in its text

The outline of a program is the program without spans, types and the definitions of types,
its expressions as JavaScript reads them. The text of a program that was read from a source
without backslashes in its literals is read as its outline. So two programs with one text
have one outline: nothing else gets lost.
-/

namespace Scriptwright
open JavaScript
open Scan (IsName)

def Assignment.outline (a : Assignment) : Assign := ⟨a.left.tree, a.right.tree⟩

mutual

def Declaration.outline : Declaration → JavaScript.Node
  | .function name parameters _ body _ => .function name (parameters.map (·.name)) body.outline
  | .typeName name _ _ => .typeName name

def Block.outline : Block → Body
  | .mk items result _ => .mk (Item.listOutline items) (result.map Expr.tree)

def Item.listOutline : List Item → List JavaScript.Node
  | [] => []
  | .declaration d :: items => d.outline :: Item.listOutline items
  | .statement s :: items => s.outline :: Item.listOutline items

def Statement.outline : Statement → JavaScript.Node
  | .assign assignment _ => .assign assignment.outline
  | .branch condition thenBlock none _ => .branch condition.tree thenBlock.outline none
  | .branch condition thenBlock (some elseBlock) _ =>
    .branch condition.tree thenBlock.outline (some elseBlock.outline)
  | .whileLoop condition body _ => .whileLoop condition.tree body.outline
  | .forLoop initializer condition increment body _ =>
    .forLoop (initializer.map Assignment.outline) (condition.map Expr.tree)
      (increment.map Assignment.outline) body.outline

end

def Program.outline (p : Program) : List JavaScript.Node := p.declarations.map Declaration.outline

namespace JavaScript

theorem next?_indent (n : Nat) (cs : List Char) :
    next? (List.replicate n ' ' ++ cs) = next? cs := by
  induction n with
  | zero => rfl
  | succ n ih => rw [List.replicate_succ, List.cons_append, next?_blank, ih]

theorem next?_newline (cs : List Char) : next? ('\n' :: cs) = next? cs := rfl

theorem next?_openParen (cs : List Char) : next? ('(' :: cs) = some (.sign "(", cs) := rfl

theorem next?_closeParen (cs : List Char) : next? (')' :: cs) = some (.sign ")", cs) := rfl

theorem next?_openBrace (cs : List Char) :
    next? (' ' :: '{' :: cs) = some (.sign "\x7b", cs) := rfl

theorem next?_closeBrace (cs : List Char) : next? ('}' :: cs) = some (.sign "\x7d", cs) := rfl

theorem next?_semicolon (cs : List Char) : next? (';' :: cs) = some (.sign ";", cs) := rfl

theorem ReadsAssign.of_next? {cs cs' rest : List Char} {a : Assign} (h : ReadsAssign cs rest a)
    (hnext : next? cs' = next? cs) : ReadsAssign cs' rest a := by
  cases h with
  | assign hname hsign h => exact .assign (hnext.trans hname) hsign h

theorem ReadsNode.of_next? {cs cs' rest : List Char} {node : Node} (h : ReadsNode cs rest node)
    (hnext : next? cs' = next? cs) : ReadsNode cs' rest node := by
  cases h with
  | function hword hname hopen hparameters hbrace hbody =>
    exact .function (hnext.trans hword) hname hopen hparameters hbrace hbody
  | typeName hslash hcomment hname => exact .typeName (hnext.trans hslash) hcomment hname
  | assign h hend => exact .assign (h.of_next? hnext) hend
  | branch hword hcondition hbody helse =>
    exact .branch (hnext.trans hword) hcondition hbody helse
  | branchElse hword hcondition hthen helse hbrace hbody =>
    exact .branchElse (hnext.trans hword) hcondition hthen helse hbrace hbody
  | whileLoop hword hcondition hbody => exact .whileLoop (hnext.trans hword) hcondition hbody
  | forLoop hword hopen hinitializer hfirst hcondition hsecond hincrement hclose hbrace hbody =>
    exact .forLoop (hnext.trans hword) hopen hinitializer hfirst hcondition hsecond hincrement
      hclose hbrace hbody

theorem ReadsBody.of_next? {cs cs' rest : List Char} {body : Body} (h : ReadsBody cs rest body)
    (hnext : next? cs' = next? cs) : ReadsBody cs' rest body := by
  cases h with
  | close hclose => exact .close (hnext.trans hclose)
  | result hword h hend hclose => exact .result (hnext.trans hword) h hend hclose
  | item h hmore => exact .item (h.of_next? hnext) hmore

theorem toList_line (level : Nat) (text : String) :
    (line level text).toList = List.replicate (2 * level) ' ' ++ (text.toList ++ ['\n']) := by
  simp [line]

/-- The text is read as the statement, unless an `else` follows. -/
structure EmitsNode (text : String) (node : Node) : Prop where
  reads {rest : List Char} (helse : heading? rest ≠ some (.name "else")) :
    ∃ after, ReadsNode (text.toList ++ rest) after node ∧ next? after = next? rest

/-- The text is read as the body, if the closing brace follows. -/
structure EmitsBody (text : String) (body : Body) : Prop where
  reads {cs rest : List Char} (hclose : next? cs = some (.sign "\x7d", rest)) :
    ReadsBody (text.toList ++ cs) rest body

theorem emitsBody_close : EmitsBody "" (.mk [] none) := ⟨fun hclose => .close hclose⟩

theorem EmitsNode.cons {text texts : String} {node : Node} {nodes : List Node}
    {result : Option Tree} (h : EmitsNode text node) (hmore : EmitsBody texts (.mk nodes result)) :
    EmitsBody (text ++ texts) (.mk (node :: nodes) result) := by
  refine ⟨fun {cs rest} hclose => ?_⟩
  have hrest := hmore.reads hclose
  obtain ⟨after, hnode, hnext⟩ := h.reads hrest.not_else
  rw [String.toList_append, List.append_assoc]
  exact .item hnode (hrest.of_next? hnext)

/-- A word of the language, with a blank behind it. -/
theorem next?_word {word : String} (h : IsName word) (level : Nat) (rest : List Char) :
    next? (List.replicate (2 * level) ' ' ++ (word.toList ++ ' ' :: rest)) =
      some (.name word, ' ' :: rest) := by
  rw [next?_indent, next?_name h (apart_cons ' ' rest rfl)]

theorem emitsBody_result {e : Expr} (h : e.Emits) (level : Nat) :
    EmitsBody (line level ("return " ++ e.javaScript ++ ";")) (.mk [] (some e.tree)) := by
  refine ⟨fun {cs rest} hclose => ?_⟩
  have htext : (line level ("return " ++ e.javaScript ++ ";")).toList ++ cs =
      List.replicate (2 * level) ' ' ++
        ("return".toList ++ ' ' :: (e.javaScript.toList ++ ';' :: '\n' :: cs)) := by
    simp [toList_line]
  rw [htext]
  exact .result (next?_word (by decide) level _) (h.chain (apart_cons ';' _ rfl)).blank
    (next?_semicolon _) ((next?_newline cs).trans hclose)

/-- The text of an assignment is read as such, before anything that does not lengthen it. -/
structure EmitsAssign (a : Assignment) : Prop where
  reads {rest : List Char} (hrest : Apart rest) :
    ReadsAssign (a.javaScript.toList ++ rest) rest a.outline

theorem emitsAssign {name : String} (hname : IsName name) {e : Expr} (h : e.Emits)
    (nameSpan span : Span) : EmitsAssign ⟨.identifier name nameSpan, e, span⟩ := by
  refine ⟨fun {rest} hrest => ?_⟩
  have htext : (Assignment.javaScript ⟨.identifier name nameSpan, e, span⟩).toList ++ rest =
      name.toList ++ ' ' :: '=' :: ' ' :: (e.javaScript.toList ++ rest) := by
    simp [Assignment.javaScript, Expr.javaScript]
  rw [htext]
  exact .assign (next?_name hname (apart_cons ' ' _ rfl)) rfl (h.chain hrest).blank

theorem emitsNode_assign {a : Assignment} (h : EmitsAssign a) (span : Span) (level : Nat) :
    EmitsNode ((Statement.assign a span).javaScript level) (Statement.assign a span).outline := by
  refine ⟨fun {rest} _ => ?_⟩
  have htext : ((Statement.assign a span).javaScript level).toList ++ rest =
      List.replicate (2 * level) ' ' ++ (a.javaScript.toList ++ ';' :: '\n' :: rest) := by
    simp [Statement.javaScript, toList_line]
  rw [htext]
  have hassign := h.reads (apart_cons ';' ('\n' :: rest) rfl)
  exact ⟨'\n' :: rest, .assign (hassign.of_next? (next?_indent (2 * level) _)) (next?_semicolon _),
    next?_newline rest⟩

theorem readsCondition {e : Expr} (h : e.Emits) (rest : List Char) :
    ReadsCondition (' ' :: '(' :: (e.javaScript.toList ++ ')' :: ' ' :: '{' :: rest)) rest e.tree :=
  .condition ((next?_blank _).trans (next?_openParen _)) (h.chain (apart_cons ')' _ rfl))
    (next?_closeParen _) (next?_openBrace _)

/-- The brace that closes a body, on a line of its own. -/
theorem next?_close (level : Nat) (rest : List Char) :
    next? (List.replicate (2 * level) ' ' ++ '}' :: rest) = some (.sign "\x7d", rest) := by
  rw [next?_indent, next?_closeBrace]

/-- The lines of a block between its braces. -/
theorem readsBody_lines {body : Block}
    (h : ∀ level, EmitsBody (body.javaScript level) body.outline) (level : Nat)
    (rest : List Char) :
    ReadsBody ('\n' :: ((body.javaScript (level + 1)).toList ++
      (List.replicate (2 * level) ' ' ++ '}' :: rest))) rest body.outline :=
  ((h (level + 1)).reads (next?_close level rest)).of_next? (next?_newline _)

section
variable {condition : Expr} (hcondition : condition.Emits) {body : Block}
  (hbody : ∀ level, EmitsBody (body.javaScript level) body.outline) (span : Span) (level : Nat)
include hcondition hbody

theorem emitsNode_branch :
    EmitsNode ((Statement.branch condition body none span).javaScript level)
      (Statement.branch condition body none span).outline := by
  refine ⟨fun {rest} helse => ?_⟩
  have htext : ((Statement.branch condition body none span).javaScript level).toList ++ rest =
      List.replicate (2 * level) ' ' ++ ("if".toList ++ ' ' :: '(' ::
        (condition.javaScript.toList ++ ')' :: ' ' :: '{' :: '\n' ::
          ((body.javaScript (level + 1)).toList ++
            (List.replicate (2 * level) ' ' ++ '}' :: '\n' :: rest)))) := by
    simp [Statement.javaScript, toList_line]
  rw [htext]
  exact ⟨'\n' :: rest, .branch (next?_word (by decide) level _) (readsCondition hcondition _)
    (readsBody_lines hbody level _) helse, next?_newline rest⟩

theorem emitsNode_branchElse {elseBody : Block}
    (helse : ∀ level, EmitsBody (elseBody.javaScript level) elseBody.outline) :
    EmitsNode ((Statement.branch condition body (some elseBody) span).javaScript level)
      (Statement.branch condition body (some elseBody) span).outline := by
  refine ⟨fun {rest} _ => ?_⟩
  have htext : ((Statement.branch condition body (some elseBody) span).javaScript level).toList ++
      rest = List.replicate (2 * level) ' ' ++ ("if".toList ++ ' ' :: '(' ::
        (condition.javaScript.toList ++ ')' :: ' ' :: '{' :: '\n' ::
          ((body.javaScript (level + 1)).toList ++
            (List.replicate (2 * level) ' ' ++ '}' :: ' ' :: ("else".toList ++ ' ' :: '{' ::
              '\n' :: ((elseBody.javaScript (level + 1)).toList ++
                (List.replicate (2 * level) ' ' ++ '}' :: '\n' :: rest))))))) := by
    simp [Statement.javaScript, toList_line]
  rw [htext]
  exact ⟨'\n' :: rest, .branchElse (next?_word (by decide) level _) (readsCondition hcondition _)
    (readsBody_lines hbody level _)
    ((next?_blank _).trans (next?_name (by decide) (apart_cons ' ' _ rfl)))
    (next?_openBrace _) (readsBody_lines helse level _), next?_newline rest⟩

theorem emitsNode_whileLoop :
    EmitsNode ((Statement.whileLoop condition body span).javaScript level)
      (Statement.whileLoop condition body span).outline := by
  refine ⟨fun {rest} _ => ?_⟩
  have htext : ((Statement.whileLoop condition body span).javaScript level).toList ++ rest =
      List.replicate (2 * level) ' ' ++ ("while".toList ++ ' ' :: '(' ::
        (condition.javaScript.toList ++ ')' :: ' ' :: '{' :: '\n' ::
          ((body.javaScript (level + 1)).toList ++
            (List.replicate (2 * level) ' ' ++ '}' :: '\n' :: rest)))) := by
    simp [Statement.javaScript, toList_line]
  rw [htext]
  exact ⟨'\n' :: rest, .whileLoop (next?_word (by decide) level _) (readsCondition hcondition _)
    (readsBody_lines hbody level _), next?_newline rest⟩

theorem emitsNode_forLoop {initializer increment : Assignment}
    (hinitializer : EmitsAssign initializer) (hincrement : EmitsAssign increment) :
    EmitsNode
      ((Statement.forLoop (some initializer) (some condition) (some increment) body
        span).javaScript level)
      (Statement.forLoop (some initializer) (some condition) (some increment) body
        span).outline := by
  refine ⟨fun {rest} _ => ?_⟩
  have htext : ((Statement.forLoop (some initializer) (some condition) (some increment) body
        span).javaScript level).toList ++ rest =
      List.replicate (2 * level) ' ' ++ ("for".toList ++ ' ' :: '(' ::
        (initializer.javaScript.toList ++ ';' :: ' ' :: (condition.javaScript.toList ++ ';' ::
          ' ' :: (increment.javaScript.toList ++ ')' :: ' ' :: '{' :: '\n' ::
            ((body.javaScript (level + 1)).toList ++
              (List.replicate (2 * level) ' ' ++ '}' :: '\n' :: rest)))))) := by
    simp [Statement.javaScript, toList_line, clause]
  rw [htext]
  exact ⟨'\n' :: rest, .forLoop (next?_word (by decide) level _)
    ((next?_blank _).trans (next?_openParen _))
    (hinitializer.reads (apart_cons ';' _ rfl)) (next?_semicolon _)
    (hcondition.chain (apart_cons ';' _ rfl)).blank (next?_semicolon _)
    ((hincrement.reads (apart_cons ')' _ rfl)).of_next? (next?_blank _)) (next?_closeParen _)
    (next?_openBrace _) (readsBody_lines hbody level _), next?_newline rest⟩

end

/-- The names of parameters are read as expressions are. -/
theorem readsItems_names {names : List String} (h : ∀ name ∈ names, IsName name)
    (rest : List Char) :
    ReadsItems ")" ((commaSeparated names).toList ++ ')' :: rest) rest (names.map Tree.name) := by
  have htexts : Expr.listJavaScript (names.map (Expr.identifier · default)) = names := by
    induction names with
    | nil => rfl
    | cons name names ih =>
      have hnames := ih fun name hname => h name (List.mem_cons_of_mem _ hname)
      simp [Expr.listJavaScript, Expr.javaScript, hnames]
  have htrees : Expr.listTree (names.map (Expr.identifier · default)) = names.map Tree.name := by
    clear h htexts
    induction names with
    | nil => rfl
    | cons name names ih => simp [Expr.listTree, Expr.tree, ih]
  have hemits : ∀ e ∈ names.map (Expr.identifier · default), e.Emits := by
    intro e he
    obtain ⟨name, hname, rfl⟩ := List.mem_map.mp he
    exact (Expr.WellFormed.identifier (h name hname)).emits
  have hitems := readsItems (next?_closeParen rest) (apart_cons ')' rest rfl) hemits
  rwa [htexts, htrees] at hitems

theorem emitsNode_function {name : String} (hname : IsName name) {parameters : List Parameter}
    (hparameters : ∀ name ∈ parameters.map (·.name), IsName name) {body : Block}
    (hbody : ∀ level, EmitsBody (body.javaScript level) body.outline) (result : Option TypeExpr)
    (span : Span) (level : Nat) :
    EmitsNode ((Declaration.function name parameters result body span).javaScript level)
      (Declaration.function name parameters result body span).outline := by
  refine ⟨fun {rest} _ => ?_⟩
  have htext : ((Declaration.function name parameters result body span).javaScript level).toList ++
      rest = List.replicate (2 * level) ' ' ++ ("function".toList ++ ' ' :: (name.toList ++ '(' ::
        ((commaSeparated (parameters.map (·.name))).toList ++ ')' :: ' ' :: '{' :: '\n' ::
          ((body.javaScript (level + 1)).toList ++
            (List.replicate (2 * level) ' ' ++ '}' :: '\n' :: '\n' :: rest))))) := by
    simp [Declaration.javaScript, toList_line]
  have hopen : Apart ('(' :: ((commaSeparated (parameters.map (·.name))).toList ++ ')' :: ' ' ::
      '{' :: '\n' :: ((body.javaScript (level + 1)).toList ++
        (List.replicate (2 * level) ' ' ++ '}' :: '\n' :: '\n' :: rest)))) :=
    apart_cons _ _ rfl
  rw [htext]
  exact ⟨'\n' :: '\n' :: rest, .function (next?_word (by decide) level _)
    ((next?_blank _).trans (next?_name hname hopen)) (next?_openParen _)
    (readsItems_names hparameters _) (next?_openBrace _) (readsBody_lines hbody level _),
    (next?_newline _).trans (next?_newline rest)⟩

theorem emitsNode_typeName {name : String} (hname : IsName name) (definition : TypeExpr)
    (span : Span) (level : Nat) :
    EmitsNode ((Declaration.typeName name definition span).javaScript level)
      (Declaration.typeName name definition span).outline := by
  refine ⟨fun {rest} _ => ?_⟩
  have htext : ((Declaration.typeName name definition span).javaScript level).toList ++ rest =
      List.replicate (2 * level) ' ' ++
        '/' :: ("/ Type: ".toList ++ (name.toList ++ '\n' :: rest)) := by
    simp [Declaration.javaScript, toList_line]
  have hbreak : '\n' ∉ name.toList := by
    obtain ⟨c, cs, hcs, hc, hparts⟩ := hname
    rw [hcs, List.mem_cons]
    rintro (rfl | hmem)
    · cases hc
    · cases hparts _ hmem
  rw [htext]
  exact ⟨rest, .typeName ((next?_indent _ _).trans rfl) rfl hbreak, rfl⟩

end JavaScript

namespace Grammar

theorem ConditionTree.emits {d : ConditionTree} (h : ∀ t ∈ d.tokens, t.Lawful) :
    d.value.Emits := by
  simp only [ConditionTree.tokens, List.forall_mem_cons] at h
  have hname : (Expr.identifier d.name.val.lexeme d.name.val.span).WellFormed :=
    .identifier (h.1.name d.name.property)
  exact (Expr.WellFormed.binary hname (wellFormed_of_term? h.2.2.1 d.right.denotes)).emits

/-- The text of a node is read as its outline. -/
def emitted : Traits where
  type _ := True
  expr := Expr.Emits
  assignment := EmitsAssign
  statement s := ∀ level, EmitsNode (s.javaScript level) s.outline
  declaration d := ∀ level, EmitsNode (d.javaScript level) d.outline
  block b := ∀ level, EmitsBody (b.javaScript level) b.outline

theorem emitted_items {items : List Item} (h : ∀ i ∈ items, emitted.item i) (level : Nat)
    {text : String} {result : Option Tree} (hend : EmitsBody text (.mk [] result)) :
    EmitsBody (Item.listJavaScript level items ++ text) (.mk (Item.listOutline items) result) := by
  induction items with
  | nil =>
    rw [Item.listJavaScript, String.empty_append]
    exact hend
  | cons item items ih =>
    obtain ⟨hitem, hitems⟩ := List.forall_mem_cons.mp h
    cases item with
    | declaration d =>
      rw [Item.listJavaScript, String.append_assoc]
      exact (hitem level).cons (ih hitems)
    | statement s =>
      rw [Item.listJavaScript, String.append_assoc]
      exact (hitem level).cons (ih hitems)

theorem emitted_inherited : emitted.Inherited Token.Lawful where
  condition h := ConditionTree.emits h
  assignment {name _} hname h span := emitsAssign (hname.name name.property) h _ span
  assign h span level := emitsNode_assign h span level
  branch hcondition hthen span level := emitsNode_branch hcondition hthen span level
  branchElse hcondition hthen helse span level :=
    emitsNode_branchElse hcondition hthen span level helse
  whileLoop hcondition hbody span level := emitsNode_whileLoop hcondition hbody span level
  forLoop hinitializer hcondition hincrement hbody span level :=
    emitsNode_forLoop hcondition hbody span level hinitializer hincrement
  function {name _ _ _} hname hparameters _ hbody span level := by
    refine emitsNode_function (hname.name name.property) ?_ hbody _ span level
    rw [List.map_map]
    exact List.forall_mem_map.mpr fun parameter hparameter =>
      (hparameters parameter hparameter).name parameter.property
  typeName {name a} hname _ span level := emitsNode_typeName (hname.name name.property) a span level
  block {_ result} hitems hresult _ level := by
    cases result with
    | none => exact emitted_items hitems level emitsBody_close
    | some e => exact emitted_items hitems level (emitsBody_result (hresult e rfl) level)

theorem ProgramTree.emits {d : ProgramTree} (h : ∀ t ∈ d.tokens, t.Lawful) (file : Nat) :
    EmitsBody (d.value file).javaScript (.mk (d.value file).outline none) := by
  obtain ⟨declarations⟩ := d
  rw [ProgramTree.tokens] at h
  rw [Program.javaScript, Program.outline, ProgramTree.value]
  dsimp only at h ⊢
  induction declarations with
  | nil => exact emitsBody_close
  | cons declaration declarations ih =>
    rw [List.flatMap_cons, List.forall_mem_append] at h
    rw [List.map_cons, List.map_cons, List.map_cons, String.join_cons]
    have hdeclaration := emitted_inherited.closed.declaration (fun _ _ _ _ => trivial)
      (fun n _ e he => ((wellFormed_inherited.phrases n).1 e he).emits) declaration h.1
    exact (hdeclaration 0).cons (ih h.2)

end Grammar

/-- The text of a program, closed by a brace, is read as its outline. -/
theorem Program.readsBody {file programFile : Nat} {text : String} {tokens : List Token}
    {p : Program} (hscan : scan file text = .ok tokens)
    (htexts : ∀ t ∈ tokens, ∀ content ∈ t.texts, '\\' ∉ content.toList)
    (hparse : Program.ofTokens programFile tokens = .ok p) :
    ReadsBody (p.javaScript.toList ++ ['}']) [] (.mk p.outline none) := by
  obtain ⟨d, htokens, rfl⟩ := Grammar.ofTokens_eq_ok.mp hparse
  have hlawful : ∀ t ∈ d.tokens, t.Lawful := by
    intro t ht
    rw [htokens] at ht
    exact lawful_of_scan hscan htexts t (List.takeWhile_subset _ ht)
  exact (Grammar.ProgramTree.emits hlawful programFile).reads (next?_closeBrace [])

/-- Programs with the same text have the same outline, if no text of their sources has a
backslash. -/
theorem outline_eq_of_javaScript_eq {file file' programFile programFile' : Nat}
    {text text' : String} {tokens tokens' : List Token} {p q : Program}
    (hscan : scan file text = .ok tokens) (hscan' : scan file' text' = .ok tokens')
    (htexts : ∀ t ∈ tokens, ∀ content ∈ t.texts, '\\' ∉ content.toList)
    (htexts' : ∀ t ∈ tokens', ∀ content ∈ t.texts, '\\' ∉ content.toList)
    (hparse : Program.ofTokens programFile tokens = .ok p)
    (hparse' : Program.ofTokens programFile' tokens' = .ok q)
    (h : p.javaScript = q.javaScript) : p.outline = q.outline := by
  have hreads := Program.readsBody hscan htexts hparse
  rw [h] at hreads
  have hbody := (hreads.unique (Program.readsBody hscan' htexts' hparse')).1
  exact (Body.mk.inj hbody).1

/-- Two sources that differ in a type, in `nil` and in the quotes of a text. -/
theorem outline_eq_of_types : ∃ (tokens tokens' : List Token) (p q : Program),
    scan 0 ("type T = \x7ba: n\x7d func f = \x7ba\x7d " ++
        "\x7b if a == nil \x7b return \"x\" \x7d else \x7b\x7d return a \x7d") = .ok tokens ∧
      scan 0 ("type T = []n func f = \x7ba\x7d " ++
        "\x7b if a == null \x7b return `x` \x7d else \x7b\x7d return a \x7d") = .ok tokens' ∧
      Program.ofTokens 0 tokens = .ok p ∧ Program.ofTokens 0 tokens' = .ok q ∧
      p.javaScript = "// Type: T\nfunction f(a) \x7b\n  if (a == null) \x7b\n    return `x`;\n" ++
        "  \x7d else \x7b\n  \x7d\n  return a;\n\x7d\n\n" ∧
      p.javaScript = q.javaScript ∧ p.outline = q.outline := by
  have hrun : ∃ tokens ∈ (scan 0 ("type T = \x7ba: n\x7d func f = \x7ba\x7d " ++
        "\x7b if a == nil \x7b return \"x\" \x7d else \x7b\x7d return a \x7d")).toOption,
      ∃ tokens' ∈ (scan 0 ("type T = []n func f = \x7ba\x7d " ++
        "\x7b if a == null \x7b return `x` \x7d else \x7b\x7d return a \x7d")).toOption,
      (∀ t ∈ tokens, ∀ content ∈ t.texts, '\\' ∉ content.toList) ∧
      (∀ t ∈ tokens', ∀ content ∈ t.texts, '\\' ∉ content.toList) ∧
      ∃ p ∈ (Program.ofTokens 0 tokens).toOption, ∃ q ∈ (Program.ofTokens 0 tokens').toOption,
        p.javaScript = "// Type: T\nfunction f(a) \x7b\n  if (a == null) \x7b\n    return `x`;\n" ++
          "  \x7d else \x7b\n  \x7d\n  return a;\n\x7d\n\n" ∧
        p.javaScript = q.javaScript := by
    decide +kernel
  obtain ⟨tokens, htokens, tokens', htokens', htexts, htexts', p, hp, q, hq, htext, hsame⟩ := hrun
  have hscan := eq_ok_of_mem_toOption htokens
  have hscan' := eq_ok_of_mem_toOption htokens'
  have hparse := eq_ok_of_mem_toOption hp
  have hparse' := eq_ok_of_mem_toOption hq
  exact ⟨tokens, tokens', p, q, hscan, hscan', hparse, hparse', htext, hsame,
    outline_eq_of_javaScript_eq hscan hscan' htexts htexts' hparse hparse' hsame⟩

end Scriptwright
