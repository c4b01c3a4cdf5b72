import Mathlib.Data.List.Flatten
import Scriptwright.Proofs.Grammar.Names
import Scriptwright.Proofs.Token.Order

/-!
# Where the nodes of a program stand

Each node of a program has the span over the tokens that it was read from. The spans of its
children lie within it and apart from each other. There are two exceptions. A function takes
types from its signature, which stands before it and behind whatever comes before the two. A
name in a template has no token of its own, and its span lies inside the token of the
template.

The proof follows the derivation. A node is read from the tokens of its tree, and its children
are read from parts of these tokens that follow each other.
-/

namespace Scriptwright

/-- No byte belongs to both. -/
def Span.Apart (a b : Span) : Prop := a.stop ≤ b.start ∨ b.stop ≤ a.start

/-- The span reaches from the start of a token to the end of the same token or a later one. -/
def Span.Bounded (tokens : List Token) (s : Span) : Prop :=
  ∃ (i j : Nat) (t u : Token), i ≤ j ∧ tokens[i]? = some t ∧ tokens[j]? = some u ∧
    s.start = t.span.start ∧ s.stop = u.span.stop

theorem Span.Apart.symm {a b : Span} (h : a.Apart b) : b.Apart a := Or.symm h

inductive SyntaxNode where
  | declaration (d : Declaration)
  | parameter (p : Parameter)
  | type (t : TypeExpr)
  | block (b : Block)
  | statement (s : Statement)
  | assignment (a : Assignment)
  | expr (e : Expr)

def Statement.span : Statement → Span
  | .assign _ span | .branch _ _ _ span | .whileLoop _ _ span | .forLoop _ _ _ _ span => span

def Item.node : Item → SyntaxNode
  | .declaration d => .declaration d
  | .statement s => .statement s

namespace SyntaxNode

def span : SyntaxNode → Span
  | declaration d => d.span
  | parameter p => p.span
  | type t => t.span
  | block b => b.span
  | statement s => s.span
  | assignment a => a.span
  | expr e => e.span

/-- The nodes directly inside a node that have tokens of their own. -/
def children : SyntaxNode → List SyntaxNode
  | declaration (.function _ parameters _ body _) => parameters.map parameter ++ [block body]
  | declaration (.typeName _ definition _) => [type definition]
  | parameter _ | type (.simple _ _) => []
  | type (.array element _) => [type element]
  | type (.interface shape) => shape.fields.map fun field => type field.2
  | type (.function parameters result _) => [type (.interface parameters), type result]
  | block (.mk items result _) => items.map Item.node ++ result.toList.map expr
  | statement (.assign a _) => [assignment a]
  | statement (.branch condition thenBlock elseBlock _) =>
    expr condition :: block thenBlock :: elseBlock.toList.map block
  | statement (.whileLoop condition body _) => [expr condition, block body]
  | statement (.forLoop initializer condition increment body _) =>
    initializer.toList.map assignment ++ condition.toList.map expr ++
      increment.toList.map assignment ++ [block body]
  | assignment a => [expr a.left, expr a.right]
  | expr (.template _ _) => []
  | expr e => e.children.map expr

/-- The types that a function takes from its signature. -/
def annotations : SyntaxNode → List TypeExpr
  | declaration (.function _ parameters result _ _) =>
    parameters.filterMap (·.type) ++ result.toList
  | _ => []

/-- The names in a template. -/
def interpolations : SyntaxNode → List Expr
  | expr (.template parts _) => parts.filterMap TemplatePart.code?
  | _ => []

/-- The declarations and statements of a block. -/
def items : SyntaxNode → List SyntaxNode
  | block b => b.items.map Item.node
  | _ => []

/-- The node is the other one or is somewhere inside it. -/
inductive Within (n : SyntaxNode) : SyntaxNode → Prop
  | self : Within n n
  | child {parent child : SyntaxNode} (hmem : child ∈ parent.children) (h : Within n child) :
      Within n parent
  | annotation {parent : SyntaxNode} {a : TypeExpr} (hmem : a ∈ parent.annotations)
      (h : Within n (.type a)) : Within n parent

def OccursIn (n : SyntaxNode) (p : Program) : Prop :=
  ∃ d ∈ p.declarations, n.Within (.declaration d)

/-- Nodes from byte `low` on, each behind the one before it. What a node takes from a signature
stands between the two. -/
def InTurn (low : Nat) : List SyntaxNode → Prop
  | [] => True
  | n :: more =>
    low ≤ n.span.start ∧
      (∀ a ∈ n.annotations, low ≤ a.span.start ∧ a.span.stop ≤ n.span.start) ∧
      InTurn n.span.stop more

/-- The node takes some bytes of the file, from the start of a token to the end of a token. What
belongs to it has its place. -/
structure Placed (file : Nat) (text : List Char) (tokens : List Token) (n : SyntaxNode) : Prop where
  inFile : n.span.file = file
  nonempty : n.span.start < n.span.stop
  bounded : n.span.Bounded tokens
  contains : ∀ c ∈ n.children, n.span.start ≤ c.span.start ∧ c.span.stop ≤ n.span.stop
  apart : n.children.Pairwise fun a b => a.span.Apart b.span
  inTurn : InTurn n.span.start n.items
  /-- A name in a template stands inside the template's token. -/
  interpolated : ∀ e ∈ n.interpolations, ∃ t ∈ tokens, t.kind = .template ∧
    n.span.start ≤ t.span.start ∧ t.span.stop ≤ n.span.stop ∧
      ∃ name span, e = .identifier name span ∧
        span.Selects file t.span.start t.span.stop text name
  interpolatedApart : n.interpolations.Pairwise fun a b => a.span.Apart b.span

/-- The node and everything in it have their places in the source. -/
def AllPlaced (file : Nat) (text : List Char) (source : List Token) (n : SyntaxNode) : Prop :=
  ∀ m : SyntaxNode, m.Within n → m.Placed file text source

/-- The node has the span over the tokens, and everything in it has its place in the source. -/
structure ReadFrom (file : Nat) (text : List Char) (source ts : List Token) (n : SyntaxNode) :
    Prop where
  spanned : n.span.Over file ts
  placed : n.AllPlaced file text source

section
variable {file : Nat} {text : List Char} {source ts : List Token} {n : SyntaxNode}

/-- A node that has its place, with children and annotations that have theirs. -/
theorem Placed.allPlaced (hn : n.Placed file text source)
    (hchildren : ∀ c ∈ n.children, c.AllPlaced file text source)
    (hannotations : ∀ a ∈ n.annotations, (type a).AllPlaced file text source) :
    n.AllPlaced file text source := by
  intro m hm
  cases hm with
  | self => exact hn
  | child hmem h => exact hchildren _ hmem m h
  | annotation hmem h => exact hannotations _ hmem m h

theorem AllPlaced.child (h : n.AllPlaced file text source) {c : SyntaxNode}
    (hc : c ∈ n.children) : c.AllPlaced file text source :=
  fun m hm => h m (.child hc hm)

section
variable (hsource : Token.InOrder file source) (hsub : ts.Sublist source)
include hsource hsub

theorem bounded_of_over {s : Span} (h : s.Over file ts) : s.Bounded source := by
  obtain ⟨first, hfirst, hstart⟩ := h.first
  obtain ⟨last, hlast, hstop⟩ := h.last
  obtain ⟨i, hi⟩ := List.getElem?_of_mem (hsub.subset (List.mem_of_mem_head? hfirst))
  obtain ⟨j, hj⟩ := List.getElem?_of_mem (hsub.subset (List.mem_of_mem_getLast? hlast))
  have hnonempty := h.nonempty (hsource.sublist hsub)
  rw [hstart, hstop] at hnonempty
  exact ⟨i, j, first, last, hsource.index_le hi hj hnonempty, hi, hj, hstart, hstop⟩

/-- A node whose children are read from some of its tokens and stand apart. -/
theorem readFrom_of_apart (hover : n.span.Over file ts)
    (hchildren : ∀ c ∈ n.children, ∃ part, part.Sublist ts ∧ c.ReadFrom file text source part)
    (hapart : n.children.Pairwise fun a b => a.span.Apart b.span)
    (hannotations : ∀ a ∈ n.annotations, (type a).AllPlaced file text source)
    (hinTurn : InTurn n.span.start n.items) (hnames : n.interpolations = []) :
    n.ReadFrom file text source ts := by
  have hts := hsource.sublist hsub
  refine ⟨hover, Placed.allPlaced ?_ ?_ hannotations⟩
  · refine ⟨hover.file, hover.nonempty hts, bounded_of_over hsource hsub hover, ?_, hapart,
      hinTurn, ?_, ?_⟩
    · intro c hc
      obtain ⟨part, hpart, hread⟩ := hchildren c hc
      exact hover.within hts hread.spanned hpart
    · rw [hnames]
      exact List.forall_mem_nil _
    · rw [hnames]
      exact .nil
  · intro c hc
    obtain ⟨part, -, hread⟩ := hchildren c hc
    exact hread.placed

end

theorem sublist_flatMap_of_mem {α : Type} {f : α → List Token} {as : List α} {a : α}
    (h : a ∈ as) : (f a).Sublist (as.flatMap f) := by
  rw [List.flatMap_def]
  exact List.sublist_flatten_of_mem (List.mem_map_of_mem h)

/-- What is read from tokens that follow each other follows each other. -/
theorem pairwise_of_parts {parts : List (SyntaxNode × List Token)}
    (horder : Token.InOrder file (parts.flatMap Prod.snd))
    (hparts : ∀ part ∈ parts, part.1.span.Over file part.2) :
    (parts.map Prod.fst).Pairwise fun a b => a.span.stop ≤ b.span.start := by
  induction parts with
  | nil => exact .nil
  | cons part parts ih =>
    obtain ⟨hpart, hmore⟩ := List.forall_mem_cons.mp hparts
    rw [List.flatMap_cons] at horder
    refine List.pairwise_cons.mpr ⟨?_, ih (horder.sublist (List.sublist_append_right _ _)) hmore⟩
    intro n hn
    obtain ⟨next, hnext, rfl⟩ := List.mem_map.mp hn
    exact hpart.stop_le_start (hmore next hnext)
      (horder.sublist ((sublist_flatMap_of_mem hnext).append_left part.2))

/-- A node whose children are read from parts of its tokens, one after the other. -/
theorem readFrom_of_parts (hsource : Token.InOrder file source) (hsub : ts.Sublist source)
    (hover : n.span.Over file ts) (parts : List (SyntaxNode × List Token))
    (hchildren : n.children = parts.map Prod.fst)
    (hparts : ∀ part ∈ parts, part.1.ReadFrom file text source part.2)
    (hts : (parts.flatMap Prod.snd).Sublist ts)
    (hannotations : ∀ a ∈ n.annotations, (type a).AllPlaced file text source)
    (hinTurn : InTurn n.span.start n.items) (hnames : n.interpolations = []) :
    n.ReadFrom file text source ts := by
  refine readFrom_of_apart hsource hsub hover ?_ ?_ hannotations hinTurn hnames
  · rw [hchildren]
    intro c hc
    obtain ⟨part, hpart, rfl⟩ := List.mem_map.mp hc
    exact ⟨part.2, (sublist_flatMap_of_mem hpart).trans hts, hparts part hpart⟩
  · rw [hchildren]
    have hpairs := pairwise_of_parts ((hsource.sublist hsub).sublist hts)
      fun part hpart => (hparts part hpart).spanned
    exact hpairs.imp Or.inl

/-- A node without children, read from one token. -/
theorem readFrom_leaf (hsource : Token.InOrder file source) {t : Token} (ht : t ∈ source)
    (hspan : n.span = t.span) (hchildren : n.children = [])
    (hannotations : n.annotations = []) (hitems : n.items = [])
    (hnames : n.interpolations = []) : n.ReadFrom file text source [t] := by
  refine readFrom_of_parts hsource (List.singleton_sublist.mpr ht) ?_ [] hchildren
    (List.forall_mem_nil _) (List.nil_sublist _) ?_ ?_ hnames
  · rw [hspan]
    exact .single (hsource.file t ht)
  · rw [hannotations]
    exact List.forall_mem_nil _
  · rw [hitems]
    trivial

/-- A group has the children of what it holds. -/
theorem ReadFrom.withSpan {e : Expr} {part : List Token} {s : Span}
    (h : (expr e).ReadFrom file text source part) (hpart : part.Sublist ts)
    (hsource : Token.InOrder file source) (hsub : ts.Sublist source) (hover : s.Over file ts) :
    (expr (e.withSpan s)).ReadFrom file text source ts := by
  have hts := hsource.sublist hsub
  have hspan : (expr (e.withSpan s)).span = s := e.span_withSpan s
  have hchildren : (expr (e.withSpan s)).children = (expr e).children := by cases e <;> rfl
  have hnames : (expr (e.withSpan s)).interpolations = (expr e).interpolations := by
    cases e <;> rfl
  have hplaced := h.placed _ .self
  obtain ⟨hstart, hstop⟩ := hover.within hts h.spanned hpart
  rw [← hspan] at hover
  refine ⟨hover, Placed.allPlaced ?_ ?_ (List.forall_mem_nil _)⟩
  · refine ⟨hover.file, hover.nonempty hts, bounded_of_over hsource hsub hover, ?_, ?_, trivial,
      ?_, ?_⟩
    · rw [hchildren, hspan]
      intro c hc
      obtain ⟨hlow, hhigh⟩ := hplaced.contains c hc
      exact ⟨hstart.trans hlow, hhigh.trans hstop⟩
    · rw [hchildren]
      exact hplaced.apart
    · rw [hnames, hspan]
      intro name hname
      obtain ⟨t, ht, hkind, hlow, hhigh, hselects⟩ := hplaced.interpolated name hname
      exact ⟨t, ht, hkind, hstart.trans hlow, hhigh.trans hstop, hselects⟩
    · rw [hnames]
      exact hplaced.interpolatedApart
  · rw [hchildren]
    intro c hc
    exact h.placed.child hc

end

end SyntaxNode

namespace Grammar
open SyntaxNode

/-- Trees of tokens of the source stand for nodes that are read from these tokens. -/
def Phrase.Places {α : Type} (P : Phrase α) (file : Nat) (text : List Char) (source : List Token)
    (node : α → SyntaxNode) : Prop :=
  ∀ d : P.Tree, (P.tokens d).Sublist source →
    (node (P.value d)).ReadFrom file text source (P.tokens d)

/-- Some tokens of each item are some tokens of the list. -/
theorem CommaList.flatMap_sublist {α : Type} {tokens own : α → List Token}
    (h : ∀ item, (own item).Sublist (tokens item)) (list : CommaList α) :
    (list.items.flatMap own).Sublist (list.tokens tokens) := by
  cases list with
  | none => exact List.nil_sublist _
  | some first more =>
    rw [items, List.flatMap_cons, List.flatMap_map]
    refine (h first).append (List.Sublist.flatMap_right more ?_)
    intro item _
    exact (h item.2).cons _

theorem CommaList.item_sublist {α : Type} (tokens : α → List Token) {list : CommaList α} {item : α}
    (h : item ∈ list.items) : (tokens item).Sublist (list.tokens tokens) :=
  (sublist_flatMap_of_mem h).trans
    (flatMap_sublist (fun item => List.Sublist.refl (tokens item)) list)

/-- What stands between an opening and a closing token is covered by the two. -/
theorem cover_closing {file : Nat} {opening closing : Token} {inner : List Token}
    (h : Token.InOrder file (opening :: (inner ++ [closing]))) :
    (opening.span.cover closing.span).Over file (opening :: (inner ++ [closing])) := by
  have hclosing : closing.span.Over file [closing] := .single (h.file closing (by simp))
  exact hclosing.cover_first (List.suffix_append _ _) h

theorem TermTree.span_value (d : TermTree) : d.value.span = d.token.span := by
  have hdenotes := d.denotes
  unfold term? at hdenotes
  split at hdenotes
  case h_7 => cases hdenotes
  all_goals
    rw [← Option.some.inj hdenotes]
    rfl

section
variable {file : Nat} {E : Phrase Expr} {O : Phrase Operand}

theorem HeadTree.over {d : HeadTree E} (h : Token.InOrder file d.tokens) :
    d.value.expr.span.Over file d.tokens := by
  cases d with
  | group d =>
    have hspan : d.value.span = d.opening.val.span.cover d.closing.val.span :=
      Expr.span_withSpan _ _
    change d.value.span.Over file d.tokens
    rw [hspan]
    exact cover_closing h
  | object d => exact cover_closing h
  | term d =>
    change d.value.span.Over file [d.token]
    rw [d.span_value]
    exact .single (h.file d.token List.mem_cons_self)

theorem TrailerTree.over {d : TrailerTree E} {operand : Operand} {read : List Token}
    (hoperand : operand.expr.span.Over file read) (h : Token.InOrder file (read ++ d.tokens)) :
    (d.apply operand).expr.span.Over file (read ++ d.tokens) := by
  cases d with
  | call opening arguments closing =>
    have hclosing : closing.val.span.Over file [closing.val] :=
      .single (h.file _ (by simp [TrailerTree.tokens]))
    exact hoperand.cover hclosing (opening.val :: arguments.tokens E.tokens) h
  | index opening inner closing =>
    have hclosing : closing.val.span.Over file [closing.val] :=
      .single (h.file _ (by simp [TrailerTree.tokens]))
    exact hoperand.cover hclosing (opening.val :: E.tokens inner) h
  | member dot name =>
    have hname : name.val.span.Over file [name.val] :=
      .single (h.file _ (by simp [TrailerTree.tokens]))
    exact hoperand.cover hname [dot.val] h

theorem foldl_apply_over {trailers : List (TrailerTree E)} {operand : Operand}
    {read : List Token} (hoperand : operand.expr.span.Over file read)
    (h : Token.InOrder file (read ++ trailers.flatMap TrailerTree.tokens)) :
    (trailers.foldl TrailerTree.apply operand).expr.span.Over file
      (read ++ trailers.flatMap TrailerTree.tokens) := by
  induction trailers generalizing operand read with
  | nil =>
    rw [List.flatMap_nil, List.append_nil]
    exact hoperand
  | cons trailer trailers ih =>
    rw [List.flatMap_cons, ← List.append_assoc] at h ⊢
    exact ih (trailer.over hoperand (h.sublist (List.sublist_append_left _ _))) h

theorem OperandTree.over (hO : ∀ d : O.Tree, Token.InOrder file (O.tokens d) →
      (O.value d).expr.span.Over file (O.tokens d)) {d : OperandTree E O}
    (h : Token.InOrder file d.tokens) : d.value.expr.span.Over file d.tokens := by
  cases d with
  | unary sign argument =>
    have hargument := hO argument (h.sublist (List.sublist_cons_self _ _))
    exact hargument.cover_first (List.suffix_refl _) h
  | plain head trailers =>
    exact foldl_apply_over (head.over (h.sublist (List.sublist_append_left _ _))) h

theorem operandPhrase_over (n : Nat) (d : (operandPhrase n).Tree)
    (h : Token.InOrder file ((operandPhrase n).tokens d)) :
    ((operandPhrase n).value d).expr.span.Over file ((operandPhrase n).tokens d) := by
  induction n with
  | zero => exact d.elim
  | succ n ih => exact OperandTree.over ih h

end

section
variable {file : Nat} {text : List Char} {source : List Token}
  (hsource : Token.InOrder file source)
include hsource

/-- Fields between braces. Of the fields with one name the last is kept, in the place of the
first, so the children need not come in the order of the text. -/
theorem readFrom_fields {α δ : Type} {tokens : δ → List Token} {value : δ → String × α}
    {fields : CommaList δ} {opening closing : Token} {n : SyntaxNode} (node : α → SyntaxNode)
    (own : δ → List Token)
    (hsub : (opening :: (fields.tokens tokens ++ [closing])).Sublist source)
    (hspan : n.span = opening.span.cover closing.span)
    (hchildren : n.children =
      (Record.merged (fields.items.map value)).map fun field => node field.2)
    (hown : ∀ d, (own d).Sublist (tokens d))
    (hread : ∀ d, (own d).Sublist source →
      (node (value d).2).ReadFrom file text source (own d))
    (hannotations : n.annotations = []) (hitems : n.items = []) (hnames : n.interpolations = []) :
    n.ReadFrom file text source (opening :: (fields.tokens tokens ++ [closing])) := by
  have hfields : (fields.items.flatMap own).Sublist
      (opening :: (fields.tokens tokens ++ [closing])) :=
    ((CommaList.flatMap_sublist hown fields).trans (List.sublist_append_left _ _)).cons _
  have hpart : ∀ d ∈ fields.items, (own d).Sublist (fields.items.flatMap own) :=
    fun d hd => sublist_flatMap_of_mem hd
  have horder := hsource.sublist hsub
  refine readFrom_of_apart hsource hsub ?_ ?_ ?_ ?_ ?_ hnames
  · rw [hspan]
    exact cover_closing horder
  · rw [hchildren]
    intro c hc
    obtain ⟨field, hfield, rfl⟩ := List.mem_map.mp hc
    obtain ⟨d, hd, rfl⟩ := List.mem_map.mp (Record.merged_subset _ hfield)
    have hsubd := (hpart d hd).trans hfields
    exact ⟨own d, hsubd, hread d (hsubd.trans hsub)⟩
  · rw [hchildren, List.pairwise_map]
    have : Std.Symm fun a b : String × α => (node a.2).span.Apart (node b.2).span :=
      ⟨fun _ _ h => h.symm⟩
    refine Record.pairwise_merged (List.pairwise_map.mpr ?_)
    have hparts : Token.InOrder file
        ((fields.items.map fun d => (node (value d).2, own d)).flatMap Prod.snd) := by
      rw [List.flatMap_map]
      exact horder.sublist hfields
    have hpairs := pairwise_of_parts hparts (by
      intro part hmem
      obtain ⟨d, hd, rfl⟩ := List.mem_map.mp hmem
      exact (hread d (((hpart d hd).trans hfields).trans hsub)).spanned)
    rw [List.map_map, List.pairwise_map] at hpairs
    exact hpairs.imp Or.inl
  · rw [hannotations]
    exact List.forall_mem_nil _
  · rw [hitems]
    trivial

section
variable {T : Phrase TypeExpr} (hT : T.Places file text source .type)
include hT

theorem ShapeTree.readFrom {d : ShapeTree T} (h : d.tokens.Sublist source) :
    (type (.interface d.value)).ReadFrom file text source d.tokens :=
  readFrom_fields hsource .type (fun p => T.tokens p.type) h rfl rfl
    (fun _ => ((List.Sublist.refl _).cons _).cons _) (fun p hp => hT p.type hp) rfl rfl rfl

theorem TypeTree.readFrom {d : TypeTree T} (h : d.tokens.Sublist source) :
    (type d.value).ReadFrom file text source d.tokens := by
  have horder := hsource.sublist h
  cases d with
  | array brackets element =>
    have helement := hT element (List.sublist_of_cons_sublist h)
    refine readFrom_of_parts hsource h ?_ [(type (T.value element), T.tokens element)] rfl ?_ ?_
      (List.forall_mem_nil _) trivial rfl
    · exact helement.spanned.cover_first (List.suffix_refl _) horder
    · exact List.forall_mem_singleton.mpr helement
    · rw [List.flatMap_singleton]
      exact (List.Sublist.refl _).cons _
  | interface shape => exact shape.readFrom hsource hT h
  | function parameters colon result =>
    have hparameters := parameters.readFrom hsource hT ((List.sublist_append_left _ _).trans h)
    have hresult := hT result (((List.Sublist.refl _).cons colon.val).trans
      ((List.sublist_append_right _ _).trans h))
    refine readFrom_of_parts hsource h ?_ [(type (.interface parameters.value), parameters.tokens),
      (type (T.value result), T.tokens result)] rfl ?_ ?_ (List.forall_mem_nil _) trivial rfl
    · exact hresult.spanned.cover_first
        ((List.suffix_cons _ _).trans (List.suffix_append _ _)) horder
    · exact List.forall_mem_cons.mpr ⟨hparameters, List.forall_mem_singleton.mpr hresult⟩
    · rw [List.flatMap_cons, List.flatMap_singleton]
      exact ((List.Sublist.refl _).cons _).append_left _
  | simple name =>
    exact readFrom_leaf hsource (h.subset List.mem_cons_self) rfl rfl rfl rfl rfl

end

theorem typePhrase_places (n : Nat) : (typePhrase n).Places file text source .type := by
  induction n with
  | zero => exact fun d => d.elim
  | succ n ih => exact fun d h => TypeTree.readFrom hsource ih h

theorem readFrom_term {d : TermTree} (h : d.token ∈ source) :
    (expr d.value).ReadFrom file text source [d.token] := by
  have hdenotes := d.denotes
  unfold term? at hdenotes
  split at hdenotes
  case h_7 => cases hdenotes
  all_goals
    rw [← Option.some.inj hdenotes]
    exact readFrom_leaf hsource h rfl rfl rfl rfl rfl

theorem readFrom_name {name : Terminal .identifier} (h : name.val ∈ source) :
    (expr (.identifier name.val.lexeme name.val.span)).ReadFrom file text source [name.val] :=
  readFrom_leaf hsource h rfl rfl rfl rfl rfl

theorem readFrom_join {left right : Expr} {xs ys : List Token} {sign : Token}
    (h : (xs ++ sign :: ys).Sublist source) (hleft : (expr left).ReadFrom file text source xs)
    (hright : (expr right).ReadFrom file text source ys) (op : BinaryOp) :
    (expr (join left op right)).ReadFrom file text source (xs ++ sign :: ys) := by
  refine readFrom_of_parts hsource h ?_ [(expr left, xs), (expr right, ys)] rfl ?_ ?_
    (List.forall_mem_nil _) trivial rfl
  · exact hleft.spanned.cover hright.spanned [sign] (hsource.sublist h)
  · exact List.forall_mem_cons.mpr ⟨hleft, List.forall_mem_singleton.mpr hright⟩
  · rw [List.flatMap_cons, List.flatMap_singleton]
    exact ((List.Sublist.refl _).cons _).append_left _

omit hsource in
/-- The names in a template and the spans of its segments. -/
theorem interpolations_span (segments : List Segment) :
    ((segments.map Segment.part).filterMap TemplatePart.code?).map Expr.span =
      segments.flatMap Segment.spans := by
  induction segments with
  | nil => rfl
  | cons segment segments ih =>
    cases segment with
    | text content => exact ih
    | name name span => exact congrArg (span :: ·) ih

omit hsource in
theorem mem_interpolations {segments : List Segment} {e : Expr}
    (h : e ∈ (segments.map Segment.part).filterMap TemplatePart.code?) :
    ∃ name span, e = .identifier name span ∧ .name name span ∈ segments := by
  obtain ⟨part, hpart, hcode⟩ := List.mem_filterMap.mp h
  obtain ⟨segment, hsegment, rfl⟩ := List.mem_map.mp hpart
  cases segment with
  | text content => cases hcode
  | name name span =>
    cases hcode
    exact ⟨name, span, rfl, hsegment⟩

section
variable (hnames : ∀ t ∈ source, Segment.Placed file t.span.start t.span.stop text t.segments)
include hnames

theorem readFrom_template {t : Token} (ht : t ∈ source) (hkind : t.kind = .template) :
    (expr (.template (t.segments.map Segment.part) t.span)).ReadFrom file text source [t] := by
  have hover : t.span.Over file [t] := .single (hsource.file t ht)
  have hbounded : t.span.Bounded source :=
    bounded_of_over hsource (List.singleton_sublist.mpr ht) hover
  refine ⟨hover, Placed.allPlaced ?_ (List.forall_mem_nil _) (List.forall_mem_nil _)⟩
  refine ⟨hsource.file t ht, hsource.nonempty t ht, hbounded, List.forall_mem_nil _, .nil, trivial,
    ?_, ?_⟩
  · intro e he
    obtain ⟨name, span, rfl, hsegment⟩ := mem_interpolations he
    exact ⟨t, ht, hkind, Nat.le_refl _, Nat.le_refl _, name, span, rfl,
      (hnames t ht).selects hsegment⟩
  · have hpairs := (hnames t ht).pairs
    rw [← interpolations_span, List.pairwise_map] at hpairs
    exact hpairs.imp Or.inl

end

section
variable {E : Phrase Expr} {O : Phrase Operand} (hE : E.Places file text source .expr)
  (hO : O.Places file text source fun operand => .expr operand.expr)
include hE

/-- The tokens of a field's value. -/
def FieldTree.own : FieldTree E → List Token
  | named _ _ value => E.tokens value
  | shorthand name => [name.val]

omit hsource hE in
theorem FieldTree.own_sublist (d : FieldTree E) : d.own.Sublist d.tokens := by
  cases d with
  | named name colon value => exact ((List.Sublist.refl _).cons _).cons _
  | shorthand name => exact List.Sublist.refl _

theorem FieldTree.readFrom {d : FieldTree E} (h : d.own.Sublist source) :
    (expr d.value.2).ReadFrom file text source d.own := by
  cases d with
  | named name colon value => exact hE value h
  | shorthand name => exact readFrom_name hsource (h.subset List.mem_cons_self)

theorem ObjectTree.readFrom {d : ObjectTree E} (h : d.tokens.Sublist source) :
    (expr d.value).ReadFrom file text source d.tokens := by
  refine readFrom_fields hsource .expr FieldTree.own h rfl ?_ FieldTree.own_sublist
    (fun _ hd => FieldTree.readFrom hsource hE hd) rfl rfl rfl
  exact List.map_map

theorem GroupTree.readFrom {d : GroupTree E} (h : d.tokens.Sublist source) :
    (expr d.value).ReadFrom file text source d.tokens := by
  have hinner : (E.tokens d.inner).Sublist d.tokens := (List.sublist_append_left _ _).cons _
  exact (hE d.inner (hinner.trans h)).withSpan hinner hsource h
    (cover_closing (hsource.sublist h))

theorem HeadTree.readFrom {d : HeadTree E} (h : d.tokens.Sublist source) :
    (expr d.value.expr).ReadFrom file text source d.tokens := by
  cases d with
  | group d => exact d.readFrom hsource hE h
  | object d => exact d.readFrom hsource hE h
  | term d => exact readFrom_term hsource (h.subset List.mem_cons_self)

omit hsource in
/-- The expressions of a list, each with its tokens. -/
theorem CommaList.readFrom {list : CommaList E.Tree} (h : (list.tokens E.tokens).Sublist source) :
    ∀ part ∈ list.items.map fun e => (expr (E.value e), E.tokens e),
      part.1.ReadFrom file text source part.2 := by
  intro part hpart
  obtain ⟨e, he, rfl⟩ := List.mem_map.mp hpart
  exact hE e ((CommaList.item_sublist _ he).trans h)

omit hsource hE in
theorem CommaList.parts_sublist (list : CommaList E.Tree) (opening closing : Token) :
    ((list.items.map fun e => (expr (E.value e), E.tokens e)).flatMap Prod.snd).Sublist
      (opening :: (list.tokens E.tokens ++ [closing])) := by
  rw [List.flatMap_map]
  exact ((flatMap_sublist (fun _ => List.Sublist.refl _) list).trans
    (List.sublist_append_left _ _)).cons _

theorem readFrom_array {opening closing : Token} {elements : CommaList E.Tree}
    (h : (opening :: (elements.tokens E.tokens ++ [closing])).Sublist source) :
    (expr (.array (elements.items.map E.value) (opening.span.cover closing.span))).ReadFrom
      file text source (opening :: (elements.tokens E.tokens ++ [closing])) := by
  refine readFrom_of_parts hsource h (cover_closing (hsource.sublist h))
    (elements.items.map fun e => (expr (E.value e), E.tokens e)) ?_
    (CommaList.readFrom hE (((List.sublist_append_left _ _).cons _).trans h))
    (elements.parts_sublist opening closing) (List.forall_mem_nil _) trivial rfl
  simp [children, Expr.children]

theorem TrailerTree.readFrom {d : TrailerTree E} {operand : Operand} {read : List Token}
    (hoperand : (expr operand.expr).ReadFrom file text source read)
    (h : (read ++ d.tokens).Sublist source) :
    (expr (d.apply operand).expr).ReadFrom file text source (read ++ d.tokens) := by
  have horder := hsource.sublist h
  have htokens : d.tokens.Sublist source := (List.sublist_append_right _ _).trans h
  cases d with
  | call opening arguments closing =>
    refine readFrom_of_parts hsource h ?_ ((expr operand.expr, read) ::
      arguments.items.map fun e => (expr (E.value e), E.tokens e)) ?_ ?_ ?_
      (List.forall_mem_nil _) trivial rfl
    · exact TrailerTree.over hoperand.spanned horder
    · simp [TrailerTree.apply, children, Expr.children]
    · exact List.forall_mem_cons.mpr ⟨hoperand,
        CommaList.readFrom hE (((List.sublist_append_left _ _).cons _).trans htokens)⟩
    · exact (arguments.parts_sublist opening.val closing.val).append_left read
  | index opening inner closing =>
    have hinner : (E.tokens inner).Sublist (TrailerTree.index opening inner closing).tokens :=
      (List.sublist_append_left _ _).cons _
    have hread := hE inner (hinner.trans htokens)
    refine readFrom_of_parts hsource h ?_ [(expr operand.expr, read),
      (expr (E.value inner), E.tokens inner)] rfl ?_ ?_ (List.forall_mem_nil _) trivial rfl
    · exact TrailerTree.over hoperand.spanned horder
    · exact List.forall_mem_cons.mpr ⟨hoperand, List.forall_mem_singleton.mpr hread⟩
    · rw [List.flatMap_cons, List.flatMap_singleton]
      exact hinner.append_left read
  | member dot name =>
    have hname : name.val ∈ source := htokens.subset (List.mem_cons_of_mem _ List.mem_cons_self)
    refine readFrom_of_parts hsource h ?_ [(expr operand.expr, read),
      (expr (.identifier name.val.lexeme name.val.span), [name.val])] rfl ?_ ?_
      (List.forall_mem_nil _) trivial rfl
    · exact TrailerTree.over hoperand.spanned horder
    · exact List.forall_mem_cons.mpr
        ⟨hoperand, List.forall_mem_singleton.mpr (readFrom_name hsource hname)⟩
    · rw [List.flatMap_cons, List.flatMap_singleton]
      exact ((List.Sublist.refl _).cons _).append_left read

theorem foldl_apply_readFrom {trailers : List (TrailerTree E)} {operand : Operand}
    {read : List Token} (hoperand : (expr operand.expr).ReadFrom file text source read)
    (h : (read ++ trailers.flatMap TrailerTree.tokens).Sublist source) :
    (expr (trailers.foldl TrailerTree.apply operand).expr).ReadFrom file text source
      (read ++ trailers.flatMap TrailerTree.tokens) := by
  induction trailers generalizing operand read with
  | nil =>
    rw [List.flatMap_nil, List.append_nil]
    exact hoperand
  | cons trailer trailers ih =>
    rw [List.flatMap_cons, ← List.append_assoc] at h ⊢
    exact ih (trailer.readFrom hsource hE hoperand ((List.sublist_append_left _ _).trans h)) h

theorem foldl_joinLink_readFrom {links : List (Sign BinaryOp.ofKind? × GroupTree E)} {left : Expr}
    {read : List Token} (hleft : (expr left).ReadFrom file text source read)
    (h : (read ++ links.flatMap linkTokens).Sublist source) :
    (expr (links.foldl joinLink left)).ReadFrom file text source
      (read ++ links.flatMap linkTokens) := by
  induction links generalizing left read with
  | nil =>
    rw [List.flatMap_nil, List.append_nil]
    exact hleft
  | cons link links ih =>
    rw [List.flatMap_cons, ← List.append_assoc] at h ⊢
    have hlink : (read ++ linkTokens link).Sublist source := (List.sublist_append_left _ _).trans h
    have hgroup := link.2.readFrom hsource hE
      (((List.Sublist.refl _).cons _).trans ((List.sublist_append_right _ _).trans hlink))
    exact ih (readFrom_join hsource hlink hleft hgroup link.1.op) h

include hO

theorem OperandTree.readFrom {d : OperandTree E O} (h : d.tokens.Sublist source) :
    (expr d.value.expr).ReadFrom file text source d.tokens := by
  have horder := hsource.sublist h
  cases d with
  | unary sign argument =>
    have hargument := hO argument (List.sublist_of_cons_sublist h)
    refine readFrom_of_parts hsource h ?_ [(expr (O.value argument).expr, O.tokens argument)] rfl
      ?_ ?_ (List.forall_mem_nil _) trivial rfl
    · exact hargument.spanned.cover_first (List.suffix_refl _) horder
    · exact List.forall_mem_singleton.mpr hargument
    · rw [List.flatMap_singleton]
      exact (List.Sublist.refl _).cons _
  | plain head trailers =>
    have hhead := head.readFrom hsource hE ((List.sublist_append_left _ _).trans h)
    exact foldl_apply_readFrom hsource hE hhead h

variable (hnames : ∀ t ∈ source, Segment.Placed file t.span.start t.span.stop text t.segments)
include hnames

theorem ExprTree.readFrom {d : ExprTree E O} (h : d.tokens.Sublist source) :
    (expr d.value).ReadFrom file text source d.tokens := by
  cases d with
  | template token =>
    exact readFrom_template hsource hnames (h.subset List.mem_cons_self) token.property
  | emptyArray brackets =>
    exact readFrom_leaf hsource (h.subset List.mem_cons_self) rfl rfl rfl rfl rfl
  | array opening elements closing => exact readFrom_array hsource hE h
  | object d => exact d.readFrom hsource hE h
  | single first bare => exact first.readFrom hsource hE hO h
  | chain first bare sign second more =>
    have htokens : (ExprTree.chain first bare sign second more).tokens =
        (first.tokens ++ sign.token :: second.tokens) ++ more.flatMap linkTokens := by
      simp [ExprTree.tokens]
    rw [htokens] at h ⊢
    have hjoin : (first.tokens ++ sign.token :: second.tokens).Sublist source :=
      (List.sublist_append_left _ _).trans h
    have hfirst := first.readFrom hsource hE hO ((List.sublist_append_left _ _).trans hjoin)
    have hsecond := second.readFrom hsource hE hO
      (((List.Sublist.refl _).cons _).trans ((List.sublist_append_right _ _).trans hjoin))
    exact foldl_joinLink_readFrom hsource hE (readFrom_join hsource hjoin hfirst hsecond sign.op) h

end

theorem exprPhrase_places
    (hnames : ∀ t ∈ source, Segment.Placed file t.span.start t.span.stop text t.segments)
    (n : Nat) : (exprPhrase n).Places file text source .expr ∧
      (operandPhrase n).Places file text source fun operand => .expr operand.expr := by
  induction n with
  | zero => exact ⟨fun d => d.elim, fun d => d.elim⟩
  | succ n ih =>
    constructor
    · exact fun d h => ExprTree.readFrom hsource ih.1 ih.2 hnames h
    · exact fun d h => OperandTree.readFrom hsource ih.1 ih.2 h

end

end Grammar

end Scriptwright
