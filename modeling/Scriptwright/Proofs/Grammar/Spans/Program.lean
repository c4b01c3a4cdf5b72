import Scriptwright.Proofs.Grammar.Spans
import Scriptwright.Proofs.Parser.EndOfText

/-!
# Where declarations, statements and blocks stand

A declaration and a statement stand behind the one before them. A function with a signature
has the span of the function alone, and the types that it takes from the signature stand
between it and what comes before the signature.
-/

namespace Scriptwright

namespace SyntaxNode

/-- The node is read from the tokens `own`, and what it takes from a signature stands in the
tokens `lead` before them. -/
structure Announced (file : Nat) (text : List Char) (source lead own : List Token)
    (n : SyntaxNode) : Prop where
  readFrom : n.ReadFrom file text source own
  annotations : ∀ a ∈ n.annotations, ∃ (part : List Token) (s : Span), part.Sublist lead ∧
    s.Over file part ∧ s.start ≤ a.span.start ∧ a.span.stop ≤ s.stop

/-- Nodes one after the other. -/
theorem inTurn_of_announced {file : Nat} {text : List Char} {source : List Token} {δ : Type}
    {node : δ → SyntaxNode} {lead own : δ → List Token} {ds : List δ} {low : Nat}
    (hds : ∀ d ∈ ds, (node d).Announced file text source (lead d) (own d))
    (horder : Token.InOrder file (ds.flatMap fun d => lead d ++ own d))
    (hlow : ∀ t ∈ ds.flatMap fun d => lead d ++ own d, low ≤ t.span.start) :
    InTurn low (ds.map node) := by
  induction ds generalizing low with
  | nil => trivial
  | cons d ds ih =>
    obtain ⟨hd, hmore⟩ := List.forall_mem_cons.mp hds
    rw [List.flatMap_cons] at horder hlow
    obtain ⟨hfirst, -⟩ := List.forall_mem_append.mp hlow
    have hown := hd.readFrom.spanned
    refine ⟨?_, ?_, ih hmore (horder.sublist (List.sublist_append_right _ _)) ?_⟩
    · obtain ⟨t, ht, hstart⟩ := hown.first
      rw [hstart]
      exact hfirst t (List.mem_append_right _ (List.mem_of_mem_head? ht))
    · intro a ha
      obtain ⟨part, s, hpart, hs, hstart, hstop⟩ := hd.annotations a ha
      obtain ⟨t, ht, ht'⟩ := hs.first
      have hlead := hfirst t (List.mem_append_left _ (hpart.subset (List.mem_of_mem_head? ht)))
      have hbefore := hs.stop_le_start hown
        (horder.sublist ((hpart.append_right (own d)).trans (List.sublist_append_left _ _)))
      omega
    · intro t ht
      obtain ⟨u, hu, hstop⟩ := hown.last
      rw [hstop]
      exact horder.stop_le_start (List.mem_append_right _ (List.mem_of_mem_getLast? hu)) ht

end SyntaxNode

namespace Grammar
open SyntaxNode

section
variable {file : Nat} {text : List Char} {source : List Token}
  (hsource : Token.InOrder file source)
  {T : Phrase TypeExpr} (hT : T.Places file text source .type)
  {E : Phrase Expr} (hE : E.Places file text source .expr)
  {B : Phrase Block} (hB : B.Places file text source .block)
include hsource

theorem ConditionTree.readFrom {d : ConditionTree} (h : d.tokens.Sublist source) :
    (expr d.value).ReadFrom file text source d.tokens := by
  have hname : d.name.val ∈ source := h.subset List.mem_cons_self
  have hright : d.right.token ∈ source := h.subset (by simp [ConditionTree.tokens])
  have hleft : (expr (.identifier d.name.val.lexeme d.name.val.span)).ReadFrom file text source
      [d.name.val] := readFrom_name hsource hname
  exact readFrom_join hsource h hleft (readFrom_term hsource hright) d.sign.op

/-- A statement of a keyword, a condition and a block. -/
theorem readFrom_guarded (hB : B.Places file text source .block) {s : Statement} {start : Token}
    {guard : Expr} {guardTokens : List Token} {body : B.Tree}
    (h : (start :: (guardTokens ++ B.tokens body)).Sublist source)
    (hguard : guardTokens.Sublist source → (expr guard).ReadFrom file text source guardTokens)
    (hspan : s.span = start.span.cover (B.value body).span)
    (hchildren : (statement s).children = [expr guard, block (B.value body)]) :
    (statement s).ReadFrom file text source (start :: (guardTokens ++ B.tokens body)) := by
  have hparts := List.sublist_of_cons_sublist h
  have hguard := hguard ((List.sublist_append_left _ _).trans hparts)
  have hbody := hB body ((List.sublist_append_right _ _).trans hparts)
  refine readFrom_of_parts hsource h ?_
    [(expr guard, guardTokens), (block (B.value body), B.tokens body)] hchildren ?_ ?_
    (List.forall_mem_nil _) trivial rfl
  · rw [SyntaxNode.span, hspan]
    exact hbody.spanned.cover_first (List.suffix_append _ _) (hsource.sublist h)
  · exact List.forall_mem_cons.mpr ⟨hguard, List.forall_mem_singleton.mpr hbody⟩
  · rw [List.flatMap_cons, List.flatMap_singleton]
    exact (List.Sublist.refl _).cons _

section
include hE

theorem AssignmentTree.readFrom {d : AssignmentTree E} (h : d.tokens.Sublist source) :
    (assignment d.value).ReadFrom file text source d.tokens := by
  have hright := hE d.right (List.sublist_of_cons_sublist (List.sublist_of_cons_sublist h))
  refine readFrom_of_parts hsource h ?_
    [(expr (.identifier d.name.val.lexeme d.name.val.span), [d.name.val]),
      (expr (E.value d.right), E.tokens d.right)] rfl ?_ ?_ (List.forall_mem_nil _) trivial rfl
  · exact hright.spanned.cover_first (List.suffix_cons _ _) (hsource.sublist h)
  · exact List.forall_mem_cons.mpr ⟨readFrom_name hsource (h.subset List.mem_cons_self),
      List.forall_mem_singleton.mpr hright⟩
  · rw [List.flatMap_cons, List.flatMap_singleton]
    exact ((List.Sublist.refl _).cons _).cons_cons _

include hB

theorem StatementTree.readFrom {d : StatementTree E B} (h : d.tokens.Sublist source) :
    (statement d.value).ReadFrom file text source d.tokens := by
  have horder := hsource.sublist h
  cases d with
  | assign d =>
    have hd := d.readFrom hsource hE h
    refine readFrom_of_parts hsource h hd.spanned [(assignment d.value, d.tokens)] rfl ?_ ?_
      (List.forall_mem_nil _) trivial rfl
    · exact List.forall_mem_singleton.mpr hd
    · rw [List.flatMap_singleton]
      exact List.Sublist.refl _
  | branch start condition thenBlock =>
    exact readFrom_guarded hsource hB h (fun hsub => condition.readFrom hsource hsub) rfl rfl
  | branchElse start condition thenBlock otherwise elseBlock =>
    have hsub : (condition.tokens ++ (B.tokens thenBlock ++ B.tokens elseBlock)).Sublist
        (StatementTree.branchElse start condition thenBlock otherwise elseBlock :
          StatementTree E B).tokens :=
      ((((List.Sublist.refl _).cons _).append_left _).append_left _).cons _
    have hparts := hsub.trans h
    have hblocks := (List.sublist_append_right _ _).trans hparts
    have hcondition : (expr condition.value).ReadFrom file text source condition.tokens :=
      condition.readFrom hsource ((List.sublist_append_left _ _).trans hparts)
    have hthen := hB thenBlock ((List.sublist_append_left _ _).trans hblocks)
    have helse := hB elseBlock ((List.sublist_append_right _ _).trans hblocks)
    refine readFrom_of_parts hsource h ?_ [(expr condition.value, condition.tokens),
      (block (B.value thenBlock), B.tokens thenBlock),
      (block (B.value elseBlock), B.tokens elseBlock)] rfl ?_ ?_ (List.forall_mem_nil _) trivial rfl
    · refine helse.spanned.cover_first ?_ horder
      exact (List.suffix_cons _ _).trans
        ((List.suffix_append _ _).trans (List.suffix_append _ _))
    · exact List.forall_mem_cons.mpr ⟨hcondition,
        List.forall_mem_cons.mpr ⟨hthen, List.forall_mem_singleton.mpr helse⟩⟩
    · rw [List.flatMap_cons, List.flatMap_cons, List.flatMap_singleton]
      exact hsub
  | whileLoop start condition body =>
    exact readFrom_guarded hsource hB h (hE condition) rfl rfl
  | forLoop start initializer first condition second increment body =>
    have hsub : (initializer.tokens ++ (E.tokens condition ++
        (increment.tokens ++ B.tokens body))).Sublist
          (StatementTree.forLoop start initializer first condition second increment body :
            StatementTree E B).tokens :=
      (((((List.Sublist.refl _).cons _).append_left _).cons _).append_left _).cons _
    have hparts := hsub.trans h
    have hlater := (List.sublist_append_right _ _).trans hparts
    have hlast := (List.sublist_append_right _ _).trans hlater
    have hinitializer :=
      initializer.readFrom hsource hE ((List.sublist_append_left _ _).trans hparts)
    have hcondition := hE condition ((List.sublist_append_left _ _).trans hlater)
    have hincrement := increment.readFrom hsource hE ((List.sublist_append_left _ _).trans hlast)
    have hbody := hB body ((List.sublist_append_right _ _).trans hlast)
    refine readFrom_of_parts hsource h ?_ [(assignment initializer.value, initializer.tokens),
      (expr (E.value condition), E.tokens condition),
      (assignment increment.value, increment.tokens), (block (B.value body), B.tokens body)] rfl
      ?_ ?_ (List.forall_mem_nil _) trivial rfl
    · refine hbody.spanned.cover_first ?_ horder
      exact (List.suffix_append _ _).trans ((List.suffix_cons _ _).trans
        ((List.suffix_append _ _).trans ((List.suffix_cons _ _).trans (List.suffix_append _ _))))
    · exact List.forall_mem_cons.mpr ⟨hinitializer, List.forall_mem_cons.mpr ⟨hcondition,
        List.forall_mem_cons.mpr ⟨hincrement, List.forall_mem_singleton.mpr hbody⟩⟩⟩
    · rw [List.flatMap_cons, List.flatMap_cons, List.flatMap_cons, List.flatMap_singleton]
      exact hsub

end

section
omit hsource

/-- What a function takes from its signature. -/
theorem FunctionTree.mem_annotations {d : FunctionTree B}
    {signature : Option (Interface × TypeExpr)} {a : TypeExpr}
    (ha : a ∈ (declaration (d.value signature)).annotations) :
    ∃ s ∈ signature, (∃ name, (name, a) ∈ s.1.fields) ∨ a = s.2 := by
  rcases List.mem_append.mp ha with ha | ha
  · obtain ⟨p, hp, htype⟩ := List.mem_filterMap.mp ha
    obtain ⟨name, -, rfl⟩ := List.mem_map.mp hp
    obtain ⟨s, hs, hget⟩ := Option.bind_eq_some_iff.mp htype
    exact ⟨s, hs, .inl ⟨_, Record.mem_of_get? hget⟩⟩
  · obtain ⟨s, hs, rfl⟩ := Option.map_eq_some_iff.mp (Option.mem_toList.mp ha)
    exact ⟨s, hs, .inr rfl⟩

/-- The types of a signature stand inside the function type that gives it. -/
theorem within_signature {t a result : TypeExpr} {parameters : Interface} {ts : List Token}
    (ht : (type t).ReadFrom file text source ts)
    (hsignature : functionType? t = some (parameters, result))
    (ha : (∃ name, (name, a) ∈ parameters.fields) ∨ a = result) :
    (type a).AllPlaced file text source ∧ t.span.start ≤ a.span.start ∧
      a.span.stop ≤ t.span.stop := by
  obtain ⟨span, rfl⟩ := functionType?_eq_some.mp hsignature
  have hplaced := ht.placed _ .self
  rcases ha with ⟨name, ha⟩ | rfl
  · have hshape : type (.interface parameters) ∈
        (type (.function parameters result span)).children := List.mem_cons_self
    have hfield : type a ∈ (type (.interface parameters)).children :=
      List.mem_map_of_mem (f := fun field : String × TypeExpr => type field.2) ha
    have houter := hplaced.contains _ hshape
    have hinner := (ht.placed.child hshape _ .self).contains _ hfield
    refine ⟨(ht.placed.child hshape).child hfield, ?_, ?_⟩
    · exact houter.1.trans hinner.1
    · exact hinner.2.trans houter.2
  · have hresult : type a ∈ (type (.function parameters a span)).children :=
      List.mem_cons_of_mem _ (List.mem_singleton.mpr rfl)
    exact ⟨ht.placed.child hresult, hplaced.contains _ hresult⟩

/-- The tokens of a declaration before those that its span is over. -/
def DeclarationTree.lead : DeclarationTree T B → List Token
  | signed definition _ _ _ _ _ => definition.tokens
  | function _ | typeName _ _ => []

/-- The tokens that the span of a declaration is over. -/
def DeclarationTree.own : DeclarationTree T B → List Token
  | function d | signed _ _ _ _ d _ => d.tokens
  | typeName definition _ => definition.tokens

theorem DeclarationTree.lead_append_own (d : DeclarationTree T B) : d.lead ++ d.own = d.tokens := by
  cases d <;> rfl

def ItemTree.lead : ItemTree T E B → List Token
  | declaration d => d.lead
  | statement _ => []

def ItemTree.own : ItemTree T E B → List Token
  | declaration d => d.own
  | statement d => d.tokens

theorem ItemTree.lead_append_own (d : ItemTree T E B) : d.lead ++ d.own = d.tokens := by
  cases d with
  | declaration d => exact d.lead_append_own
  | statement d => rfl

end

section
include hB

theorem FunctionTree.readFrom {d : FunctionTree B} {signature : Option (Interface × TypeExpr)}
    (hannotations : ∀ a ∈ (declaration (d.value signature)).annotations,
      (type a).AllPlaced file text source) (h : d.tokens.Sublist source) :
    (declaration (d.value signature)).ReadFrom file text source d.tokens := by
  have hparts : (d.parameters.tokens (fun name => [name.val]) ++ B.tokens d.body).Sublist
      d.tokens :=
    ((((((List.Sublist.refl _).cons _).append_left _).cons _).cons _).cons _).cons _
  have hbody := hB d.body ((List.sublist_append_right _ _).trans (hparts.trans h))
  refine readFrom_of_parts hsource h ?_
    (d.parameters.items.map (fun name => (parameter ⟨name.val.lexeme,
      signature.bind fun s => Record.get? name.val.lexeme s.1.fields, name.val.span⟩,
        [name.val])) ++ [(block (B.value d.body), B.tokens d.body)])
    ?_ ?_ ?_ hannotations trivial rfl
  · refine hbody.spanned.cover_first ?_ (hsource.sublist h)
    exact ((List.suffix_cons _ _).trans (List.suffix_append _ _)).trans
      ((List.suffix_cons _ _).trans ((List.suffix_cons _ _).trans (List.suffix_cons _ _)))
  · simp [children, FunctionTree.value]
  · refine List.forall_mem_append.mpr ⟨?_, List.forall_mem_singleton.mpr hbody⟩
    refine List.forall_mem_map.mpr ?_
    intro name hname
    have htoken := CommaList.item_sublist (fun name => [name.val]) hname
    have hsub := htoken.trans ((List.sublist_append_left _ _).trans (hparts.trans h))
    exact readFrom_leaf hsource (List.singleton_sublist.mp hsub) rfl rfl rfl rfl rfl
  · rw [List.flatMap_append, List.flatMap_map, List.flatMap_singleton]
    refine List.Sublist.trans (List.Sublist.append_right ?_ _) hparts
    exact d.parameters.flatMap_sublist (fun _ => List.Sublist.refl _)

include hT

theorem DeclarationTree.announced {d : DeclarationTree T B} (h : d.tokens.Sublist source) :
    (declaration d.value).Announced file text source d.lead d.own := by
  cases d with
  | function d =>
    have hnone : ∀ a, a ∉ (declaration (d.value none)).annotations := by
      intro a ha
      obtain ⟨s, hs, -⟩ := FunctionTree.mem_annotations ha
      cases hs
    exact ⟨d.readFrom hsource hB (fun a ha => absurd ha (hnone a)) h,
      fun a ha => absurd ha (hnone a)⟩
  | typeName definition plain =>
    have htype := hT definition.type (List.sublist_of_cons_sublist
      (List.sublist_of_cons_sublist (List.sublist_of_cons_sublist h)))
    refine ⟨?_, List.forall_mem_nil _⟩
    refine readFrom_of_parts hsource h ?_
      [(type (T.value definition.type), T.tokens definition.type)] rfl ?_ ?_
      (List.forall_mem_nil _) trivial rfl
    · exact htype.spanned.cover_first ((List.suffix_cons _ _).trans (List.suffix_cons _ _))
        (hsource.sublist h)
    · exact List.forall_mem_singleton.mpr htype
    · rw [List.flatMap_singleton]
      exact (((List.Sublist.refl _).cons _).cons _).cons _
  | signed definition parameters result signature d sameName =>
    have hpart : (T.tokens definition.type).Sublist definition.tokens :=
      (((List.Sublist.refl _).cons _).cons _).cons _
    have htype := hT definition.type (hpart.trans ((List.sublist_append_left _ _).trans h))
    have hwithin : ∀ a ∈ (declaration (d.value (some (parameters, result)))).annotations,
        (type a).AllPlaced file text source ∧
          (T.value definition.type).span.start ≤ a.span.start ∧
            a.span.stop ≤ (T.value definition.type).span.stop := by
      intro a ha
      obtain ⟨s, ⟨⟩, ha⟩ := FunctionTree.mem_annotations ha
      exact within_signature htype signature ha
    refine ⟨?_, ?_⟩
    · exact d.readFrom hsource hB (fun a ha => (hwithin a ha).1)
        ((List.sublist_append_right _ _).trans h)
    · intro a ha
      exact ⟨_, _, hpart, htype.spanned, (hwithin a ha).2⟩

include hE

theorem ItemTree.announced {d : ItemTree T E B} (h : d.tokens.Sublist source) :
    d.value.node.Announced file text source d.lead d.own := by
  cases d with
  | declaration d => exact d.announced hsource hT hB h
  | statement d => exact ⟨d.readFrom hsource hE hB h, List.forall_mem_nil _⟩

omit hsource hT hE hB in
/-- The tokens of a block are its items, the tokens of its result and the closing brace. -/
theorem BlockTree.exists_tokens_eq (d : BlockTree T E B) : ∃ last : List Token,
    d.tokens = d.opening.val :: (d.items.flatMap ItemTree.tokens ++ last ++ [d.closing.val]) ∧
      (d.result.toList.flatMap fun result => E.tokens result.2).Sublist last := by
  cases hresult : d.result with
  | none =>
    refine ⟨[], ?_, List.Sublist.refl _⟩
    simp [BlockTree.tokens, BlockTree.innerTokens, hresult]
  | some result =>
    refine ⟨result.1.val :: E.tokens result.2, ?_, ?_⟩
    · simp [BlockTree.tokens, BlockTree.innerTokens, hresult]
    · rw [Option.toList_some, List.flatMap_singleton]
      exact (List.Sublist.refl _).cons _

theorem BlockTree.readFrom {d : BlockTree T E B} (h : d.tokens.Sublist source) :
    (block d.value).ReadFrom file text source d.tokens := by
  obtain ⟨last, htokens, hlast⟩ := d.exists_tokens_eq
  rw [htokens] at h ⊢
  have horder := hsource.sublist h
  have hinner : (d.items.flatMap ItemTree.tokens ++ last).Sublist
      (d.opening.val :: (d.items.flatMap ItemTree.tokens ++ last ++ [d.closing.val])) :=
    (List.sublist_append_left _ _).cons _
  have hitems : (d.items.flatMap fun item => item.lead ++ item.own).Sublist
      (d.items.flatMap ItemTree.tokens ++ last) := by
    simp only [ItemTree.lead_append_own]
    exact List.sublist_append_left _ _
  have hannounced : ∀ item ∈ d.items,
      item.value.node.Announced file text source item.lead item.own := by
    intro item hitem
    refine item.announced hsource hT hE hB ?_
    exact (sublist_flatMap_of_mem hitem).trans
      ((List.sublist_append_left _ _).trans (hinner.trans h))
  have hspan : (d.opening.val.span.cover d.closing.val.span).Over file
      (d.opening.val :: (d.items.flatMap ItemTree.tokens ++ last ++ [d.closing.val])) :=
    cover_closing horder
  refine readFrom_of_parts hsource h hspan
    (d.items.map (fun item => (item.value.node, item.own)) ++
      d.result.toList.map fun result => (expr (E.value result.2), E.tokens result.2)) ?_ ?_ ?_
    (List.forall_mem_nil _) ?_ rfl
  · cases hresult : d.result <;> simp [BlockTree.value, children, hresult]
  · refine List.forall_mem_append.mpr ⟨?_, ?_⟩
    · exact List.forall_mem_map.mpr fun item hitem => (hannounced item hitem).readFrom
    · refine List.forall_mem_map.mpr ?_
      intro result hresult
      refine hE result.2 ?_
      exact (((sublist_flatMap_of_mem hresult).trans hlast).trans
        (List.sublist_append_right _ _)).trans (hinner.trans h)
  · rw [List.flatMap_append, List.flatMap_map, List.flatMap_map]
    refine List.Sublist.trans (List.Sublist.append ?_ hlast) hinner
    refine List.Sublist.flatMap_right d.items ?_
    intro item _
    rw [← item.lead_append_own]
    exact List.sublist_append_right _ _
  · have hnodes : (block d.value).items = d.items.map fun item => item.value.node := by
      simp [BlockTree.value, SyntaxNode.items, Block.items]
    rw [hnodes]
    refine inTurn_of_announced hannounced (horder.sublist (hitems.trans hinner)) ?_
    intro t ht
    exact hspan.start_le horder (hinner.subset (hitems.subset ht))

end

theorem blockPhrase_places
    (hnames : ∀ t ∈ source, Segment.Placed file t.span.start t.span.stop text t.segments)
    (n : Nat) : (blockPhrase n).Places file text source .block := by
  induction n with
  | zero => exact fun d => d.elim
  | succ n ih =>
    exact fun d h => BlockTree.readFrom hsource (typePhrase_places hsource n)
      (exprPhrase_places hsource hnames n).1 ih h

theorem ProgramTree.announced
    (hnames : ∀ t ∈ source, Segment.Placed file t.span.start t.span.stop text t.segments)
    {d : ProgramTree} (h : d.tokens.Sublist source) : ∀ declaration ∈ d.declarations,
      (SyntaxNode.declaration declaration.value).Announced file text source declaration.lead
        declaration.own := by
  intro declaration hmem
  refine declaration.announced hsource (typePhrase_places hsource nestingLimit)
    (blockPhrase_places hsource hnames nestingLimit) ?_
  exact (sublist_flatMap_of_mem hmem).trans h

end

end Grammar

open Grammar in
/-- Every node of the program of a text has its place in the text. The declarations follow
each other, and the program reaches from the first byte to the end of the last token. -/
theorem placed_of_ofTokens {file : Nat} {text : String} {tokens : List Token} {p : Program}
    (hscan : scan file text = .ok tokens) (hparse : Program.ofTokens file tokens = .ok p) :
    (∀ n : SyntaxNode, n.OccursIn p → n.Placed file text.toList (Token.body tokens)) ∧
      SyntaxNode.InTurn 0 (p.declarations.map .declaration) ∧
      p.span = ⟨file, 0, Token.lastStop (Token.body tokens)⟩ ∧
      ∀ d ∈ p.declarations, d.span.stop ≤ p.span.stop := by
  obtain ⟨body, stop, rfl, hkinds, -, horder⟩ := exists_inOrder_of_scan hscan
  have hbody : Token.body (body ++ [.finish file stop]) = body :=
    Token.body_append_cons hkinds rfl []
  have hnames : ∀ t ∈ body,
      Segment.Placed file t.span.start t.span.stop text.toList t.segments :=
    fun t ht => placed_of_scan hscan (List.mem_append_left _ ht)
  obtain ⟨d, htokens, rfl⟩ := ofTokens_eq_ok.mp hparse
  rw [hbody] at htokens ⊢
  subst htokens
  have hannounced := d.announced horder hnames (List.Sublist.refl _)
  have hall : d.declarations.flatMap (fun d => d.lead ++ d.own) = d.tokens := by
    simp only [DeclarationTree.lead_append_own]
    rfl
  refine ⟨?_, ?_, rfl, ?_⟩
  · rintro n ⟨declaration, hmem, hwithin⟩
    obtain ⟨tree, htree, rfl⟩ := List.mem_map.mp hmem
    exact (hannounced tree htree).readFrom.placed n hwithin
  · refine (List.map_map ..).symm ▸ SyntaxNode.inTurn_of_announced hannounced ?_ ?_
    · rw [hall]
      exact horder
    · exact fun t _ => Nat.zero_le _
  · refine List.forall_mem_map.mpr ?_
    intro tree htree
    obtain ⟨u, hu, hstop⟩ := (hannounced tree htree).readFrom.spanned.last
    have hmem : u ∈ d.tokens := by
      refine List.mem_flatMap.mpr ⟨tree, htree, ?_⟩
      rw [← tree.lead_append_own]
      exact List.mem_append_right _ (List.mem_of_mem_getLast? hu)
    obtain ⟨last, hlast⟩ := Option.ne_none_iff_exists'.mp
      (mt List.getLast?_eq_none_iff.mp (List.ne_nil_of_mem hmem))
    have hle := horder.stop_le_last hmem hlast
    simp only [ProgramTree.value, Token.lastStop, hlast]
    exact hstop ▸ hle

/-- A text with a signature, a field that is written twice, a template and a group. -/
def announcedText : String :=
  "type f = \x7ba: T\x7d: U func f = \x7ba\x7d " ++
    "\x7b b = \x7bk: 1, k: `é\x7ba\x7d`\x7d return (b) \x7d "

theorem placed_of_announcedText : ∃ (tokens : List Token) (p : Program),
    scan 0 announcedText = .ok tokens ∧ Program.ofTokens 0 tokens = .ok p ∧
      (∀ n : SyntaxNode, n.OccursIn p → n.Placed 0 announcedText.toList (Token.body tokens)) ∧
      SyntaxNode.InTurn 0 (p.declarations.map .declaration) ∧
      p.declarations.map (·.span) = [⟨0, 19, 69⟩] ∧ p.span = ⟨0, 0, 69⟩ := by
  have hrun : ∃ tokens ∈ (scan 0 announcedText).toOption,
      ∃ p ∈ (Program.ofTokens 0 tokens).toOption,
        p.declarations.map (·.span) = [⟨0, 19, 69⟩] ∧ p.span = ⟨0, 0, 69⟩ := by
    decide +kernel
  obtain ⟨tokens, htokens, p, hp, hspans, hspan⟩ := hrun
  have hscan := eq_ok_of_mem_toOption htokens
  have hparse := eq_ok_of_mem_toOption hp
  obtain ⟨hnodes, hturn, -, -⟩ := placed_of_ofTokens hscan hparse
  exact ⟨tokens, p, hscan, hparse, hnodes, hturn, hspans, hspan⟩

end Scriptwright
