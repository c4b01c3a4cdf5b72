import Scriptwright.Proofs.Grammar.Spans

/-!
# Chains of operands

A chain is read from the left. From its third operand on each has to be a group, which is an
expression in parentheses with no call and no access behind it. The first operand that is no
group ends the reading, and the fault reaches from the start of the chain to the end of that
operand. Neither the operators nor the tokens behind the operand have a part in this, and
groups at the first two places do not help.
-/

namespace Scriptwright.Grammar
open Scriptwright.Parser

/-- The parser of the operands of a chain, with at most `room` levels inside of each. -/
def chainOperand (room : Nat) : Parser Operand :=
  operandIn (Parser.expr room) (Parser.operand room)

/-- An operand together with the tokens that it is read from. -/
structure Reading where
  tokens : List Token
  operand : Operand

/-- The parser reads the operand and stops in front of the rest. -/
def Reading.By (p : Parser Operand) (rest : List Token) (r : Reading) : Prop :=
  p.run (r.tokens ++ rest) = .ok (r.operand, rest)

/-- An operator and the operand behind it. -/
structure Link where
  sign : Sign BinaryOp.ofKind?
  right : Reading

def Link.tokens (link : Link) : List Token := link.sign.token :: link.right.tokens

def Link.join (left : Expr) (link : Link) : Expr :=
  Grammar.join left link.sign.op link.right.operand.expr

/-- The parser reads an operand and those of the links, one after the other. -/
def ReadInTurn (p : Parser Operand) (first : Reading) (links : List Link) (rest : List Token) :
    Prop :=
  match links with
  | [] => first.By p rest
  | link :: more =>
    first.By p (link.tokens ++ (more.flatMap Link.tokens ++ rest)) ∧
      ReadInTurn p link.right more rest

/-- The tokens are an expression of at most `room` levels in parentheses. -/
def IsGroup (room : Nat) (ts : List Token) : Prop :=
  ∃ (opening closing : Token) (inner : List Token) (e : Expr),
    ts = opening :: (inner ++ [closing]) ∧ opening.kind = .leftParen ∧
      closing.kind = .rightParen ∧
      run (Parser.expr room) (inner ++ [closing]) = .ok (e, [closing])

section
variable {room : Nat}

/-- The operand of a tree, with its tokens. -/
def OperandTree.reading {E : Phrase Expr} {O : Phrase Operand} (d : OperandTree E O) : Reading :=
  ⟨d.tokens, d.value⟩

/-- The reading of some tree. -/
def Reading.IsOperand (room : Nat) (r : Reading) : Prop :=
  ∃ d : OperandTree (exprPhrase room) (operandPhrase room), r = d.reading

theorem chainOperand_reads (room : Nat) :
    Reads (chainOperand room) (@OperandTree.tokens (exprPhrase room) (operandPhrase room))
      OperandTree.value operandContinues :=
  (expr_operand_reads (room + 1)).2.1

theorem Reading.By.isOperand {r : Reading} {rest : List Token}
    (h : r.By (chainOperand room) rest) : r.IsOperand room := by
  obtain ⟨d, htokens, hvalue⟩ := (chainOperand_reads room).sound h
  have htokens := List.append_cancel_right htokens
  refine ⟨d, ?_⟩
  rw [OperandTree.reading, ← htokens, ← hvalue]

theorem Reading.By.ends {r : Reading} {rest : List Token}
    (h : r.By (chainOperand room) rest) : Ends operandContinues rest :=
  operandIn_ends (expr_reads room) h

theorem Reading.IsOperand.by {r : Reading} (h : r.IsOperand room) {rest : List Token}
    (hends : Ends operandContinues rest) : r.By (chainOperand room) rest := by
  obtain ⟨d, rfl⟩ := h
  exact (chainOperand_reads room).complete d hends

/-- The flag of an operand says whether its tokens are a group. -/
theorem Reading.IsOperand.isGroup_iff {r : Reading} (h : r.IsOperand room) :
    IsGroup room r.tokens ↔ r.operand.parenthesized = true := by
  constructor
  · rintro ⟨opening, closing, inner, e, htokens, hopening, hclosing, hrun⟩
    obtain ⟨tree, hinner, -⟩ := (expr_reads room).sound hrun
    have hinner := List.append_cancel_right hinner
    let group : OperandTree (exprPhrase room) (operandPhrase room) :=
      .plain (.group ⟨⟨opening, hopening⟩, tree, ⟨closing, hclosing⟩⟩) []
    have hgroup : group.tokens = r.tokens := by
      rw [htokens, hinner]
      exact List.append_nil _
    -- A parser has one result, and the group is read from the same tokens.
    have hboth := (h.by (ends_nil _)).symm.trans
      (hgroup ▸ (chainOperand_reads room).complete group (ends_nil _))
    cases r with
    | mk tokens operand =>
      cases hboth
      rfl
  · obtain ⟨d, rfl⟩ := h
    intro hflag
    obtain ⟨group, rfl⟩ := OperandTree.exists_group hflag
    refine ⟨group.opening.val, group.closing.val, (exprPhrase room).tokens group.inner,
      (exprPhrase room).value group.inner, List.append_nil _, group.opening.property,
      group.closing.property, ?_⟩
    refine (expr_reads room).complete group.inner ?_
    rw [ends_cons, group.closing.property]
    rfl

theorem ReadInTurn.isOperand {first : Reading} {links : List Link} {rest : List Token}
    (h : ReadInTurn (chainOperand room) first links rest) :
    first.IsOperand room ∧ (∀ link ∈ links, link.right.IsOperand room) ∧
      Ends operandContinues rest := by
  induction links generalizing first with
  | nil => exact ⟨Reading.By.isOperand h, List.forall_mem_nil _, Reading.By.ends h⟩
  | cons link more ih =>
    obtain ⟨hright, hmore, hends⟩ := ih h.2
    exact ⟨h.1.isOperand, List.forall_mem_cons.mpr ⟨hright, hmore⟩, hends⟩

/-- What is left of a chain, behind the operands that are joined to `left` already. The flag
says whether there are two of these. -/
def chainLoop (room : Nat) (left : Expr × Bool) : Parser (Expr × Bool) :=
  extend (fun t => BinaryOp.ofKind? t.kind) (joinOperand (chainOperand room)) left

theorem ends_link_tokens (link : Link) (rest : List Token) :
    Ends operandContinues (link.tokens ++ rest) := by
  rw [Link.tokens, List.cons_append, ends_cons]
  exact operandContinues_of_sign link.sign

/-- One round of the loop. -/
theorem run_chainLoop_link (left : Expr × Bool) {link : Link} (hlink : link.right.IsOperand room)
    {rest : List Token} (hends : Ends operandContinues rest) :
    (chainLoop room left).run (link.tokens ++ rest) =
      if left.2 && !link.right.operand.parenthesized then
        .error (.over .ambiguousChain (link.join left.1).span)
      else (chainLoop room (link.join left.1, true)).run rest := by
  have hjoin : (joinOperand (chainOperand room) left link.sign.op).run
      (link.right.tokens ++ rest) =
        if left.2 && !link.right.operand.parenthesized then
          .error (.over .ambiguousChain (link.join left.1).span)
        else .ok ((link.join left.1, true), rest) := by
    rw [joinOperand, run_bind_of_ok (hlink.by hends)]
    dsimp only
    split_ifs with hguard
    · rfl
    · rfl
  rw [chainLoop, Link.tokens, List.cons_append, run_extend_of_some link.sign.spells, hjoin]
  split_ifs with hguard
  · rfl
  · rfl

/-- The loop passes over groups. -/
theorem run_chainLoop_groups {links : List Link}
    (hlinks : ∀ link ∈ links, link.right.IsOperand room)
    (hgroups : ∀ link ∈ links, IsGroup room link.right.tokens) (left : Expr) {rest : List Token}
    (hends : Ends operandContinues rest) :
    (chainLoop room (left, true)).run (links.flatMap Link.tokens ++ rest) =
      (chainLoop room (links.foldl Link.join left, true)).run rest := by
  induction links generalizing left with
  | nil => rfl
  | cons link more ih =>
    obtain ⟨hlink, hmore⟩ := List.forall_mem_cons.mp hlinks
    obtain ⟨hgroup, hgroups⟩ := List.forall_mem_cons.mp hgroups
    have hnext := ends_flatMap ends_link_tokens more hends
    rw [List.flatMap_cons, List.append_assoc, run_chainLoop_link _ hlink hnext,
      hlink.isGroup_iff.mp hgroup]
    exact ih hmore hgroups (link.join left)

/-- The loop passes over a chain whose operands from the third on are groups. The second
operand is joined to the first whatever it is. -/
theorem run_chainLoop_links {link : Link} {more : List Link}
    (hlinks : ∀ l ∈ link :: more, l.right.IsOperand room)
    (hgroups : ∀ l ∈ more, IsGroup room l.right.tokens) (first : Expr) {rest : List Token}
    (hends : Ends operandContinues rest) :
    (chainLoop room (first, false)).run ((link :: more).flatMap Link.tokens ++ rest) =
      (chainLoop room ((link :: more).foldl Link.join first, true)).run rest := by
  obtain ⟨hlink, hmore⟩ := List.forall_mem_cons.mp hlinks
  have hnext := ends_flatMap ends_link_tokens more hends
  rw [List.flatMap_cons, List.append_assoc, run_chainLoop_link _ hlink hnext]
  exact run_chainLoop_groups hmore hgroups _ hends

/-- The span from the first of some operands to the last. -/
def coverReadings (first : Span) (rights : List Reading) : Span :=
  rights.foldl (fun s r => s.cover r.operand.expr.span) first

theorem span_foldl_join (links : List Link) (left : Expr) :
    (links.foldl Link.join left).span = coverReadings left.span (links.map Link.right) := by
  induction links generalizing left with
  | nil => rfl
  | cons link more ih => exact ih (link.join left)

theorem Reading.IsOperand.over {file : Nat} {r : Reading} (h : r.IsOperand room)
    (horder : Token.InOrder file r.tokens) : r.operand.expr.span.Over file r.tokens := by
  obtain ⟨d, rfl⟩ := h
  exact d.over (operandPhrase_over room) horder

theorem coverReadings_over {file : Nat} {links : List Link}
    (hlinks : ∀ link ∈ links, link.right.IsOperand room) {first : Span} {read : List Token}
    (hfirst : first.Over file read)
    (h : Token.InOrder file (read ++ links.flatMap Link.tokens)) :
    (coverReadings first (links.map Link.right)).Over file
      (read ++ links.flatMap Link.tokens) := by
  induction links generalizing first read with
  | nil =>
    rw [List.flatMap_nil, List.append_nil]
    exact hfirst
  | cons link more ih =>
    obtain ⟨hlink, hmore⟩ := List.forall_mem_cons.mp hlinks
    rw [List.flatMap_cons, ← List.append_assoc] at h ⊢
    have horder : Token.InOrder file (read ++ link.tokens) :=
      h.sublist (List.sublist_append_left _ _)
    have hright := hlink.over (horder.sublist
      ((List.sublist_cons_self _ _).trans (List.sublist_append_right _ _)))
    exact ih hmore (hfirst.cover hright [link.sign.token] horder) h

theorem run_chainFrom_eq (room : Nat) (first : Operand) (input : List Token) :
    (chainFrom (chainOperand room) first).run input =
      match (chainLoop room (first.expr, false)).run input with
      | .error e => .error e
      | .ok r => .ok (r.1.1, r.2) := by
  have hbind := run_bind (chainLoop room (first.expr, false)) (fun chain => pure chain.1) input
  cases hloop : (chainLoop room (first.expr, false)).run input with
  | error e =>
    rw [hloop] at hbind
    exact hbind
  | ok r =>
    rw [hloop] at hbind
    exact hbind

/-- A chain fails at its first operand, from the third on, that is no group. -/
theorem run_chainFrom_ambiguous {before : List Link} {bad : Link} (hbefore : before ≠ [])
    (hlinks : ∀ link ∈ before ++ [bad], link.right.IsOperand room)
    (hgroups : ∀ link ∈ before.tail, IsGroup room link.right.tokens)
    (hbad : ¬ IsGroup room bad.right.tokens) (first : Operand) {rest : List Token}
    (hends : Ends operandContinues rest) :
    (chainFrom (chainOperand room) first).run ((before ++ [bad]).flatMap Link.tokens ++ rest) =
      .error (.over .ambiguousChain
        (coverReadings first.expr.span ((before ++ [bad]).map Link.right))) := by
  obtain ⟨hlinks, hlink⟩ := List.forall_mem_append.mp hlinks
  have hlink := hlink bad (List.mem_singleton.mpr rfl)
  have hflag : bad.right.operand.parenthesized = false :=
    Bool.eq_false_iff.mpr (mt hlink.isGroup_iff.mpr hbad)
  cases before with
  | nil => exact absurd rfl hbefore
  | cons link more =>
    rw [run_chainFrom_eq, List.flatMap_append, List.append_assoc, List.flatMap_singleton,
      run_chainLoop_links hlinks hgroups _ (ends_link_tokens bad rest),
      run_chainLoop_link _ hlink hends, ← span_foldl_join, List.foldl_append, hflag]
    rfl

/-- The operators have no part in the fault. -/
theorem run_chainFrom_ambiguous_of_map {before others : List Link} {bad : Link}
    (hbefore : before ≠ []) (hlinks : ∀ link ∈ before ++ [bad], link.right.IsOperand room)
    (hgroups : ∀ link ∈ before.tail, IsGroup room link.right.tokens)
    (hbad : ¬ IsGroup room bad.right.tokens) (first : Operand)
    (hothers : others.map Link.right = (before ++ [bad]).map Link.right) {rest : List Token}
    (hends : Ends operandContinues rest) :
    (chainFrom (chainOperand room) first).run (others.flatMap Link.tokens ++ rest) =
      .error (.over .ambiguousChain
        (coverReadings first.expr.span ((before ++ [bad]).map Link.right))) := by
  obtain ⟨before', last, rfl, hmap, hlast⟩ := List.map_eq_append_iff.mp
    (hothers.trans List.map_append)
  obtain ⟨bad', rfl, hbad'⟩ := List.map_eq_singleton_iff.mp hlast
  rw [← hothers]
  refine run_chainFrom_ambiguous ?_ ?_ ?_ ?_ first hends
  · rintro rfl
    exact hbefore (List.map_eq_nil_iff.mp hmap.symm)
  · intro link hlink
    obtain ⟨same, hsame, heq⟩ := List.mem_map.mp (hothers ▸ List.mem_map_of_mem hlink)
    rw [← heq]
    exact hlinks same hsame
  · intro link hlink
    have htail : before'.tail.map Link.right = before.tail.map Link.right := by
      rw [List.map_tail, List.map_tail, hmap]
    obtain ⟨same, hsame, heq⟩ := List.mem_map.mp (htail ▸ List.mem_map_of_mem hlink)
    rw [← heq]
    exact hgroups same hsame
  · rw [hbad']
    exact hbad

/-- The first operand from the third on that is no group. -/
theorem exists_first_bare {links : List Link} (hlinks : ∀ link ∈ links, link.right.IsOperand room)
    (h : ¬ ∀ link ∈ links.tail, IsGroup room link.right.tokens) :
    ∃ before bad after, links = before ++ bad :: after ∧ before ≠ [] ∧
      (∀ link ∈ before.tail, IsGroup room link.right.tokens) ∧
      ¬ IsGroup room bad.right.tokens := by
  cases links with
  | nil => exact absurd (List.forall_mem_nil _) h
  | cons link more =>
    have hmore := (List.forall_mem_cons.mp hlinks).2
    cases hfind : more.find? (fun link => !link.right.operand.parenthesized) with
    | none =>
      refine absurd ?_ h
      intro other hother
      have hflag := List.find?_eq_none.mp hfind other hother
      exact (hmore other hother).isGroup_iff.mpr (by simpa using hflag)
    | some bad =>
      obtain ⟨hflag, before, after, rfl, hbefore⟩ := List.find?_eq_some_iff_append.mp hfind
      refine ⟨link :: before, bad, after, rfl, List.cons_ne_nil _ _, ?_, ?_⟩
      · intro other hother
        have hgroup := hbefore other hother
        exact (hmore other (List.mem_append_left _ hother)).isGroup_iff.mpr (by simpa using hgroup)
      · rw [(hmore bad (List.mem_append_right _ List.mem_cons_self)).isGroup_iff]
        simpa using hflag

end

/-- A chain whose operands are read one after the other is the tree that joins them from the
left, if those from the third on are groups. Otherwise the first of these that is no group
is at fault, and the span goes from the start of the chain to the end of that operand. Other
operators give the same fault, and so do other tokens behind the operand, as long as they
do not go on with it. -/
theorem run_chainFrom_of_readInTurn {room : Nat} {first : Reading} {links : List Link}
    {rest : List Token} (h : ReadInTurn (chainOperand room) first links rest) :
    ((∀ link ∈ links.tail, IsGroup room link.right.tokens) →
        (∀ t ∈ rest.head?, BinaryOp.ofKind? t.kind = none) →
        (chainFrom (chainOperand room) first.operand).run (links.flatMap Link.tokens ++ rest) =
          .ok (links.foldl Link.join first.operand.expr, rest)) ∧
      ((¬ ∀ link ∈ links.tail, IsGroup room link.right.tokens) →
        ∃ (before after : List Link) (bad : Link) (span : Span),
          links = before ++ bad :: after ∧ before ≠ [] ∧
          (∀ link ∈ before.tail, IsGroup room link.right.tokens) ∧
          ¬ IsGroup room bad.right.tokens ∧
          (chainFrom (chainOperand room) first.operand).run
            (links.flatMap Link.tokens ++ rest) = .error (.over .ambiguousChain span) ∧
          SyntaxFault.ambiguousChain.code = "E0101" ∧
          (∀ file, Token.InOrder file (first.tokens ++ links.flatMap Link.tokens) →
            span = ⟨file, first.operand.expr.span.start, bad.right.operand.expr.span.stop⟩ ∧
            span.Over file (first.tokens ++ (before ++ [bad]).flatMap Link.tokens)) ∧
          ∀ (others : List Link) (rest' : List Token),
            others.map Link.right = (before ++ [bad]).map Link.right →
            (∀ t ∈ rest'.head?, Trailer.ofKind? t.kind = none) →
            (chainFrom (chainOperand room) first.operand).run
              (others.flatMap Link.tokens ++ rest') = .error (.over .ambiguousChain span)) := by
  obtain ⟨hfirst, hlinks, hends⟩ := h.isOperand
  constructor
  · intro hgroups hstop
    have hlast : ∀ left, (chainLoop room left).run rest = .ok (left, rest) :=
      fun left => run_extend_of_none hstop _ left
    rw [run_chainFrom_eq]
    cases links with
    | nil =>
      rw [List.flatMap_nil, List.nil_append, hlast]
      rfl
    | cons link more =>
      rw [run_chainLoop_links hlinks hgroups _ hends, hlast]
  · intro hgroups
    obtain ⟨before, bad, after, rfl, hbefore, hgroups, hbad⟩ := exists_first_bare hlinks hgroups
    rw [List.append_cons] at hlinks
    obtain ⟨hlinks, hafter⟩ := List.forall_mem_append.mp hlinks
    have hright := hlinks bad (List.mem_append_right _ (List.mem_singleton.mpr rfl))
    refine ⟨before, after, bad, coverReadings first.operand.expr.span
      ((before ++ [bad]).map Link.right), rfl, hbefore, hgroups, hbad, ?_, rfl, ?_, ?_⟩
    · rw [List.append_cons, List.flatMap_append, List.append_assoc]
      exact run_chainFrom_ambiguous hbefore hlinks hgroups hbad first.operand
        (ends_flatMap ends_link_tokens after hends)
    · intro file horder
      rw [List.append_cons, List.flatMap_append, ← List.append_assoc] at horder
      have horder := horder.sublist (List.sublist_append_left _ _)
      have hstart := hfirst.over (horder.sublist (List.sublist_append_left _ _))
      have hover := coverReadings_over hlinks hstart horder
      have htokens : first.tokens ++ (before ++ [bad]).flatMap Link.tokens =
          (first.tokens ++ before.flatMap Link.tokens ++ [bad.sign.token]) ++ bad.right.tokens := by
        simp [Link.tokens]
      have hstop := hright.over (horder.sublist (htokens ▸ List.sublist_append_right _ _))
      have hend : (coverReadings first.operand.expr.span ((before ++ [bad]).map Link.right)).stop =
          bad.right.operand.expr.span.stop := by
        rw [htokens] at hover
        exact hover.stop_eq hstop
      refine ⟨?_, hover⟩
      rw [← hover.file, ← hover.start_eq hstart, ← hend]
    · intro others rest' hothers hends'
      exact run_chainFrom_ambiguous_of_map hbefore hlinks hgroups hbad first.operand hothers
        (ends_operand hends')

/-- The tree of `(name)`, written from the given byte on. -/
def nameGroup (name : String) (start : Nat) :
    OperandTree (exprPhrase 1) (operandPhrase 1) :=
  .plain (.group ⟨⟨⟨.leftParen, "(", .none, ⟨0, start, start + 1⟩⟩, rfl⟩,
    (.single (.plain
        (.term ⟨⟨.identifier, name, .none, ⟨0, start + 1, start + 2⟩⟩, _, rfl⟩) []) rfl :
      ExprTree (exprPhrase 0) (operandPhrase 0)),
    ⟨⟨.rightParen, ")", .none, ⟨0, start + 2, start + 3⟩⟩, rfl⟩⟩) []

/-- The links of `(a) + (b) - c` behind its first operand. -/
def bareThird : List Link :=
  [⟨⟨⟨.plus, "+", .none, ⟨0, 4, 5⟩⟩, .add, rfl⟩, (nameGroup "b" 6).reading⟩,
    ⟨⟨⟨.minus, "-", .none, ⟨0, 10, 11⟩⟩, .sub, rfl⟩,
      (OperandTree.plain (.term ⟨⟨.identifier, "c", .none, ⟨0, 12, 13⟩⟩, _, rfl⟩) [] :
        OperandTree (exprPhrase 1) (operandPhrase 1)).reading⟩]

theorem run_chainFrom_bareThird :
    ReadInTurn (chainOperand 1) (nameGroup "a" 0).reading bareThird [] ∧
      (chainFrom (chainOperand 1) (nameGroup "a" 0).reading.operand).run
        (bareThird.flatMap Link.tokens) = .error (.over .ambiguousChain ⟨0, 0, 13⟩) := by
  have hreads := chainOperand_reads 1
  have hturn : ReadInTurn (chainOperand 1) (nameGroup "a" 0).reading bareThird [] :=
    ⟨hreads.complete (nameGroup "a" 0) (ends_link_tokens _ _),
      hreads.complete (nameGroup "b" 6) (ends_link_tokens _ _),
      hreads.complete (.plain (.term ⟨_, _, rfl⟩) []) (ends_nil _)⟩
  have hbare : ¬ ∀ link ∈ bareThird.tail, IsGroup 1 link.right.tokens := by
    intro hgroups
    obtain ⟨opening, closing, inner, e, htokens, -⟩ := hgroups _ List.mem_cons_self
    have hlength := congrArg List.length htokens
    simp [OperandTree.reading, OperandTree.tokens, HeadTree.tokens] at hlength
  obtain ⟨before, after, bad, span, hlinks, hbefore, -, -, hrun, -, hspan, -⟩ :=
    (run_chainFrom_of_readInTurn hturn).2 hbare
  have horder : Token.InOrder 0
      ((nameGroup "a" 0).reading.tokens ++ bareThird.flatMap Link.tokens) :=
    ⟨by decide, by decide, by decide⟩
  refine ⟨hturn, ?_⟩
  rw [List.append_nil] at hrun
  rw [hrun, (hspan 0 horder).1]
  -- The third operand is the only one that can be at fault.
  cases before with
  | nil => exact absurd rfl hbefore
  | cons link more =>
    obtain ⟨-, hthird⟩ := List.cons.inj hlinks
    obtain ⟨rfl, hbad⟩ | ⟨-, hnil⟩ := List.append_eq_singleton_iff.mp hthird.symm
    · cases hbad
      rfl
    · cases hnil

end Scriptwright.Grammar
