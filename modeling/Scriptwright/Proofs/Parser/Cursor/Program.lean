import Scriptwright.Proofs.Parser.Cursor.Expr

/-!
# Programs at a cursor

What begins with a keyword or a brace is read from behind it on: the cursor looks back for
the place where it begins. It has moved on behind a token of these kinds each time, so there
is something to look back at. The program of tokens is therefore the one that a parser reads
from those before the end of the text, and its faults are the same.
-/

namespace Scriptwright.Cursor

def parameter (signature : Option Signature) : Reader Parameter := do
  let name ← consume .identifier .parameterName
  let type := signature.bind fun s => Record.get? name.lexeme s.parameters.fields
  return ⟨name.lexeme, type, name.span⟩

def checkName (name : String) : Option Signature → Reader Unit
  | none => return
  | some s => if s.name = name then return else raise .signatureNameMismatch s.span

/-- A function, behind its keyword. -/
def function (block : Reader Block) (signature : Option Signature) : Reader Declaration := do
  let start ← previous
  let name ← consume .identifier .functionName
  let _ ← consume .equal .functionEquals
  checkName name.lexeme signature
  let _ ← consume .leftBrace .parametersOpen
  let parameters ← commaList .rightBrace (parameter signature)
  let _ ← consume .rightBrace .parametersClose
  let _ ← consume .leftBrace .bodyOpen
  let body ← block
  return .function name.lexeme parameters (signature.map (·.result)) body
    (start.span.cover body.span)

/-- A type declaration, behind its keyword, and the function that it is a signature of. -/
def typeDeclaration (typeExpr : Reader TypeExpr) (block : Reader Block) :
    Reader Declaration := do
  let start ← previous
  let name ← consume .identifier .typeName
  let _ ← consume .equal .typeEquals
  let definition ← typeExpr
  let span := start.span.cover definition.span
  match definition with
  | .function parameters result _ =>
    if ← matchKind (.keyword .funcWord) then
      function block (some ⟨name.lexeme, parameters, result, span⟩)
    else raise .signatureWithoutFunction span
  | _ => return .typeName name.lexeme definition span

def declaration (typeExpr : Reader TypeExpr) (block : Reader Block) : Reader Declaration := do
  if ← matchKind (.keyword .typeWord) then typeDeclaration typeExpr block
  else if ← matchKind (.keyword .funcWord) then function block none
  else complain (.expected .declaration)

def assignment (expr : Reader Expr) : Reader Assignment := do
  let left ← identifier .assignedName
  let _ ← consume .equal .assignedEquals
  let right ← expr
  return ⟨left, right, left.span.cover right.span⟩

def comparisonKinds : List Kind :=
  [.equalEqual, .notEqual, .greater, .greaterEqual, .less, .lessEqual]

def comparison : Kind → BinaryOp
  | .equalEqual => .eq
  | .notEqual => .notEq
  | .greater => .greater
  | .greaterEqual => .greaterEq
  | .less => .less
  | _ => .lessEq

def condition : Reader Expr := do
  let left ← identifier .conditionName
  if ← checkAny comparisonKinds then
    let op := comparison (← advance).kind
    let right ← term .condition
    return .binary left op right (left.span.cover right.span)
  else complain (.expected .condition)

/-- A branch, behind its keyword. -/
def branch (block : Reader Block) : Reader Statement := do
  let start ← previous
  let condition ← condition
  let _ ← consume .leftBrace .thenOpen
  let thenBlock ← block
  if ← matchKind (.keyword .elseWord) then
    let _ ← consume .leftBrace .elseOpen
    let elseBlock ← block
    return .branch condition thenBlock (some elseBlock) (start.span.cover elseBlock.span)
  return .branch condition thenBlock none (start.span.cover thenBlock.span)

/-- A loop with a condition only, behind its keyword. -/
def whileLoop (expr : Reader Expr) (block : Reader Block) : Reader Statement := do
  let start ← previous
  let condition ← expr
  let _ ← consume .leftBrace .whileOpen
  let body ← block
  return .whileLoop condition body (start.span.cover body.span)

/-- A loop with all three clauses, behind its keyword. -/
def forLoop (expr : Reader Expr) (block : Reader Block) : Reader Statement := do
  let start ← previous
  let initializer ← assignment expr
  let _ ← consume .semicolon .initializerEnd
  let condition ← expr
  let _ ← consume .semicolon .conditionEnd
  let increment ← assignment expr
  let _ ← consume .leftBrace .forOpen
  let body ← block
  return .forLoop (some initializer) (some condition) (some increment) body
    (start.span.cover body.span)

def statement (expr : Reader Expr) (block : Reader Block) : Reader Statement := do
  if ← matchKind (.keyword .ifWord) then branch block
  else if ← matchKind (.keyword .whileWord) then whileLoop expr block
  else if ← matchKind (.keyword .forWord) then forLoop expr block
  else
    let assignment ← assignment expr
    return .assign assignment assignment.span

def item (typeExpr : Reader TypeExpr) (expr : Reader Expr) (block : Reader Block) :
    Reader Item := do
  if ← checkAny [.keyword .typeWord, .keyword .funcWord] then
    return .declaration (← declaration typeExpr block)
  else return .statement (← statement expr block)

def blockRound (item : Reader Item) (items : List Item) : Reader (ForInStep (List Item)) := do
  if ← checkAny [.rightBrace, .keyword .returnWord] then return .done items
  else return .yield ((← item) :: items)

def returned (expr : Reader Expr) : Reader (Option Expr) := do
  if ← matchKind (.keyword .returnWord) then return some (← expr)
  else return none

/-- What follows the items of a block. -/
def blockEnd (expr : Reader Expr) (start : Token) (items : List Item) : Reader Block := do
  let result ← returned expr
  let closing ← consume .rightBrace .blockClose
  return .mk items.reverse result (start.span.cover closing.span)

/-- A block, behind its brace. -/
def blockIn (typeExpr : Reader TypeExpr) (expr : Reader Expr) (block : Reader Block) :
    Reader Block := do
  let start ← previous
  let items ← loop (blockRound (item typeExpr expr block)) []
  blockEnd expr start items

def block : Nat → Reader Block
  | 0 => complain .nestingTooDeep
  | room + 1 => blockIn (typeExpr room) (expr room) (block room)

def programRound (declaration : Reader Declaration) (declarations : List Declaration) :
    Reader (ForInStep (List Declaration)) := do
  if ← isAtEnd then return .done declarations
  else return .yield ((← declaration) :: declarations)

/-- Where the token before the cursor stops; the start of the text at the first token. -/
def stop : Reader Nat := fun s i =>
  if i = 0 then .ok (0, i) else (do return (← previous).span.stop : Reader Nat) s i

def declarations (room : Nat) : Reader (List Declaration) := do
  let declarations ← loop (programRound (declaration (typeExpr room) (block room))) []
  return declarations.reverse

def whole (room : Nat) : Reader (List Declaration × Nat) := do
  let declarations ← declarations room
  return (declarations, ← stop)

/-- The program that a cursor reads from the tokens of a file. -/
def program (file : Nat) (tokens : List Token) : Except Halt Program :=
  match whole nestingLimit ⟨file, tokens⟩ 0 with
  | .error halt => .error halt
  | .ok ((declarations, stop), _) => .ok ⟨declarations, ⟨file, 0, stop⟩⟩

variable {s : Slice} {i : Nat} {t : Token}

theorem follows_previous {α β : Type} {R : α → β → Prop} {p : Token → Reader α} {q : Parser β}
    {input : List Token} (h : s.Behind i t) (hp : Follows R (p t) q s i input) :
    Follows R (previous >>= p) q s i input :=
  hp.of_apply_eq (bind_of_ok h.previous p)

theorem tracks_parameter (signature : Option Signature) :
    Tracks s (parameter signature) (Parser.parameter signature) := by
  intro i hi
  exact (tracks_consume .identifier .parameterName).bind hi fun name j hj _ => follows_pure rfl hj

theorem tracks_checkName (name : String) (signature : Option Signature) :
    Tracks s (checkName name signature) (Parser.checkName name signature) := by
  intro i hi
  cases signature with
  | none => exact follows_pure rfl hi
  | some signature =>
    unfold checkName Parser.checkName
    dsimp only
    split_ifs
    · exact follows_pure rfl hi
    · exact follows_raise _ _

/-- Behind its brace a block is read as by a parser that is given the brace. -/
def TracksBlock (s : Slice) (block : Reader Block) (block' : Token → Parser Block) : Prop :=
  ∀ i t, s.Inside i → s.Behind i t → Follows (· = ·) block (block' t) s i (s.rest i)

section
variable {block : Reader Block} {block' : Token → Parser Block}
  (hblock : TracksBlock s block block')
include hblock

/-- A block behind the brace that has to open it. -/
theorem TracksBlock.bind {α β : Type} {R : α → β → Prop} {f : Block → Reader α}
    {g : Block → Parser β} (what : Expectation) (hi : s.Inside i)
    (hf : ∀ b j, s.Inside j → Follows R (f b) (g b) s j (s.rest j)) :
    Follows R (do let _ ← consume .leftBrace what; let b ← block; f b)
      (do let b ← block' (← Parser.take .leftBrace what); g b) s i (s.rest i) := by
  refine (tracks_consume .leftBrace what).bind hi fun opening j hj hopening => ?_
  exact (hblock j opening hj (behind_of_consume hi hopening)).bind_eq fun b k hk _ => hf b k hk

theorem follows_function (hi : s.Inside i) (ht : s.Behind i t) (signature : Option Signature) :
    Follows (· = ·) (function block signature) (Parser.functionFrom block' signature t) s i
      (s.rest i) := by
  refine follows_previous ht ?_
  refine (tracks_consume .identifier .functionName).bind hi fun name j hj _ => ?_
  refine (tracks_consume .equal .functionEquals).bind hj fun _ k hk _ => ?_
  refine (tracks_checkName name.lexeme signature).bind hk fun _ l hl _ => ?_
  refine (tracks_consume .leftBrace .parametersOpen).bind hl fun _ m hm _ => ?_
  refine (tracks_commaList (tracks_parameter signature) .rightBrace).bind hm
    fun parameters n hn _ => ?_
  refine (tracks_consume .rightBrace .parametersClose).bind hn fun _ o ho _ => ?_
  exact hblock.bind .bodyOpen ho fun body p hp => follows_pure rfl hp

/-- The function that a signature has to stand before. -/
theorem follows_signed (hi : s.Inside i) (signature : Signature) :
    Follows (· = ·)
      (do
        if ← matchKind (.keyword .funcWord) then function block (some signature)
        else raise .signatureWithoutFunction signature.span)
      (do
        if ← Parser.nextIs (.keyword .funcWord) then
          Parser.functionFrom block' (some signature) (← Parser.any .declaration)
        else Parser.failOver .signatureWithoutFunction signature.span) s i (s.rest i) := by
  have hraise : Follows (· = ·) (raise .signatureWithoutFunction signature.span)
      (Parser.failOver .signatureWithoutFunction signature.span : Parser Declaration) s i
      (s.rest i) := follows_raise _ _
  rcases hi.cases with hend | ⟨t, ht⟩
  · refine (hraise.of_apply_eq (hend.matchKind_else _ _ _)).congr ?_
    rw [Parser.run_bind_of_ok (Parser.run_nextIs _ _), hend.rest]
    rfl
  by_cases hk : t.kind = .keyword .funcWord
  · have hfunction := follows_function hblock ht.inside_succ ht.behind (some signature)
    refine (hfunction.of_apply_eq (ht.matchKind_then hk _ _)).congr ?_
    rw [Parser.run_bind_of_ok (Parser.run_nextIs _ _), ht.rest, List.head?_cons, Option.any_some,
      decide_eq_true hk, if_pos rfl, Parser.run_bind_of_ok (Parser.run_any_cons _ _ _)]
  · refine (hraise.of_apply_eq (ht.matchKind_else hk _ _)).congr ?_
    rw [Parser.run_bind_of_ok (Parser.run_nextIs _ _), ht.rest, List.head?_cons, Option.any_some,
      decide_eq_false hk, if_neg Bool.false_ne_true]

variable {typeExpr : Reader TypeExpr} {typeExpr' : Parser TypeExpr}
  (htype : Tracks s typeExpr typeExpr')
include htype

theorem follows_typeDeclaration (hi : s.Inside i) (ht : s.Behind i t) :
    Follows (· = ·) (typeDeclaration typeExpr block) (Parser.typeFrom typeExpr' block' t) s i
      (s.rest i) := by
  refine follows_previous ht ?_
  refine (tracks_consume .identifier .typeName).bind hi fun name j hj _ => ?_
  refine (tracks_consume .equal .typeEquals).bind hj fun _ k hk _ => ?_
  refine htype.bind hk fun definition l hl _ => ?_
  cases definition with
  | function parameters result span => exact follows_signed hblock hl _
  | _ => exact follows_pure rfl hl

theorem follows_declaration (ht : s.Next i t) :
    Follows (· = ·) (declaration typeExpr block) (Parser.declarationFrom typeExpr' block' t) s i
      (s.rest (i + 1)) := by
  unfold declaration Parser.declarationFrom
  split
  case h_1 hk =>
    exact (follows_typeDeclaration hblock htype ht.inside_succ ht.behind).of_apply_eq
      (ht.matchKind_then hk _ _)
  case h_2 hk =>
    refine (follows_function hblock ht.inside_succ ht.behind none).of_apply_eq ?_
    rw [ht.matchKind_else (by simp [hk]), ht.matchKind_then hk]
  case h_3 htype hfunc =>
    refine (follows_refuse ht .declaration).of_apply_eq ?_
    rw [ht.matchKind_else htype, ht.matchKind_else hfunc]

end

theorem tracks_identifier {α β : Type} {R : α → β → Prop} {f : Expr → Reader α}
    {g : Token → Parser β} (what : Expectation) (hi : s.Inside i)
    (hf : ∀ name j, s.Inside j →
      Follows R (f (.identifier name.lexeme name.span)) (g name) s j (s.rest j)) :
    Follows R (identifier what >>= f) (Parser.take .identifier what >>= g) s i (s.rest i) := by
  have hread : Follows (fun e name => e = .identifier name.lexeme name.span) (identifier what)
      (Parser.take .identifier what) s i (s.rest i) :=
    (tracks_consume .identifier what i hi).map fun name _ h => h ▸ rfl
  refine hread.bind ?_
  rintro _ name j rfl hj -
  exact hf name j hj

theorem mem_comparisonKinds (kind : Kind) :
    kind ∈ comparisonKinds ↔ (BinaryOp.ofKind? kind).any Parser.isComparison := by
  cases kind with
  | keyword word => cases word <;> decide
  | _ => decide

theorem ofKind?_of_mem {kind : Kind} (h : kind ∈ comparisonKinds) :
    BinaryOp.ofKind? kind = some (comparison kind) := by
  simp only [comparisonKinds, List.mem_cons, List.not_mem_nil, or_false] at h
  rcases h with rfl | rfl | rfl | rfl | rfl | rfl <;> rfl

theorem tracks_condition : Tracks s condition Parser.condition := by
  intro i hi
  refine tracks_identifier .conditionName hi fun name j hj => ?_
  rcases hj.cases with hend | ⟨t, ht⟩
  · refine follows_any_of_ended hend ?_
    rw [hend.checkAny_else, hend.complain]
  refine follows_any ht ?_
  have hcomparison := mem_comparisonKinds t.kind
  by_cases hk : t.kind ∈ comparisonKinds
  · refine Follows.of_apply_eq ?_ (ht.checkAny_then hk _ _)
    refine follows_advance ht ?_
    rw [ofKind?_of_mem hk, Option.any_some] at hcomparison
    rw [ofKind?_of_mem hk]
    dsimp only
    rw [if_pos (hcomparison.mp hk)]
    refine ((tracks_term .condition).bind ht.inside_succ
      fun right k hk _ => follows_pure rfl hk).congr ?_
    exact (run_bind_assoc _ _ _ _).symm
  · refine Follows.of_apply_eq ?_ (ht.checkAny_else hk _ _)
    split
    · exact follows_refuse ht .condition
    case h_2 op hop =>
      rw [hop, Option.any_some] at hcomparison
      rw [if_neg (mt hcomparison.mpr hk)]
      exact follows_refuse ht .condition

section
variable {block : Reader Block} {block' : Token → Parser Block}
  (hblock : TracksBlock s block block')
variable {expr : Reader Expr} {expr' : Parser Expr} (hexpr : Tracks s expr expr')

include hexpr in
theorem tracks_assignment : Tracks s (assignment expr) (Parser.assignment expr') := by
  intro i hi
  refine tracks_identifier .assignedName hi fun name j hj => ?_
  refine (tracks_consume .equal .assignedEquals).bind hj fun _ k hk _ => ?_
  exact hexpr.bind hk fun right l hl _ => follows_pure rfl hl

include hblock

theorem follows_branch (hi : s.Inside i) (ht : s.Behind i t) :
    Follows (· = ·) (branch block) (Parser.branchFrom block' t) s i (s.rest i) := by
  refine follows_previous ht ?_
  refine tracks_condition.bind hi fun condition j hj _ => ?_
  refine hblock.bind .thenOpen hj fun thenBlock k hk => ?_
  refine (tracks_matchKind (.keyword .elseWord)).bind hk ?_
  rintro (_ | _) l hl -
  · exact follows_pure rfl hl
  · exact hblock.bind .elseOpen hl fun elseBlock m hm => follows_pure rfl hm

include hexpr

theorem follows_whileLoop (hi : s.Inside i) (ht : s.Behind i t) :
    Follows (· = ·) (whileLoop expr block) (Parser.whileFrom expr' block' t) s i (s.rest i) := by
  refine follows_previous ht ?_
  refine hexpr.bind hi fun condition j hj _ => ?_
  exact hblock.bind .whileOpen hj fun body k hk => follows_pure rfl hk

theorem follows_forLoop (hi : s.Inside i) (ht : s.Behind i t) :
    Follows (· = ·) (forLoop expr block) (Parser.forFrom expr' block' t) s i (s.rest i) := by
  refine follows_previous ht ?_
  refine (tracks_assignment hexpr).bind hi fun initializer j hj _ => ?_
  refine (tracks_consume .semicolon .initializerEnd).bind hj fun _ k hk _ => ?_
  refine hexpr.bind hk fun condition l hl _ => ?_
  refine (tracks_consume .semicolon .conditionEnd).bind hl fun _ m hm _ => ?_
  refine (tracks_assignment hexpr).bind hm fun increment n hn _ => ?_
  exact hblock.bind .forOpen hn fun body o ho => follows_pure rfl ho

theorem follows_statement (ht : s.Next i t) :
    Follows (· = ·) (statement expr block) (Parser.statementFrom expr' block' t) s i
      (s.rest (i + 1)) := by
  unfold statement Parser.statementFrom
  split
  case h_1 hk =>
    exact (follows_branch hblock ht.inside_succ ht.behind).of_apply_eq (ht.matchKind_then hk _ _)
  case h_2 hk =>
    refine (follows_whileLoop hblock hexpr ht.inside_succ ht.behind).of_apply_eq ?_
    rw [ht.matchKind_else (by simp [hk]), ht.matchKind_then hk]
  case h_3 hk =>
    refine (follows_forLoop hblock hexpr ht.inside_succ ht.behind).of_apply_eq ?_
    rw [ht.matchKind_else (by simp [hk]), ht.matchKind_else (by simp [hk]), ht.matchKind_then hk]
  case h_4 hk =>
    have hassignment : Follows (· = ·) (assignment expr) (Parser.assignmentFrom expr' t) s i
        (s.rest (i + 1)) := by
      refine (tracks_assignment hexpr i ht.inside).congr ?_
      rw [Parser.assignment, ht.rest, Parser.run_bind_of_ok (Parser.run_take_of_kind hk _ _)]
    have hread : Follows (· = ·) (do let a ← assignment expr; return Statement.assign a a.span)
        (do let a ← Parser.assignmentFrom expr' t; return Statement.assign a a.span) s i
        (s.rest (i + 1)) := hassignment.bind_eq fun a j hj _ => follows_pure rfl hj
    refine hread.of_apply_eq ?_
    rw [ht.matchKind_else (by simp [hk]), ht.matchKind_else (by simp [hk]),
      ht.matchKind_else (by simp [hk])]
  case h_5 hif hwhile hfor hname =>
    refine (follows_refuse ht .assignedName).of_apply_eq ?_
    rw [ht.matchKind_else hif, ht.matchKind_else hwhile, ht.matchKind_else hfor, ht.complain]
    exact bind_of_error (bind_of_error (bind_of_error (ht.consume_of_ne hname _) _) _) _

variable {typeExpr : Reader TypeExpr} {typeExpr' : Parser TypeExpr}
  (htype : Tracks s typeExpr typeExpr')
include htype

theorem follows_item (ht : s.Next i t) :
    Follows (· = ·) (item typeExpr expr block) (Parser.itemFrom typeExpr' expr' block' t) s i
      (s.rest (i + 1)) := by
  unfold item Parser.itemFrom
  have hmem : t.kind ∈ [.keyword .typeWord, .keyword .funcWord] ↔
      t.kind = .keyword .typeWord ∨ t.kind = .keyword .funcWord := by simp
  split_ifs with hk
  · refine Follows.of_apply_eq ?_ (ht.checkAny_then (hmem.mpr hk) _ _)
    exact (follows_declaration hblock htype ht).bind_eq fun d j hj _ => follows_pure rfl hj
  · refine Follows.of_apply_eq ?_ (ht.checkAny_else (mt hmem.mp hk) _ _)
    exact (follows_statement hblock hexpr ht).bind_eq fun d j hj _ => follows_pure rfl hj

omit htype hblock hexpr in
theorem item_of_ended (hend : s.Ended i) :
    item typeExpr expr block s i =
      .error (.report ⟨.expected .assignedName, "end of input", s.finishSpan⟩) := by
  have hassignment : assignment expr s i =
      .error (.report ⟨.expected .assignedName, "end of input", s.finishSpan⟩) :=
    bind_of_error (bind_of_error (hend.consume _ _) _) _
  rw [item, hend.checkAny_else]
  refine bind_of_error ?_ _
  rw [statement, hend.matchKind_else, hend.matchKind_else, hend.matchKind_else,
    bind_of_error hassignment]

end

/-- The value, in front of a token. It fails where the tokens end. -/
def before {α : Type} (what : Expectation) (a : α) : Parser α := fun input =>
  if input.isEmpty then .error (.here (.expected what) input)
  else .ok ⟨a, input, List.suffix_refl input⟩

/-- A parser that takes the token in front of which the value was given. -/
theorem run_before_bind {α β : Type} (p : Parser α) (what : Expectation)
    (g : α → Token → Parser β) (input : List Token) :
    ((p >>= before what) >>= fun a => Parser.any what >>= g a).run input =
      (p >>= fun a => Parser.any what >>= g a).run input := by
  rw [run_bind_assoc, Parser.run_bind, Parser.run_bind]
  cases p.run input with
  | error e => rfl
  | ok r =>
    obtain ⟨a, rest⟩ := r
    cases rest with
    | nil => rfl
    | cons t rest =>
      have hbefore : (before what a).run (t :: rest) = .ok (a, t :: rest) := rfl
      exact Parser.run_bind_of_ok hbefore

/-- What follows the items of a block, behind the token `t`. -/
def blockEndFrom (expr : Parser Expr) (opening : Token) (items : List Item) (t : Token) :
    Parser Block := do
  if t.kind = .keyword .returnWord then
    let result ← expr
    let closing ← Parser.take .rightBrace .blockClose
    return .mk items.reverse (some result) (opening.span.cover closing.span)
  return .mk items.reverse none (opening.span.cover t.span)

/-- Only the first branch of a round ends its loop. -/
theorem eq_of_round_eq_done {α β : Type} {b : Bool} {state next : α} {p : Reader β} {f : β → α}
    {j : Nat} (h : (if b = true then pure (.done state) else do return .yield (f (← p)) :
      Reader (ForInStep α)) s i = .ok (.done next, j)) : b = true ∧ i = j := by
  cases b with
  | true =>
    cases h
    exact ⟨rfl, rfl⟩
  | false =>
    rw [if_neg Bool.false_ne_true] at h
    cases hp : p s i with
    | error e =>
      rw [bind_of_error hp] at h
      cases h
    | ok r =>
      rw [bind_of_ok hp] at h
      cases h

theorem itemStart?_eq_none {t : Token} :
    Parser.itemStart? t = none ↔ t.kind ∈ [.rightBrace, .keyword .returnWord] := by
  unfold Parser.itemStart?
  split_ifs with h
  · simpa using h
  · simpa using h

theorem eq_of_itemStart?_eq_some {t u : Token} (h : Parser.itemStart? t = some u) : u = t := by
  unfold Parser.itemStart? at h
  split_ifs at h
  exact (Option.some.inj h).symm

section
variable {block : Reader Block} {block' : Token → Parser Block}
  (hblock : TracksBlock s block block')
variable {expr : Reader Expr} {expr' : Parser Expr} (hexpr : Tracks s expr expr')
variable {typeExpr : Reader TypeExpr} {typeExpr' : Parser TypeExpr}
  (htype : Tracks s typeExpr typeExpr')

include hexpr in
theorem follows_blockEnd (ht : s.Next i t) (hstop : Parser.itemStart? t = none) (opening : Token)
    (items : List Item) :
    Follows (· = ·) (blockEnd expr opening items) (blockEndFrom expr' opening items t) s i
      (s.rest (i + 1)) := by
  unfold blockEnd blockEndFrom
  split_ifs with hk
  · have hreturned : Follows (fun x e => x = some e) (returned expr) expr' s i
        (s.rest (i + 1)) := by
      refine Follows.of_apply_eq ?_ (ht.matchKind_then hk _ _)
      exact (hexpr (i + 1) ht.inside_succ).map fun e _ h => congrArg some h
    refine hreturned.bind ?_
    rintro _ result j rfl hj -
    exact (tracks_consume .rightBrace .blockClose).bind hj
      fun closing k hk _ => follows_pure rfl hk
  · have hbrace : t.kind = .rightBrace := by
      have hmem := itemStart?_eq_none.mp hstop
      simpa [hk] using hmem
    have hreturned : returned expr s i = .ok (none, i) := ht.matchKind_else hk _ _
    refine (follows_pure rfl ht.inside_succ).of_apply_eq ?_
    rw [bind_of_ok hreturned, bind_of_ok (ht.consume_of_eq hbrace _)]

include hblock hexpr htype

/-- At the end of the text a round fails, where the loop of a parser stops and leaves it to
the parser to fail. -/
theorem tracks_loop_block (items : List Item) :
    Tracks s (loop (blockRound (item typeExpr expr block)) items)
      (Parser.extend Parser.itemStart?
        (fun items t => do return (← Parser.itemFrom typeExpr' expr' block' t) :: items) items >>=
          before .assignedName) := by
  intro i hi
  refine follows_loop ?_ ?_ rfl hi
  · rintro items _ i rfl hi hnone
    unfold Follows
    rcases hi.cases with hend | ⟨t, ht⟩
    · rw [blockRound, hend.checkAny_else, bind_of_error (item_of_ended hend), hend.rest]
      exact .error (.here (.expected .assignedName) [])
    · have hstop : Parser.itemStart? t = none := hnone t (by simp [ht.rest])
      have hbefore : (before .assignedName items).run (s.rest i) = .ok (items, s.rest i) := by
        rw [ht.rest]
        rfl
      rw [blockRound, ht.checkAny_then (itemStart?_eq_none.mp hstop), hbefore]
      exact .ok ⟨items, rfl, rfl⟩ hi
  · rintro items _ i t u rfl ht hsome
    cases eq_of_itemStart?_eq_some hsome
    have hmem : t.kind ∉ [.rightBrace, .keyword .returnWord] := by
      rw [← itemStart?_eq_none, hsome]
      exact Option.some_ne_none t
    refine Follows.of_apply_eq ?_ (ht.checkAny_else hmem _ _)
    exact (follows_item hblock hexpr htype ht).bind_eq
      fun d j hj _ => follows_pure ⟨_, rfl, rfl⟩ hj

omit hblock hexpr htype in
/-- The items of a block end in front of its brace or of what it returns. -/
theorem exists_next_of_loop_block {item : Reader Item} {items rest : List Item} {j : Nat}
    (hj : s.Inside j) (h : loop (blockRound item) items s i = .ok (rest, j)) :
    ∃ t, s.Next j t ∧ Parser.itemStart? t = none := by
  obtain ⟨last, k, hround⟩ := exists_done_of_loop h
  obtain ⟨b, hcheck⟩ : ∃ b, checkAny [.rightBrace, .keyword .returnWord] s k = .ok (b, k) :=
    ⟨_, rfl⟩
  rw [blockRound, bind_of_ok hcheck] at hround
  obtain ⟨rfl, rfl⟩ := eq_of_round_eq_done hround
  rcases hj.cases with hend | ⟨t, ht⟩
  · rw [hend.checkAny] at hcheck
    cases hcheck
  · rw [ht.checkAny] at hcheck
    cases hcontains : [Kind.rightBrace, .keyword .returnWord].contains t.kind with
    | false =>
      rw [hcontains] at hcheck
      cases hcheck
    | true => exact ⟨t, ht, itemStart?_eq_none.mpr (List.contains_iff_mem.mp hcontains)⟩

theorem tracks_blockIn :
    TracksBlock s (blockIn typeExpr expr block) (Parser.blockIn typeExpr' expr' block') := by
  intro i opening hi hopening
  refine follows_previous hopening ?_
  have hread := (tracks_loop_block hblock hexpr htype []).bind hi (R := (· = ·))
    (f := blockEnd expr opening)
    (g := fun items => Parser.any .assignedName >>= blockEndFrom expr' opening items) ?_
  · exact hread.congr (run_before_bind _ _ _ _).symm
  · intro items j hj hloop
    obtain ⟨t, ht, hstop⟩ := exists_next_of_loop_block hj hloop
    exact follows_any ht (follows_blockEnd hexpr ht hstop opening items)

end

theorem tracks_block (room : Nat) : TracksBlock s (block room) (Parser.block room) := by
  induction room with
  | zero => exact fun i t hi _ => follows_complain .nestingTooDeep hi
  | succ room ih => exact tracks_blockIn ih (tracks_expr room) (tracks_typeExpr room)

theorem tracks_declarations (room : Nat) :
    Tracks s (declarations room) (Parser.declarations room) := by
  intro i hi
  refine Follows.bind_eq (follows_loop_pure ?_ ?_ rfl hi) fun ds j hj _ => follows_pure rfl hj
  · intro ds i hi hnone
    rcases hi.cases with hend | ⟨t, ht⟩
    · exact bind_of_ok hend.isAtEnd _
    · cases hnone t (by simp [ht.rest])
  · rintro ds _ i t u rfl ht hsome
    cases hsome
    refine Follows.of_apply_eq ?_ (bind_of_ok ht.isAtEnd _)
    exact (follows_declaration (tracks_block room) (tracks_typeExpr room) ht).bind_eq
      fun d j hj _ => follows_pure ⟨_, rfl, rfl⟩ hj

/-- The declarations go up to the end of the text. -/
theorem ended_of_declarations {room j : Nat} {ds : List Declaration} (hj : s.Inside j)
    (h : declarations room s i = .ok (ds, j)) : s.Ended j := by
  rw [declarations] at h
  cases hloop : loop (programRound (declaration (typeExpr room) (block room))) [] s i with
  | error e =>
    rw [bind_of_error hloop] at h
    cases h
  | ok r =>
    rw [bind_of_ok hloop] at h
    cases h
    obtain ⟨last, k, hround⟩ := exists_done_of_loop hloop
    obtain ⟨b, hend⟩ : ∃ b, isAtEnd s k = .ok (b, k) := ⟨_, rfl⟩
    rw [programRound, bind_of_ok hend] at hround
    obtain ⟨rfl, rfl⟩ := eq_of_round_eq_done hround
    refine hj.cases.resolve_right ?_
    rintro ⟨t, ht⟩
    rw [ht.isAtEnd] at hend
    cases hend

theorem stop_of_ended (h : s.Ended i) :
    stop s i = .ok (Token.lastStop (Token.body s.tokens), i) := by
  have hlength := h.eq_length
  unfold stop Token.lastStop
  rw [List.getLast?_eq_getElem?, ← hlength]
  cases i with
  | zero =>
    rw [List.getElem?_eq_none (Nat.le_of_eq hlength.symm)]
    rfl
  | succ k =>
    have hk : k < (Token.body s.tokens).length := hlength ▸ Nat.lt_succ_self k
    have hget := List.getElem?_eq_getElem hk
    have hprevious := (Slice.next_of_getElem? hget).behind.previous
    rw [if_neg (Nat.succ_ne_zero k), bind_of_ok hprevious, Nat.add_sub_cancel, hget]
    rfl

/-- What is read of a program and where it stops, or the report of why it is none. -/
theorem whole_eq (s : Slice) (room : Nat) :
    whole room s 0 =
      match (Parser.declarations room).run (Token.body s.tokens) with
      | .error e => .error (.report (.ofFailure s.finishSpan e))
      | .ok (ds, _) =>
        .ok ((ds, Token.lastStop (Token.body s.tokens)), (Token.body s.tokens).length) := by
  have hread := tracks_declarations room 0 (Nat.zero_le _ : s.Inside 0)
  unfold Follows at hread
  have hrest : s.rest 0 = Token.body s.tokens := List.drop_zero
  rw [hrest] at hread
  generalize hx : declarations room s 0 = x at hread
  generalize (Parser.declarations room).run (Token.body s.tokens) = y at hread
  cases hread with
  | error e => exact bind_of_error hx _
  | @ok ds _ j hds hj =>
    cases hds
    have hend := ended_of_declarations hj hx
    rw [whole, bind_of_ok hx, bind_of_ok (stop_of_ended hend), ← hend.eq_length]
    rfl

end Scriptwright.Cursor
