import Scriptwright.Parser.Program
import Scriptwright.Proofs.Record

/-!
# Derivation trees

The grammar of the language, given by its derivation trees. A phrase is a kind of
tree together with the tokens at its leaves and the node that the tree stands for.
Each production is a constructor or a structure below, its terminals are tokens of
a fixed kind, and whatever a production demands besides is part of its type:

* a template, an array or an object at the front of an expression is all of it;
* an operator with one operand applies to an operand with all its trailers;
* in a chain each operand after the second is a group without trailers;
* the condition of a branch compares a name with a name or a literal;
* a function type on its own declares nothing: it has to be followed by the
  function that it is the signature of, which has the same name;
* blocks, expressions, type expressions and operators with one operand stand in
  each other no deeper than the nesting limit.

The last point is the number that the recursive phrases carry. A phrase with `n`
levels left is built from phrases with one level less, and there is no tree of a
phrase that has no level left.
-/

namespace Scriptwright.Grammar

/-- A kind of derivation tree, the tokens that a tree derives and what it denotes. -/
structure Phrase (α : Type) where
  Tree : Type
  tokens : Tree → List Token
  value : Tree → α

/-- The phrase without derivations. -/
def Phrase.none (α : Type) : Phrase α := ⟨Empty, nofun, nofun⟩

/-- A leaf of a derivation. -/
abbrev Terminal (kind : Kind) : Type := { t : Token // t.kind = kind }

/-- A token that stands for an operator of a table. -/
structure Sign {ω : Type} (table : Kind → Option ω) where
  token : Token
  op : ω
  spells : table token.kind = some op

/-- `(item ("," item)*)?` -/
inductive CommaList (α : Type) where
  | none
  | some (first : α) (more : List (Terminal .comma × α))

namespace CommaList
variable {α : Type}

def items : CommaList α → List α
  | none => []
  | some first more => first :: more.map (·.2)

/-- A further item behind its comma. -/
def moreTokens (tokens : α → List Token) (item : Terminal .comma × α) : List Token :=
  item.1.val :: tokens item.2

def tokens (tokens : α → List Token) : CommaList α → List Token
  | none => []
  | some first more => tokens first ++ more.flatMap (moreTokens tokens)

end CommaList

section TypeExpressions
variable (T : Phrase TypeExpr)

/-- `IDENT ":" type` -/
structure PropertyTree where
  name : Terminal .identifier
  colon : Terminal .colon
  type : T.Tree

/-- `"{" (property ("," property)*)? "}"` -/
structure ShapeTree where
  opening : Terminal .leftBrace
  properties : CommaList (PropertyTree T)
  closing : Terminal .rightBrace

/-- `"[]" type | shape (":" type)? | IDENT` -/
inductive TypeTree where
  | array (brackets : Terminal .emptyBrackets) (element : T.Tree)
  | interface (shape : ShapeTree T)
  | function (parameters : ShapeTree T) (colon : Terminal .colon) (result : T.Tree)
  | simple (name : Terminal .identifier)

end TypeExpressions

section
variable {T : Phrase TypeExpr}

def PropertyTree.tokens (d : PropertyTree T) : List Token :=
  d.name.val :: d.colon.val :: T.tokens d.type

def PropertyTree.value (d : PropertyTree T) : String × TypeExpr :=
  (d.name.val.lexeme, T.value d.type)

def ShapeTree.tokens (d : ShapeTree T) : List Token :=
  d.opening.val :: (d.properties.tokens PropertyTree.tokens ++ [d.closing.val])

def ShapeTree.value (d : ShapeTree T) : Interface :=
  .mk (Record.merged (d.properties.items.map PropertyTree.value))
    (d.opening.val.span.cover d.closing.val.span)

def TypeTree.tokens : TypeTree T → List Token
  | array brackets element => brackets.val :: T.tokens element
  | interface shape => shape.tokens
  | function parameters colon result => parameters.tokens ++ colon.val :: T.tokens result
  | simple name => [name.val]

def TypeTree.value : TypeTree T → TypeExpr
  | array brackets element =>
    .array (T.value element) (brackets.val.span.cover (T.value element).span)
  | interface shape => .interface shape.value
  | function parameters _ result =>
    .function parameters.value (T.value result)
      (parameters.opening.val.span.cover (T.value result).span)
  | simple name => .simple name.val.lexeme name.val.span

end

/-- Type expressions of at most the given number of levels. -/
def typePhrase : Nat → Phrase TypeExpr
  | 0 => .none TypeExpr
  | n + 1 => ⟨TypeTree (typePhrase n), TypeTree.tokens, TypeTree.value⟩

/-- The name or literal that a token is by itself. Number and text tokens have to
carry a number and a text. -/
def term? (t : Token) : Option Expr :=
  match t.kind, t.value with
  | .identifier, _ => some (.identifier t.lexeme t.span)
  | .number, .number value => some (.number value t.span)
  | .text, .text content => some (.text content t.span)
  | .keyword .trueWord, _ => some (.boolean true t.span)
  | .keyword .falseWord, _ => some (.boolean false t.span)
  | .keyword .nilWord, _ => some (.nil t.span)
  | _, _ => none

/-- `literal | IDENT` -/
structure TermTree where
  token : Token
  value : Expr
  denotes : term? token = some value

section Expressions
variable (E : Phrase Expr) (O : Phrase Operand)

/-- `IDENT (":" expression)?` -/
inductive FieldTree where
  | named (name : Terminal .identifier) (colon : Terminal .colon) (value : E.Tree)
  | shorthand (name : Terminal .identifier)

/-- `"{" (field ("," field)*)? "}"` -/
structure ObjectTree where
  opening : Terminal .leftBrace
  fields : CommaList (FieldTree E)
  closing : Terminal .rightBrace

/-- `"(" expression ")"` -/
structure GroupTree where
  opening : Terminal .leftParen
  inner : E.Tree
  closing : Terminal .rightParen

/-- What an operand begins with, unless that is an operator. -/
inductive HeadTree where
  | group (d : GroupTree E)
  | object (d : ObjectTree E)
  | term (d : TermTree)

/-- `"(" (expression ("," expression)*)? ")" | "[" expression "]" | "." IDENT` -/
inductive TrailerTree where
  | call (opening : Terminal .leftParen) (arguments : CommaList E.Tree)
      (closing : Terminal .rightParen)
  | index (opening : Terminal .leftBracket) (inner : E.Tree) (closing : Terminal .rightBracket)
  | member (dot : Terminal .dot) (name : Terminal .identifier)

/-- `("-" | "!") operand | head trailer*` -/
inductive OperandTree where
  | unary (sign : Sign UnaryOp.ofKind?) (argument : O.Tree)
  | plain (head : HeadTree E) (trailers : List (TrailerTree E))

/-- Whether an operand begins with the brace of an object. -/
def OperandTree.beginsWithObject {E : Phrase Expr} {O : Phrase Operand} : OperandTree E O → Bool
  | plain (.object _) _ => true
  | _ => false

/-- `template | "[]" | "[" (expression ("," expression)*)? "]" | object |
operand (operator operand (operator group)*)?` -/
inductive ExprTree where
  | template (token : Terminal .template)
  | emptyArray (brackets : Terminal .emptyBrackets)
  | array (opening : Terminal .leftBracket) (elements : CommaList E.Tree)
      (closing : Terminal .rightBracket)
  | object (d : ObjectTree E)
  | single (first : OperandTree E O) (bare : first.beginsWithObject = false)
  | chain (first : OperandTree E O) (bare : first.beginsWithObject = false)
      (sign : Sign BinaryOp.ofKind?) (second : OperandTree E O)
      (more : List (Sign BinaryOp.ofKind? × GroupTree E))

end Expressions

section
variable {E : Phrase Expr} {O : Phrase Operand}

def FieldTree.tokens : FieldTree E → List Token
  | named name colon value => name.val :: colon.val :: E.tokens value
  | shorthand name => [name.val]

def FieldTree.value : FieldTree E → String × Expr
  | named name _ value => (name.val.lexeme, E.value value)
  | shorthand name => (name.val.lexeme, .identifier name.val.lexeme name.val.span)

def ObjectTree.tokens (d : ObjectTree E) : List Token :=
  d.opening.val :: (d.fields.tokens FieldTree.tokens ++ [d.closing.val])

def ObjectTree.value (d : ObjectTree E) : Expr :=
  .object (Record.merged (d.fields.items.map FieldTree.value))
    (d.opening.val.span.cover d.closing.val.span)

def GroupTree.tokens (d : GroupTree E) : List Token :=
  d.opening.val :: (E.tokens d.inner ++ [d.closing.val])

/-- A group is what it holds, with the span of the parentheses. -/
def GroupTree.value (d : GroupTree E) : Expr :=
  (E.value d.inner).withSpan (d.opening.val.span.cover d.closing.val.span)

def HeadTree.tokens : HeadTree E → List Token
  | group d => d.tokens
  | object d => d.tokens
  | term d => [d.token]

def HeadTree.value : HeadTree E → Operand
  | group d => ⟨d.value, true⟩
  | object d => ⟨d.value, false⟩
  | term d => ⟨d.value, false⟩

def TrailerTree.tokens : TrailerTree E → List Token
  | call opening arguments closing =>
    opening.val :: (arguments.tokens E.tokens ++ [closing.val])
  | index opening inner closing => opening.val :: (E.tokens inner ++ [closing.val])
  | member dot name => [dot.val, name.val]

/-- An operand with one trailer more. -/
def TrailerTree.apply (operand : Operand) : TrailerTree E → Operand
  | call _ arguments closing =>
    ⟨.call operand.expr (arguments.items.map E.value)
      (operand.expr.span.cover closing.val.span), false⟩
  | index _ inner closing =>
    ⟨.member operand.expr (E.value inner) true (operand.expr.span.cover closing.val.span), false⟩
  | member _ name =>
    ⟨.member operand.expr (.identifier name.val.lexeme name.val.span) false
      (operand.expr.span.cover name.val.span), false⟩

def OperandTree.tokens : OperandTree E O → List Token
  | unary sign argument => sign.token :: O.tokens argument
  | plain head trailers => head.tokens ++ trailers.flatMap TrailerTree.tokens

def OperandTree.value : OperandTree E O → Operand
  | unary sign argument =>
    ⟨.unary sign.op (O.value argument).expr
      (sign.token.span.cover (O.value argument).expr.span), false⟩
  | plain head trailers => trailers.foldl TrailerTree.apply head.value

/-- An operator between two operands. -/
def join (left : Expr) (op : BinaryOp) (right : Expr) : Expr :=
  .binary left op right (left.span.cover right.span)

/-- A further operand of a chain with the operator before it. -/
def linkTokens (link : Sign BinaryOp.ofKind? × GroupTree E) : List Token :=
  link.1.token :: link.2.tokens

/-- A chain takes its operands from the left. -/
def joinLink (left : Expr) (link : Sign BinaryOp.ofKind? × GroupTree E) : Expr :=
  join left link.1.op link.2.value

def ExprTree.tokens : ExprTree E O → List Token
  | template token => [token.val]
  | emptyArray brackets => [brackets.val]
  | array opening elements closing =>
    opening.val :: (elements.tokens E.tokens ++ [closing.val])
  | object d => d.tokens
  | single first _ => first.tokens
  | chain first _ sign second more =>
    first.tokens ++ sign.token :: (second.tokens ++ more.flatMap linkTokens)

def ExprTree.value : ExprTree E O → Expr
  | template token => .template (token.val.segments.map Segment.part) token.val.span
  | emptyArray brackets => .array [] brackets.val.span
  | array opening elements closing =>
    .array (elements.items.map E.value) (opening.val.span.cover closing.val.span)
  | object d => d.value
  | single first _ => first.value.expr
  | chain first _ sign second more =>
    more.foldl joinLink (join first.value.expr sign.op second.value.expr)

end

mutual

/-- Expressions of at most the given number of levels. -/
def exprPhrase : Nat → Phrase Expr
  | 0 => .none Expr
  | n + 1 => ⟨ExprTree (exprPhrase n) (operandPhrase n), ExprTree.tokens, ExprTree.value⟩

/-- Operands, one level deeper than what they stand in, of at most the given
number of levels. -/
def operandPhrase : Nat → Phrase Operand
  | 0 => .none Operand
  | n + 1 => ⟨OperandTree (exprPhrase n) (operandPhrase n), OperandTree.tokens, OperandTree.value⟩

end

/-- The operators that a condition may have. -/
def comparison? (kind : Kind) : Option BinaryOp :=
  match kind with
  | .equalEqual => some .eq
  | .notEqual => some .notEq
  | .less => some .less
  | .lessEqual => some .lessEq
  | .greater => some .greater
  | .greaterEqual => some .greaterEq
  | _ => none

/-- `IDENT comparison (literal | IDENT)` -/
structure ConditionTree where
  name : Terminal .identifier
  sign : Sign comparison?
  right : TermTree

section Programs
variable (T : Phrase TypeExpr) (E : Phrase Expr) (B : Phrase Block)

/-- `IDENT "=" expression` -/
structure AssignmentTree where
  name : Terminal .identifier
  equal : Terminal .equal
  right : E.Tree

/-- `assignment | "if" condition block ("else" block)? | "while" expression block |
"for" assignment ";" expression ";" assignment block` -/
inductive StatementTree where
  | assign (assignment : AssignmentTree E)
  | branch (start : Terminal (.keyword .ifWord)) (condition : ConditionTree) (thenBlock : B.Tree)
  | branchElse (start : Terminal (.keyword .ifWord)) (condition : ConditionTree)
      (thenBlock : B.Tree) (otherwise : Terminal (.keyword .elseWord)) (elseBlock : B.Tree)
  | whileLoop (start : Terminal (.keyword .whileWord)) (condition : E.Tree) (body : B.Tree)
  | forLoop (start : Terminal (.keyword .forWord)) (initializer : AssignmentTree E)
      (first : Terminal .semicolon) (condition : E.Tree) (second : Terminal .semicolon)
      (increment : AssignmentTree E) (body : B.Tree)

/-- `"func" IDENT "=" "{" (IDENT ("," IDENT)*)? "}" block` -/
structure FunctionTree where
  start : Terminal (.keyword .funcWord)
  name : Terminal .identifier
  equal : Terminal .equal
  opening : Terminal .leftBrace
  parameters : CommaList (Terminal .identifier)
  closing : Terminal .rightBrace
  body : B.Tree

/-- `"type" IDENT "=" type` -/
structure DefinitionTree where
  start : Terminal (.keyword .typeWord)
  name : Terminal .identifier
  equal : Terminal .equal
  type : T.Tree

end Programs

/-- The parameters and the result of a function type. -/
def functionType? : TypeExpr → Option (Interface × TypeExpr)
  | .function parameters result _ => some (parameters, result)
  | _ => none

section Blocks
variable (T : Phrase TypeExpr) (E : Phrase Expr) (B : Phrase Block)

/-- `function | definition | definition function`, where a definition comes with a
function exactly if it gives a function type. -/
inductive DeclarationTree where
  | function (d : FunctionTree B)
  | typeName (definition : DefinitionTree T)
      (plain : functionType? (T.value definition.type) = none)
  | signed (definition : DefinitionTree T) (parameters : Interface) (result : TypeExpr)
      (signature : functionType? (T.value definition.type) = some (parameters, result))
      (d : FunctionTree B) (sameName : definition.name.val.lexeme = d.name.val.lexeme)

/-- `declaration | statement` -/
inductive ItemTree where
  | declaration (d : DeclarationTree T B)
  | statement (d : StatementTree E B)

/-- `"{" item* ("return" expression)? "}"` -/
structure BlockTree where
  opening : Terminal .leftBrace
  items : List (ItemTree T E B)
  result : Option (Terminal (.keyword .returnWord) × E.Tree)
  closing : Terminal .rightBrace

end Blocks

section
variable {T : Phrase TypeExpr} {E : Phrase Expr} {B : Phrase Block}

def ConditionTree.tokens (d : ConditionTree) : List Token :=
  [d.name.val, d.sign.token, d.right.token]

def ConditionTree.value (d : ConditionTree) : Expr :=
  join (.identifier d.name.val.lexeme d.name.val.span) d.sign.op d.right.value

def AssignmentTree.tokens (d : AssignmentTree E) : List Token :=
  d.name.val :: d.equal.val :: E.tokens d.right

def AssignmentTree.value (d : AssignmentTree E) : Assignment :=
  ⟨.identifier d.name.val.lexeme d.name.val.span, E.value d.right,
    d.name.val.span.cover (E.value d.right).span⟩

def StatementTree.tokens : StatementTree E B → List Token
  | assign assignment => assignment.tokens
  | branch start condition thenBlock => start.val :: (condition.tokens ++ B.tokens thenBlock)
  | branchElse start condition thenBlock otherwise elseBlock =>
    start.val :: (condition.tokens ++ (B.tokens thenBlock ++ otherwise.val :: B.tokens elseBlock))
  | whileLoop start condition body => start.val :: (E.tokens condition ++ B.tokens body)
  | forLoop start initializer first condition second increment body =>
    start.val :: (initializer.tokens ++ first.val :: (E.tokens condition ++
      second.val :: (increment.tokens ++ B.tokens body)))

def StatementTree.value : StatementTree E B → Statement
  | assign assignment => .assign assignment.value assignment.value.span
  | branch start condition thenBlock =>
    .branch condition.value (B.value thenBlock) none
      (start.val.span.cover (B.value thenBlock).span)
  | branchElse start condition thenBlock _ elseBlock =>
    .branch condition.value (B.value thenBlock) (some (B.value elseBlock))
      (start.val.span.cover (B.value elseBlock).span)
  | whileLoop start condition body =>
    .whileLoop (E.value condition) (B.value body) (start.val.span.cover (B.value body).span)
  | forLoop start initializer _ condition _ increment body =>
    .forLoop (some initializer.value) (some (E.value condition)) (some increment.value)
      (B.value body) (start.val.span.cover (B.value body).span)

def FunctionTree.tokens (d : FunctionTree B) : List Token :=
  d.start.val :: d.name.val :: d.equal.val :: d.opening.val ::
    (d.parameters.tokens (fun name => [name.val]) ++ d.closing.val :: B.tokens d.body)

/-- The function with the types of a signature, if it has one. A parameter has the
type that the signature gives to its name. -/
def FunctionTree.value (d : FunctionTree B) (signature : Option (Interface × TypeExpr)) :
    Declaration :=
  .function d.name.val.lexeme
    (d.parameters.items.map fun name =>
      ⟨name.val.lexeme, signature.bind fun s => Record.get? name.val.lexeme s.1.fields,
        name.val.span⟩)
    (signature.map (·.2)) (B.value d.body) (d.start.val.span.cover (B.value d.body).span)

def DefinitionTree.tokens (d : DefinitionTree T) : List Token :=
  d.start.val :: d.name.val :: d.equal.val :: T.tokens d.type

def DefinitionTree.span (d : DefinitionTree T) : Span :=
  d.start.val.span.cover (T.value d.type).span

def DeclarationTree.tokens : DeclarationTree T B → List Token
  | function d => d.tokens
  | typeName definition _ => definition.tokens
  | signed definition _ _ _ d _ => definition.tokens ++ d.tokens

def DeclarationTree.value : DeclarationTree T B → Declaration
  | function d => d.value none
  | typeName definition _ =>
    .typeName definition.name.val.lexeme (T.value definition.type) definition.span
  | signed _ parameters result _ d _ => d.value (some (parameters, result))

def ItemTree.tokens : ItemTree T E B → List Token
  | declaration d => d.tokens
  | statement d => d.tokens

def ItemTree.value : ItemTree T E B → Item
  | declaration d => .declaration d.value
  | statement d => .statement d.value

/-- The tokens of a block from its first item on. -/
def BlockTree.innerTokens (d : BlockTree T E B) : List Token :=
  d.items.flatMap ItemTree.tokens ++
    match d.result with
    | none => [d.closing.val]
    | some (start, result) => start.val :: (E.tokens result ++ [d.closing.val])

def BlockTree.tokens (d : BlockTree T E B) : List Token := d.opening.val :: d.innerTokens

def BlockTree.value (d : BlockTree T E B) : Block :=
  .mk (d.items.map ItemTree.value) (d.result.map fun result => E.value result.2)
    (d.opening.val.span.cover d.closing.val.span)

end

/-- Blocks of at most the given number of levels. -/
def blockPhrase : Nat → Phrase Block
  | 0 => .none Block
  | n + 1 => ⟨BlockTree (typePhrase n) (exprPhrase n) (blockPhrase n),
      BlockTree.tokens, BlockTree.value⟩

/-- `declaration*` -/
structure ProgramTree where
  declarations : List
    (DeclarationTree (typePhrase nestingLimit) (blockPhrase nestingLimit))

namespace ProgramTree

def tokens (d : ProgramTree) : List Token := d.declarations.flatMap DeclarationTree.tokens

/-- The program of a derivation, as a part of the file with the given number. -/
def value (d : ProgramTree) (file : Nat) : Program :=
  ⟨d.declarations.map DeclarationTree.value, ⟨file, 0, Token.lastStop d.tokens⟩⟩

end ProgramTree

end Scriptwright.Grammar
