import Scriptwright.Parser.Expr
import Scriptwright.Parser.TypeExpr
import Scriptwright.Program

/-!
# Reading programs

Declarations, statements and blocks are told apart by their first token. A type
declaration with a function type is a signature. It has to stand right before a
function of the same name, which takes its types from there.
-/

namespace Scriptwright

/-- The type of a function, declared ahead of it. -/
structure Signature where
  name : String
  parameters : Interface
  result : TypeExpr
  span : Span

namespace Parser

/-- A parameter has the type that the signature, if there is one, gives to its name. -/
def parameter (signature : Option Signature) : Parser Parameter := do
  let name ← take .identifier .parameterName
  let type := signature.bind fun s => Record.get? name.lexeme s.parameters.fields
  return ⟨name.lexeme, type, name.span⟩

/-- A signature belongs to the function of its own name. -/
def checkName (name : String) : Option Signature → Parser Unit
  | none => return
  | some s => if s.name = name then return else failOver .signatureNameMismatch s.span

/-- The function that begins with the keyword `start`. -/
def functionFrom (block : Token → Parser Block) (signature : Option Signature) (start : Token) :
    Parser Declaration := do
  let name ← take .identifier .functionName
  let _ ← take .equal .functionEquals
  checkName name.lexeme signature
  let _ ← take .leftBrace .parametersOpen
  let parameters ← commaList .rightBrace (parameter signature)
  let _ ← take .rightBrace .parametersClose
  let body ← block (← take .leftBrace .bodyOpen)
  return .function name.lexeme parameters (signature.map (·.result)) body
    (start.span.cover body.span)

/-- The type declaration that begins with the keyword `start`, together with the
function after it if it is a signature. -/
def typeFrom (typeExpr : Parser TypeExpr) (block : Token → Parser Block) (start : Token) :
    Parser Declaration := do
  let name ← take .identifier .typeName
  let _ ← take .equal .typeEquals
  let definition ← typeExpr
  let span := start.span.cover definition.span
  match definition with
  | .function parameters result _ =>
    if ← nextIs (.keyword .funcWord) then
      functionFrom block (some ⟨name.lexeme, parameters, result, span⟩) (← any .declaration)
    else failOver .signatureWithoutFunction span
  | _ => return .typeName name.lexeme definition span

/-- The declaration that begins with the token `t`. -/
def declarationFrom (typeExpr : Parser TypeExpr) (block : Token → Parser Block) (t : Token) :
    Parser Declaration :=
  match t.kind with
  | .keyword .typeWord => typeFrom typeExpr block t
  | .keyword .funcWord => functionFrom block none t
  | _ => refuse t .declaration

/-- The assignment to the name that the token `name` is. -/
def assignmentFrom (expr : Parser Expr) (name : Token) : Parser Assignment := do
  let _ ← take .equal .assignedEquals
  let right ← expr
  return ⟨.identifier name.lexeme name.span, right, name.span.cover right.span⟩

def assignment (expr : Parser Expr) : Parser Assignment := do
  assignmentFrom expr (← take .identifier .assignedName)

def isComparison : BinaryOp → Bool
  | .eq | .notEq | .less | .lessEq | .greater | .greaterEq => true
  | _ => false

/-- The condition of a branch compares a name with a name or a literal. -/
def condition : Parser Expr := do
  let name ← take .identifier .conditionName
  let t ← any .condition
  match BinaryOp.ofKind? t.kind with
  | none => refuse t .condition
  | some op =>
    if isComparison op then
      let right ← term .condition (← any .condition)
      return .binary (.identifier name.lexeme name.span) op right (name.span.cover right.span)
    else refuse t .condition

/-- The branch that begins with the keyword `start`. -/
def branchFrom (block : Token → Parser Block) (start : Token) : Parser Statement := do
  let condition ← condition
  let thenBlock ← block (← take .leftBrace .thenOpen)
  if ← accept (.keyword .elseWord) then
    let elseBlock ← block (← take .leftBrace .elseOpen)
    return .branch condition thenBlock (some elseBlock) (start.span.cover elseBlock.span)
  return .branch condition thenBlock none (start.span.cover thenBlock.span)

/-- The loop that begins with the keyword `start` and goes on while its condition holds. -/
def whileFrom (expr : Parser Expr) (block : Token → Parser Block) (start : Token) :
    Parser Statement := do
  let condition ← expr
  let body ← block (← take .leftBrace .whileOpen)
  return .whileLoop condition body (start.span.cover body.span)

/-- The loop that begins with the keyword `start` and has an initial assignment, a
condition and an assignment after each round. -/
def forFrom (expr : Parser Expr) (block : Token → Parser Block) (start : Token) :
    Parser Statement := do
  let initializer ← assignment expr
  let _ ← take .semicolon .initializerEnd
  let condition ← expr
  let _ ← take .semicolon .conditionEnd
  let increment ← assignment expr
  let body ← block (← take .leftBrace .forOpen)
  return .forLoop (some initializer) (some condition) (some increment) body
    (start.span.cover body.span)

/-- The statement that begins with the token `t`. -/
def statementFrom (expr : Parser Expr) (block : Token → Parser Block) (t : Token) :
    Parser Statement :=
  match t.kind with
  | .keyword .ifWord => branchFrom block t
  | .keyword .whileWord => whileFrom expr block t
  | .keyword .forWord => forFrom expr block t
  | .identifier => do
    let assignment ← assignmentFrom expr t
    return .assign assignment assignment.span
  | _ => refuse t .assignedName

/-- The declaration or statement that begins with the token `t`. -/
def itemFrom (typeExpr : Parser TypeExpr) (expr : Parser Expr) (block : Token → Parser Block)
    (t : Token) : Parser Item := do
  if t.kind = .keyword .typeWord ∨ t.kind = .keyword .funcWord then
    return .declaration (← declarationFrom typeExpr block t)
  return .statement (← statementFrom expr block t)

/-- The items of a block end at its brace or where it returns an expression. -/
def itemStart? (t : Token) : Option Token :=
  if t.kind = .rightBrace ∨ t.kind = .keyword .returnWord then none else some t

/-- The block that begins with the brace `opening`, whose inner blocks are read by `block`. -/
def blockIn (typeExpr : Parser TypeExpr) (expr : Parser Expr) (block : Token → Parser Block)
    (opening : Token) : Parser Block := do
  let items ← extend itemStart?
    (fun items t => do return (← itemFrom typeExpr expr block t) :: items) []
  let t ← any .assignedName
  if t.kind = .keyword .returnWord then
    let result ← expr
    let closing ← take .rightBrace .blockClose
    return .mk items.reverse (some result) (opening.span.cover closing.span)
  return .mk items.reverse none (opening.span.cover t.span)

/-- A block of at most `room` levels. -/
def block (room : Nat) (opening : Token) (input : List Token) :
    Except Failure (Parsed Block input) :=
  match room with
  | 0 => fail .nestingTooDeep input
  | room + 1 => blockIn (typeExpr room) (expr room) (block room) opening input

/-- Declarations up to the end of the tokens. -/
def declarations (room : Nat) : Parser (List Declaration) := do
  let declarations ← extend some (fun declarations t => do
    return (← declarationFrom (typeExpr room) (block room) t) :: declarations) []
  return declarations.reverse

end Parser

/-- A fault, the bytes it concerns, and the token that was found there. -/
structure SyntaxError where
  fault : SyntaxFault
  found : String
  span : Span
  deriving DecidableEq, Repr

namespace SyntaxError

def message (e : SyntaxError) : String := e.fault.message e.found

/-- The report of a failure in a text whose end is at `finish`. -/
def ofFailure (finish : Span) : Failure → SyntaxError
  | .here fault [] => ⟨fault, "end of input", finish⟩
  | .here fault (t :: _) => ⟨fault, t.lexeme, t.span⟩
  | .over fault span => ⟨fault, "", span⟩

end SyntaxError

namespace Token

/-- The tokens before the end of the text. -/
def body (tokens : List Token) : List Token := tokens.takeWhile (·.kind != .endOfText)

/-- Where the last of the tokens stops. -/
def lastStop (tokens : List Token) : Nat := (tokens.getLast?.map (·.span.stop)).getD 0

/-- Where the text ends. Tokens that do not say so end with the last one. -/
def finishSpan (file : Nat) (tokens : List Token) : Span :=
  match tokens.find? (·.kind == .endOfText) with
  | some t => t.span
  | none => .point file (lastStop tokens)

end Token

/-- The program that the tokens up to the first `endOfText` spell. -/
def Program.ofTokens (file : Nat) (tokens : List Token) : Except SyntaxError Program :=
  let body := Token.body tokens
  match Parser.declarations nestingLimit body with
  | .error e => .error (.ofFailure (Token.finishSpan file tokens) e)
  | .ok r => .ok ⟨r.value, ⟨file, 0, Token.lastStop body⟩⟩

end Scriptwright
