import Scriptwright.Expr
import Scriptwright.Parser
import Scriptwright.Record

/-!
# Reading expressions

A template, an array and an object at the front of an expression are the whole of
it. Any other expression is a chain of operands with operators between them. The
operators have no precedence: a chain is read from the left, and from its third
operand on each has to be in parentheses.
-/

namespace Scriptwright

/-- A term with its calls and member accesses. -/
structure Operand where
  expr : Expr
  /-- Whether it is a group in parentheses with nothing after it. -/
  parenthesized : Bool

/-- What may follow a term. -/
inductive Trailer where
  | call | index | member
  deriving DecidableEq, Repr

def BinaryOp.ofKind? : Kind → Option BinaryOp
  | .plus => some .add
  | .minus => some .sub
  | .star => some .mul
  | .slash => some .div
  | .equalEqual => some .eq
  | .notEqual => some .notEq
  | .less => some .less
  | .lessEqual => some .lessEq
  | .greater => some .greater
  | .greaterEqual => some .greaterEq
  | .keyword .andWord => some .and
  | .keyword .orWord => some .or
  | _ => none

def UnaryOp.ofKind? : Kind → Option UnaryOp
  | .minus => some .neg
  | .bang => some .not
  | _ => none

def Trailer.ofKind? : Kind → Option Trailer
  | .leftParen => some .call
  | .leftBracket => some .index
  | .dot => some .member
  | _ => none

def Segment.part : Segment → TemplatePart
  | .text content => .text content
  | .name identifier span => .code (.identifier identifier span)

namespace Parser

/-- The name or literal that the token `t` is. -/
def term (what : Expectation) (t : Token) : Parser Expr :=
  match t.kind, t.value with
  | .identifier, _ => return .identifier t.lexeme t.span
  | .number, .number value => return .number value t.span
  | .text, .text content => return .text content t.span
  | .keyword .trueWord, _ => return .boolean true t.span
  | .keyword .falseWord, _ => return .boolean false t.span
  | .keyword .nilWord, _ => return .nil t.span
  | .number, _ => refuse t .literal
  | .text, _ => refuse t .literal
  | _, _ => refuse t what

/-- A field of an object. A name alone stands for a field with the value of that name. -/
def field (expr : Parser Expr) : Parser (String × Expr) := do
  let name ← take .identifier .propertyName
  if ← accept .colon then return (name.lexeme, ← expr)
  return (name.lexeme, .identifier name.lexeme name.span)

/-- The object that begins with the brace `opening`. -/
def objectFrom (expr : Parser Expr) (opening : Token) : Parser Expr := do
  let fields ← commaList .rightBrace (field expr)
  let closing ← take .rightBrace .objectClose
  return .object (Record.ofList fields) (opening.span.cover closing.span)

/-- The array that begins with the bracket `opening`. -/
def arrayFrom (expr : Parser Expr) (opening : Token) : Parser Expr := do
  let elements ← commaList .rightBracket expr
  let closing ← take .rightBracket .elementsClose
  return .array elements (opening.span.cover closing.span)

/-- The operand that begins with the token `t`, without what follows it. An
operator with one operand applies to all that `operand` reads. -/
def primaryFrom (expr : Parser Expr) (operand : Parser Operand) (t : Token) :
    Parser Operand := do
  match UnaryOp.ofKind? t.kind with
  | some op =>
    let argument ← operand
    return ⟨.unary op argument.expr (t.span.cover argument.expr.span), false⟩
  | none =>
    match t.kind with
    | .leftParen =>
      let inner ← expr
      let closing ← take .rightParen .groupClose
      return ⟨inner.withSpan (t.span.cover closing.span), true⟩
    | .leftBrace => return ⟨← objectFrom expr t, false⟩
    | _ => return ⟨← term .expression t, false⟩

/-- Applies a call or an access, whose opening token was taken, to an operand. -/
def applyTrailer (expr : Parser Expr) (operand : Operand) : Trailer → Parser Operand
  | .call => do
    let arguments ← commaList .rightParen expr
    let closing ← take .rightParen .argumentsClose
    return ⟨.call operand.expr arguments (operand.expr.span.cover closing.span), false⟩
  | .index => do
    let index ← expr
    let closing ← take .rightBracket .indexClose
    return ⟨.member operand.expr index true (operand.expr.span.cover closing.span), false⟩
  | .member => do
    let name ← take .identifier .memberName
    return ⟨.member operand.expr (.identifier name.lexeme name.span) false
      (operand.expr.span.cover name.span), false⟩

/-- The operand that begins with the token `t`. -/
def operandFrom (expr : Parser Expr) (operand : Parser Operand) (t : Token) :
    Parser Operand := do
  let first ← primaryFrom expr operand t
  extend (fun t => Trailer.ofKind? t.kind) (applyTrailer expr) first

def operandIn (expr : Parser Expr) (operand : Parser Operand) : Parser Operand := do
  operandFrom expr operand (← any .expression)

/-- Joins the next operand to the expression on the left. The flag says whether
that is a chain of operands already, so that the next one needs its parentheses. -/
def joinOperand (operand : Parser Operand) (left : Expr × Bool) (op : BinaryOp) :
    Parser (Expr × Bool) := do
  let right ← operand
  let span := left.1.span.cover right.expr.span
  if left.2 && !right.parenthesized then failOver .ambiguousChain span
  else return (.binary left.1 op right.expr span, true)

/-- The rest of a chain of operands after its first. -/
def chainFrom (operand : Parser Operand) (first : Operand) : Parser Expr := do
  let chain ← extend (fun t => BinaryOp.ofKind? t.kind) (joinOperand operand) (first.expr, false)
  return chain.1

/-- An expression whose inner expressions are read by `expr`, and the operands of
its operators with one operand by `operand`. -/
def exprIn (expr : Parser Expr) (operand : Parser Operand) : Parser Expr := do
  let t ← any .expression
  match t.kind with
  | .template => return .template (t.segments.map Segment.part) t.span
  | .emptyBrackets => return .array [] t.span
  | .leftBracket => arrayFrom expr t
  | .leftBrace => objectFrom expr t
  | _ => chainFrom (operandIn expr operand) (← operandFrom expr operand t)

mutual

/-- An expression of at most `room` levels. -/
def expr (room : Nat) (input : List Token) : Except Failure (Parsed Expr input) :=
  match room with
  | 0 => fail .nestingTooDeep input
  | room + 1 => exprIn (expr room) (operand room) input

/-- An operand, one level deeper, of at most `room` levels. -/
def operand (room : Nat) (input : List Token) : Except Failure (Parsed Operand input) :=
  match room with
  | 0 => fail .nestingTooDeep input
  | room + 1 => operandIn (expr room) (operand room) input

end

end Parser

end Scriptwright
