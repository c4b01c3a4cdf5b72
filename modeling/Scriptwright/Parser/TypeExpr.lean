import Scriptwright.Parser
import Scriptwright.Record
import Scriptwright.TypeExpr

/-!
# Reading type expressions

A type expression is a name, `[]` before the type of the elements, or an interface
in braces, after which a colon and a result make it a function type.
-/

namespace Scriptwright.Parser

/-- A property of an interface. -/
def property (inner : Parser TypeExpr) : Parser (String × TypeExpr) := do
  let name ← take .identifier .propertyName
  let _ ← take .colon .propertyColon
  return (name.lexeme, ← inner)

/-- The type expression that begins with the brace `opening`. -/
def interfaceFrom (inner : Parser TypeExpr) (opening : Token) : Parser TypeExpr := do
  let fields ← commaList .rightBrace (property inner)
  let closing ← take .rightBrace .interfaceClose
  let shape := .mk (Record.ofList fields) (opening.span.cover closing.span)
  if ← accept .colon then
    let result ← inner
    return .function shape result (opening.span.cover result.span)
  return .interface shape

/-- A type expression whose parts are read by `inner`. -/
def typeExprIn (inner : Parser TypeExpr) : Parser TypeExpr := do
  let t ← any .typeExpr
  match t.kind with
  | .emptyBrackets =>
    let element ← inner
    return .array element (t.span.cover element.span)
  | .leftBrace => interfaceFrom inner t
  | .identifier => return .simple t.lexeme t.span
  | _ => refuse t .typeExpr

/-- A type expression of at most `room` levels. -/
def typeExpr (room : Nat) (input : List Token) : Except Failure (Parsed TypeExpr input) :=
  match room with
  | 0 => fail .nestingTooDeep input
  | room + 1 => typeExprIn (typeExpr room) input

end Scriptwright.Parser
