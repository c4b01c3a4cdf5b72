import Scriptwright.Expr
import Scriptwright.TypeExpr

/-!
# Programs

A program is a list of declarations. A declaration names a type or a function,
and the body of a function is a block: declarations and statements in any order,
and at most one returned expression at the end.
-/

namespace Scriptwright

structure Assignment where
  left : Expr
  right : Expr
  span : Span

structure Parameter where
  name : String
  type : Option TypeExpr
  span : Span

mutual

inductive Declaration where
  | function (name : String) (parameters : List Parameter) (result : Option TypeExpr)
      (body : Block) (span : Span)
  | typeName (name : String) (definition : TypeExpr) (span : Span)

inductive Block where
  | mk (items : List Item) (result : Option Expr) (span : Span)

inductive Item where
  | declaration (declaration : Declaration)
  | statement (statement : Statement)

inductive Statement where
  | assign (assignment : Assignment) (span : Span)
  | branch (condition : Expr) (thenBlock : Block) (elseBlock : Option Block) (span : Span)
  | whileLoop (condition : Expr) (body : Block) (span : Span)
  | forLoop (initializer : Option Assignment) (condition : Option Expr)
      (increment : Option Assignment) (body : Block) (span : Span)

end

namespace Declaration

def name : Declaration → String
  | function name .. | typeName name .. => name

def span : Declaration → Span
  | function _ _ _ _ span | typeName _ _ span => span

end Declaration

namespace Block

def items : Block → List Item
  | mk items _ _ => items

def result : Block → Option Expr
  | mk _ result _ => result

def span : Block → Span
  | mk _ _ span => span

/-- Whether the braces hold nothing. -/
def isEmpty (b : Block) : Bool := b.items.isEmpty && b.result.isNone

end Block

structure Program where
  declarations : List Declaration
  span : Span

end Scriptwright
