import Scriptwright.Span

/-!
# Type expressions

Types are written and read but never checked. A function type is an interface,
which names its parameters, followed by the type of its result.
-/

namespace Scriptwright

mutual

inductive TypeExpr where
  | simple (name : String) (span : Span)
  | array (element : TypeExpr) (span : Span)
  | interface (shape : Interface)
  | function (parameters : Interface) (result : TypeExpr) (span : Span)

inductive Interface where
  | mk (fields : List (String × TypeExpr)) (span : Span)

end

namespace Interface

def fields : Interface → List (String × TypeExpr)
  | mk fields _ => fields

def span : Interface → Span
  | mk _ span => span

end Interface

namespace TypeExpr

instance : Inhabited TypeExpr := ⟨.simple "" default⟩

def span : TypeExpr → Span
  | simple _ span | array _ span | function _ _ span => span
  | interface shape => shape.span

/-- The name of a type that is nothing but a name. -/
def simpleName? : TypeExpr → Option String
  | simple name _ => some name
  | _ => none

end TypeExpr

end Scriptwright
