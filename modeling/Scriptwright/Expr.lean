import Scriptwright.Binary64
import Scriptwright.Span

/-!
# Expressions

The tree of an expression. Each node has the span of the source it was read from.
A group in parentheses is no node of its own: its inner node takes the span of
the group.
-/

namespace Scriptwright

inductive UnaryOp where
  | neg | not
  deriving DecidableEq, Repr

inductive BinaryOp where
  | add | sub | mul | div
  | eq | notEq | less | lessEq | greater | greaterEq
  | and | or
  deriving DecidableEq, Repr

mutual

inductive Expr where
  | number (value : Binary64) (span : Span)
  | text (content : String) (span : Span)
  | boolean (value : Bool) (span : Span)
  | nil (span : Span)
  | identifier (name : String) (span : Span)
  | binary (left : Expr) (op : BinaryOp) (right : Expr) (span : Span)
  | unary (op : UnaryOp) (argument : Expr) (span : Span)
  | call (callee : Expr) (arguments : List Expr) (span : Span)
  /-- An element in brackets if `computed`, and otherwise a member after a dot. -/
  | member (object property : Expr) (computed : Bool) (span : Span)
  | array (elements : List Expr) (span : Span)
  | object (fields : List (String × Expr)) (span : Span)
  | template (parts : List TemplatePart) (span : Span)

inductive TemplatePart where
  | text (content : String)
  /-- An expression whose value goes into the text. -/
  | code (value : Expr)

end

instance : Inhabited Expr := ⟨.nil default⟩

namespace Expr

def span : Expr → Span
  | number _ s | text _ s | boolean _ s | nil s | identifier _ s | binary _ _ _ s
  | unary _ _ s | call _ _ s | member _ _ _ s | array _ s | object _ s | template _ s => s

/-- The same node with another span. -/
def withSpan (s : Span) : Expr → Expr
  | number v _ => number v s
  | text c _ => text c s
  | boolean v _ => boolean v s
  | nil _ => nil s
  | identifier n _ => identifier n s
  | binary l op r _ => binary l op r s
  | unary op e _ => unary op e s
  | call f args _ => call f args s
  | member o p c _ => member o p c s
  | array es _ => array es s
  | object fs _ => object fs s
  | template ps _ => template ps s

@[simp] theorem span_withSpan (s : Span) (e : Expr) : (e.withSpan s).span = s := by
  cases e <;> rfl

/-- Whether the outermost node applies an operator. -/
def isOperation : Expr → Bool
  | binary .. | unary .. => true
  | _ => false

end Expr

end Scriptwright
