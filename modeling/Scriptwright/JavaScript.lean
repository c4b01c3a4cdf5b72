import Scriptwright.Binary64.Decimal
import Scriptwright.Program

/-!
# JavaScript

The JavaScript text of a program. Types leave no trace but a comment for each
declared name. A text literal is written as a template, and an operand that is an
operation itself is put in parentheses, whatever the precedence of its operator.
-/

namespace Scriptwright

def UnaryOp.javaScript : UnaryOp → String
  | neg => "-"
  | not => "!"

def BinaryOp.javaScript : BinaryOp → String
  | add => "+"
  | sub => "-"
  | mul => "*"
  | div => "/"
  | eq => "=="
  | notEq => "!="
  | less => "<"
  | lessEq => "<="
  | greater => ">"
  | greaterEq => ">="
  | and => "&&"
  | or => "||"

/-- A number is written with the fewest digits that read back, without an exponent. -/
def Binary64.javaScript (x : Binary64) : String :=
  if x.isNaN then "NaN"
  else
    (if x.isNegative then "-" else "") ++
      (if x.isInfinite then "Infinity" else String.ofList (shortest x.magnitude))

namespace JavaScript

/-- A backtick would close a template and `${` would open a substitution in it, so
both get a backslash. All else stands as it is. -/
def escape : List Char → List Char
  | [] => []
  | '`' :: cs => '\\' :: '`' :: escape cs
  | '$' :: '{' :: cs => '\\' :: '$' :: '{' :: escape cs
  | c :: cs => c :: escape cs

def templateText (content : String) : String := String.ofList (escape content.toList)

/-- A template literal around text that is escaped already. -/
def backticked (content : String) : String := "`" ++ content ++ "`"

def commaSeparated (texts : List String) : String := ", ".intercalate texts

def parenthesizedIf (wrap : Bool) (text : String) : String :=
  if wrap then "(" ++ text ++ ")" else text

/-- A line of its own, two blanks for each level. -/
def line (level : Nat) (text : String) : String :=
  String.ofList (List.replicate (2 * level) ' ') ++ text ++ "\n"

end JavaScript

open JavaScript

mutual

def Expr.javaScript : Expr → String
  | .number value _ => value.javaScript
  | .text content _ => backticked (templateText content)
  | .boolean value _ => if value then "true" else "false"
  | .nil _ => "null"
  | .identifier name _ => name
  | .binary left op right _ =>
    parenthesizedIf left.isOperation left.javaScript ++ " " ++ op.javaScript ++ " " ++
      parenthesizedIf right.isOperation right.javaScript
  | .unary op argument _ =>
    op.javaScript ++ parenthesizedIf argument.isOperation argument.javaScript
  | .call callee arguments _ =>
    parenthesizedIf callee.isOperation callee.javaScript ++
      "(" ++ commaSeparated (Expr.listJavaScript arguments) ++ ")"
  | .member base property true _ =>
    parenthesizedIf base.isOperation base.javaScript ++ "[" ++ property.javaScript ++ "]"
  | .member base property false _ =>
    parenthesizedIf base.isOperation base.javaScript ++ "." ++ property.javaScript
  | .array elements _ => "[" ++ commaSeparated (Expr.listJavaScript elements) ++ "]"
  | .object fields _ => "\x7b " ++ commaSeparated (Expr.fieldsJavaScript fields) ++ " \x7d"
  | .template parts _ => backticked (Expr.partsJavaScript parts)

def Expr.listJavaScript : List Expr → List String
  | [] => []
  | e :: es => e.javaScript :: Expr.listJavaScript es

def Expr.fieldsJavaScript : List (String × Expr) → List String
  | [] => []
  | (name, e) :: fields => (name ++ ": " ++ e.javaScript) :: Expr.fieldsJavaScript fields

def Expr.partsJavaScript : List TemplatePart → String
  | [] => ""
  | .text content :: parts => templateText content ++ Expr.partsJavaScript parts
  | .code e :: parts => "$\x7b" ++ e.javaScript ++ "\x7d" ++ Expr.partsJavaScript parts

end

def Assignment.javaScript (a : Assignment) : String :=
  a.left.javaScript ++ " = " ++ a.right.javaScript

/-- The text of a clause that may be missing. -/
def JavaScript.clause {α : Type} (text : α → String) : Option α → String
  | some a => text a
  | none => ""

mutual

def Declaration.javaScript (level : Nat) : Declaration → String
  | .function name parameters _ body _ =>
    line level
        ("function " ++ name ++ "(" ++ commaSeparated (parameters.map (·.name)) ++ ") \x7b") ++
      body.javaScript (level + 1) ++ line level "\x7d" ++ "\n"
  | .typeName name _ _ => line level ("// Type: " ++ name)

def Block.javaScript (level : Nat) : Block → String
  | .mk items result _ =>
    Item.listJavaScript level items ++
      match result with
      | some e => line level ("return " ++ e.javaScript ++ ";")
      | none => ""

def Item.listJavaScript (level : Nat) : List Item → String
  | [] => ""
  | .declaration d :: items => d.javaScript level ++ Item.listJavaScript level items
  | .statement s :: items => s.javaScript level ++ Item.listJavaScript level items

def Statement.javaScript (level : Nat) : Statement → String
  | .assign assignment _ => line level (assignment.javaScript ++ ";")
  | .branch condition thenBlock none _ =>
    line level ("if (" ++ condition.javaScript ++ ") \x7b") ++
      thenBlock.javaScript (level + 1) ++ line level "\x7d"
  | .branch condition thenBlock (some elseBlock) _ =>
    line level ("if (" ++ condition.javaScript ++ ") \x7b") ++
      thenBlock.javaScript (level + 1) ++ line level "\x7d else \x7b" ++
      elseBlock.javaScript (level + 1) ++ line level "\x7d"
  | .whileLoop condition body _ =>
    line level ("while (" ++ condition.javaScript ++ ") \x7b") ++
      body.javaScript (level + 1) ++ line level "\x7d"
  | .forLoop initializer condition increment body _ =>
    line level ("for (" ++ clause Assignment.javaScript initializer ++ "; " ++
        clause Expr.javaScript condition ++ "; " ++
        clause Assignment.javaScript increment ++ ") \x7b") ++
      body.javaScript (level + 1) ++ line level "\x7d"

end

def Program.javaScript (p : Program) : String :=
  String.join (p.declarations.map (Declaration.javaScript 0))

end Scriptwright
