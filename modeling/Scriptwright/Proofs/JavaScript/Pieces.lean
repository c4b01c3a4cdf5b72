import Scriptwright.Proofs.Grammar.Height
import Scriptwright.Proofs.JavaScript.Lexemes
import Scriptwright.Proofs.JavaScript.Reading

/-!
# Emitted text in pieces

The text of an expression is code, and texts of templates between it. The pieces of an
expression are the lexemes that are written for it and the texts of its templates, in the
order in which they are written, and together they are its text.
-/

namespace Scriptwright
namespace JavaScript

inductive Piece where
  | code (lexeme : Lexeme)
  /-- The text of a template, escaped. -/
  | text (content : String)

def Piece.characters : Piece → List Char
  | code lexeme => lexeme.characters
  | text content => content.toList

def Piece.lexeme? : Piece → Option Lexeme
  | code lexeme => some lexeme
  | text _ => none

/-- Signs, blanks among them. -/
def marks (text : String) : List Piece := text.toList.map fun c => .code (.sign c)

/-- A name or a number. -/
def word (text : String) : Piece :=
  .code (if text.toList.head?.any Char.isDigit then .number text.toList else .name text.toList)

def enclosedIf (wrap : Bool) (pieces : List Piece) : List Piece :=
  if wrap then marks "(" ++ pieces ++ marks ")" else pieces

def commas : List (List Piece) → List Piece
  | [] => []
  | first :: more => first ++ more.flatMap (marks ", " ++ ·)

end JavaScript

open JavaScript

mutual

/-- The text of an expression in pieces. -/
def Expr.pieces : Expr → List Piece
  | .number value _ => [word value.javaScript]
  | .text content _ => marks "`" ++ [.text (templateText content)] ++ marks "`"
  | .boolean value _ => [word (if value then "true" else "false")]
  | .nil _ => [word "null"]
  | .identifier name _ => [word name]
  | .binary left op right _ =>
    enclosedIf left.isOperation left.pieces ++ marks (" " ++ op.javaScript ++ " ") ++
      enclosedIf right.isOperation right.pieces
  | .unary op argument _ =>
    marks op.javaScript ++ enclosedIf argument.isOperation argument.pieces
  | .call callee arguments _ =>
    enclosedIf callee.isOperation callee.pieces ++ marks "(" ++
      commas (Expr.listPieces arguments) ++ marks ")"
  | .member base property true _ =>
    enclosedIf base.isOperation base.pieces ++ marks "[" ++ property.pieces ++ marks "]"
  | .member base property false _ =>
    enclosedIf base.isOperation base.pieces ++ marks "." ++ property.pieces
  | .array elements _ => marks "[" ++ commas (Expr.listPieces elements) ++ marks "]"
  | .object fields _ => marks "\x7b " ++ commas (Expr.fieldsPieces fields) ++ marks " \x7d"
  | .template parts _ => marks "`" ++ Expr.partsPieces parts ++ marks "`"

def Expr.listPieces : List Expr → List (List Piece)
  | [] => []
  | e :: es => e.pieces :: Expr.listPieces es

def Expr.fieldsPieces : List (String × Expr) → List (List Piece)
  | [] => []
  | (name, e) :: fields => (word name :: marks ": " ++ e.pieces) :: Expr.fieldsPieces fields

def Expr.partsPieces : List TemplatePart → List Piece
  | [] => []
  | .text content :: parts => .text (templateText content) :: Expr.partsPieces parts
  | .code e :: parts => marks "$\x7b" ++ e.pieces ++ marks "\x7d" ++ Expr.partsPieces parts

end

namespace JavaScript

theorem characters_marks (text : String) : (marks text).flatMap Piece.characters = text.toList := by
  rw [marks, List.flatMap_map]
  exact List.flatMap_singleton' _

theorem characters_word (text : String) : (word text).characters = text.toList := by
  unfold word
  split <;> rfl

theorem characters_enclosedIf (wrap : Bool) {pieces : List Piece} {text : String}
    (h : pieces.flatMap Piece.characters = text.toList) :
    (enclosedIf wrap pieces).flatMap Piece.characters = (parenthesizedIf wrap text).toList := by
  cases wrap with
  | false => exact h
  | true => simp [enclosedIf, parenthesizedIf, List.flatMap_append, characters_marks, h]

theorem characters_commas {α : Type} {xs : List α} {pieces : α → List Piece} {text : α → String}
    (h : ∀ x ∈ xs, (pieces x).flatMap Piece.characters = (text x).toList) :
    (commas (xs.map pieces)).flatMap Piece.characters = (commaSeparated (xs.map text)).toList := by
  cases xs with
  | nil => rfl
  | cons x xs =>
    obtain ⟨hfirst, hmore⟩ := List.forall_mem_cons.mp h
    rw [List.map_cons, List.map_cons, toList_commaSeparated, commas, List.flatMap_append, hfirst]
    congr 1
    rw [List.flatMap_map, List.flatMap_map, List.flatMap_assoc]
    refine List.flatMap_congr fun y hy => ?_
    rw [List.flatMap_append, characters_marks, hmore y hy]
    rfl

end JavaScript

namespace Expr

theorem listPieces_eq (es : List Expr) : listPieces es = es.map pieces := by
  induction es with
  | nil => rfl
  | cons e es ih => rw [listPieces, ih, List.map_cons]

theorem fieldsPieces_eq (fields : List (String × Expr)) :
    fieldsPieces fields = fields.map fun field => word field.1 :: marks ": " ++ field.2.pieces := by
  induction fields with
  | nil => rfl
  | cons field fields ih => rw [fieldsPieces, ih, List.map_cons]

theorem listJavaScript_eq (es : List Expr) : listJavaScript es = es.map javaScript := by
  induction es with
  | nil => rfl
  | cons e es ih => rw [listJavaScript, ih, List.map_cons]

theorem fieldsJavaScript_eq (fields : List (String × Expr)) :
    fieldsJavaScript fields = fields.map fun field => field.1 ++ ": " ++ field.2.javaScript := by
  induction fields with
  | nil => rfl
  | cons field fields ih => rw [fieldsJavaScript, ih, List.map_cons]

theorem characters_partsPieces {parts : List TemplatePart}
    (h : ∀ e ∈ parts.filterMap TemplatePart.code?,
      e.pieces.flatMap Piece.characters = e.javaScript.toList) :
    (partsPieces parts).flatMap Piece.characters = (partsJavaScript parts).toList := by
  induction parts with
  | nil => rfl
  | cons part parts ih =>
    cases part with
    | text content =>
      rw [partsPieces, partsJavaScript, List.flatMap_cons, ih h, String.toList_append]
      rfl
    | code e =>
      obtain ⟨he, hparts⟩ := List.forall_mem_cons.mp h
      simp only [partsPieces, partsJavaScript, List.flatMap_append, characters_marks, he,
        ih hparts, String.toList_append]

/-- The pieces are the emitted text. -/
theorem characters_pieces (e : Expr) :
    e.pieces.flatMap Piece.characters = e.javaScript.toList := by
  induction e using induction_children with
  | h e ih =>
    cases e with
    | number | boolean | nil | identifier =>
      simp [pieces, javaScript, characters_word]
    | text => simp [pieces, javaScript, characters_marks, Piece.characters, backticked]
    | binary left op right span =>
      have hleft := characters_enclosedIf left.isOperation (ih left (by simp [children]))
      have hright := characters_enclosedIf right.isOperation (ih right (by simp [children]))
      simp only [pieces, javaScript, List.flatMap_append, characters_marks, hleft, hright,
        String.toList_append, List.append_assoc]
    | unary op argument span =>
      have hargument :=
        characters_enclosedIf argument.isOperation (ih argument (by simp [children]))
      simp only [pieces, javaScript, List.flatMap_append, characters_marks, hargument,
        String.toList_append]
    | call callee arguments span =>
      have hcallee := characters_enclosedIf callee.isOperation (ih callee (by simp [children]))
      have harguments := characters_commas fun e he => ih e (List.mem_cons_of_mem callee he)
      simp only [pieces, javaScript, List.flatMap_append, characters_marks, hcallee,
        listPieces_eq, listJavaScript_eq, harguments, String.toList_append]
    | member base property computed span =>
      have hbase := characters_enclosedIf base.isOperation (ih base (by simp [children]))
      have hproperty := ih property (by simp [children])
      cases computed <;> simp only [pieces, javaScript, List.flatMap_append, characters_marks,
        hbase, hproperty, String.toList_append]
    | array elements span =>
      have helements := characters_commas ih
      simp only [children] at helements
      simp only [pieces, javaScript, List.flatMap_append, characters_marks,
        listPieces_eq, listJavaScript_eq, helements, String.toList_append]
    | object fields span =>
      have hfields : ∀ field ∈ fields,
          (word field.1 :: marks ": " ++ field.2.pieces).flatMap Piece.characters =
            (field.1 ++ ": " ++ field.2.javaScript).toList := by
        intro field hfield
        have hvalue := ih field.2 (List.mem_map_of_mem hfield)
        simp only [List.cons_append, List.flatMap_cons, List.flatMap_append, characters_word,
          characters_marks, hvalue, String.toList_append, List.append_assoc]
      simp only [pieces, javaScript, List.flatMap_append, characters_marks,
        fieldsPieces_eq, fieldsJavaScript_eq, characters_commas hfields, String.toList_append]
    | template parts span =>
      simp only [pieces, javaScript, List.flatMap_append, characters_marks,
        characters_partsPieces ih, backticked, String.toList_append]

end Expr

end Scriptwright
