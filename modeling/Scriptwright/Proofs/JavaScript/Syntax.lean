import Scriptwright.Expr
import Scriptwright.Token.Scan

/-!
# The expressions of JavaScript

How JavaScript reads an expression. Outside the text of a template the characters are
cut into names, numbers and signs, blanks between them left out, and a sign is the
longest one that stands at its place. Operators with two operands have six levels of
precedence, and those of one level are taken from the left. Operators with one operand
come next, then calls and accesses.

A reading is a relation between characters and trees. It says which characters a phrase
takes and which it leaves, and a phrase may end at any place. Only the reading of a
whole text has to take all of it.
-/

namespace Scriptwright.JavaScript

mutual

/-- What an expression of JavaScript says, parentheses and layout left out. -/
inductive Tree where
  | name (spelling : String)
  | number (value : Binary64)
  | binary (left : Tree) (op : BinaryOp) (right : Tree)
  | unary (op : UnaryOp) (argument : Tree)
  | call (callee : Tree) (arguments : List Tree)
  | member (object property : Tree) (computed : Bool)
  | array (elements : List Tree)
  | object (fields : List (String × Tree))
  | template (parts : List Part)

inductive Part where
  | text (content : String)
  | code (value : Tree)

end

inductive Lexical where
  | name (spelling : String)
  | number (value : Binary64)
  | sign (spelling : String)
  deriving DecidableEq

def isBlank (c : Char) : Bool := c == ' ' || c == '\t' || c == '\r' || c == '\n'

def isNameStart (c : Char) : Bool := c.isAlpha || c == '_' || c == '$'

def isNamePart (c : Char) : Bool := c.isAlphanum || c == '_' || c == '$'

/-- The signs of the language, longer ones first. -/
def signs : List String :=
  [">>>=",
    "...", "===", "!==", "**=", "<<=", ">>=", ">>>", "&&=", "||=", "??=",
    "=>", "==", "!=", "<=", ">=", "&&", "||", "??", "?.", "++", "--", "+=", "-=", "*=", "/=",
    "%=", "&=", "|=", "^=", "<<", ">>", "**",
    "\x7b", "\x7d", "(", ")", "[", "]", ".", ";", ",", "<", ">", "+", "-", "*", "/", "%", "&",
    "|", "^", "!", "~", "?", ":", "=", "`"]

/-- The sign at the front and the characters behind it. -/
def leadingSign? (cs : List Char) : Option (Lexical × List Char) :=
  (signs.find? fun s => s.toList.isPrefixOf cs).map fun s => (.sign s, cs.drop s.length)

/-- The first token and the characters behind it. -/
def next? (cs : List Char) : Option (Lexical × List Char) :=
  match cs.dropWhile isBlank with
  | [] => none
  | c :: cs =>
    if isNameStart c then
      some (.name (String.ofList (c :: cs.takeWhile isNamePart)), cs.dropWhile isNamePart)
    else if c.isDigit then
      some (.number (Scan.number c cs).1, cs.drop (Scan.number c cs).2)
    else leadingSign? (c :: cs)

/-- One character of the text of a template and the characters behind it. A backslash
stands before a backtick or a dollar that is part of the text. -/
def textCharacter? : List Char → Option (Char × List Char)
  | '\\' :: '`' :: cs => some ('`', cs)
  | '\\' :: '$' :: cs => some ('$', cs)
  | '\\' :: _ | '`' :: _ | '$' :: '{' :: _ | [] => none
  | c :: cs => some (c, cs)

/-- A character more in front of the parts of a template. -/
def Part.push (c : Char) : List Part → List Part
  | .text content :: parts => .text (String.ofList (c :: content.toList)) :: parts
  | parts => .text (String.singleton c) :: parts

def binarySign? (spelling : String) : Option BinaryOp :=
  match spelling with
  | "||" => some .or
  | "&&" => some .and
  | "==" => some .eq
  | "!=" => some .notEq
  | "<" => some .less
  | "<=" => some .lessEq
  | ">" => some .greater
  | ">=" => some .greaterEq
  | "+" => some .add
  | "-" => some .sub
  | "*" => some .mul
  | "/" => some .div
  | _ => none

/-- Operators of a higher level bind tighter. -/
def level : BinaryOp → Nat
  | .or => 0
  | .and => 1
  | .eq | .notEq => 2
  | .less | .lessEq | .greater | .greaterEq => 3
  | .add | .sub => 4
  | .mul | .div => 5

def unarySign? (spelling : String) : Option UnaryOp :=
  match spelling with
  | "-" => some .neg
  | "!" => some .not
  | _ => none

mutual

/-- `ReadsChain k cs rest t`: the characters `cs` begin with an expression `t` whose
operators outside parentheses have level `k` or higher, and `rest` is behind it. -/
inductive ReadsChain : Nat → List Char → List Char → Tree → Prop
  | operand {cs rest t} (h : ReadsUnary cs rest t) : ReadsChain 6 cs rest t
  | chain {k cs middle rest first t} (hk : k < 6) (hfirst : ReadsChain (k + 1) cs middle first)
      (hlinks : ReadsLinks k first middle rest t) : ReadsChain k cs rest t

/-- Further operands of a chain that has been read up to `left`. -/
inductive ReadsLinks : Nat → Tree → List Char → List Char → Tree → Prop
  | stop {k left cs} : ReadsLinks k left cs cs left
  | link {k left spelling op cs after middle rest right t}
      (hsign : next? cs = some (.sign spelling, after)) (hop : binarySign? spelling = some op)
      (hk : level op = k) (hright : ReadsChain (k + 1) after middle right)
      (hlinks : ReadsLinks k (.binary left op right) middle rest t) : ReadsLinks k left cs rest t

inductive ReadsUnary : List Char → List Char → Tree → Prop
  | sign {spelling op cs after rest t} (hsign : next? cs = some (.sign spelling, after))
      (hop : unarySign? spelling = some op) (h : ReadsUnary after rest t) :
      ReadsUnary cs rest (.unary op t)
  | operand {cs middle rest head t} (hhead : ReadsPrimary cs middle head)
      (htrailers : ReadsTrailers head middle rest t) : ReadsUnary cs rest t

/-- Calls and accesses behind an operand that has been read up to `base`. -/
inductive ReadsTrailers : Tree → List Char → List Char → Tree → Prop
  | stop {base cs} : ReadsTrailers base cs cs base
  | call {base cs after middle rest arguments t} (hopen : next? cs = some (.sign "(", after))
      (harguments : ReadsItems ")" after middle arguments)
      (hmore : ReadsTrailers (.call base arguments) middle rest t) : ReadsTrailers base cs rest t
  | index {base cs after inner middle rest property t} (hopen : next? cs = some (.sign "[", after))
      (hproperty : ReadsChain 0 after inner property)
      (hclose : next? inner = some (.sign "]", middle))
      (hmore : ReadsTrailers (.member base property true) middle rest t) :
      ReadsTrailers base cs rest t
  | access {base cs after middle rest spelling t} (hdot : next? cs = some (.sign ".", after))
      (hname : next? after = some (.name spelling, middle))
      (hmore : ReadsTrailers (.member base (.name spelling) false) middle rest t) :
      ReadsTrailers base cs rest t

inductive ReadsPrimary : List Char → List Char → Tree → Prop
  | name {cs rest spelling} (h : next? cs = some (.name spelling, rest)) :
      ReadsPrimary cs rest (.name spelling)
  | number {cs rest value} (h : next? cs = some (.number value, rest)) :
      ReadsPrimary cs rest (.number value)
  | group {cs after inner rest t} (hopen : next? cs = some (.sign "(", after))
      (h : ReadsChain 0 after inner t) (hclose : next? inner = some (.sign ")", rest)) :
      ReadsPrimary cs rest t
  | array {cs after rest elements} (hopen : next? cs = some (.sign "[", after))
      (h : ReadsItems "]" after rest elements) : ReadsPrimary cs rest (.array elements)
  | object {cs after rest fields} (hopen : next? cs = some (.sign "\x7b", after))
      (h : ReadsFields after rest fields) : ReadsPrimary cs rest (.object fields)
  | template {cs after rest parts} (hopen : next? cs = some (.sign "`", after))
      (h : ReadsParts after rest parts) : ReadsPrimary cs rest (.template parts)

/-- Expressions with commas between them, up to the sign that closes the list. -/
inductive ReadsItems : String → List Char → List Char → List Tree → Prop
  | none {close cs rest} (hclose : next? cs = some (.sign close, rest)) :
      ReadsItems close cs rest []
  | some {close cs middle rest t ts} (h : ReadsChain 0 cs middle t)
      (hmore : ReadsMoreItems close middle rest ts) : ReadsItems close cs rest (t :: ts)

inductive ReadsMoreItems : String → List Char → List Char → List Tree → Prop
  | none {close cs rest} (hclose : next? cs = some (.sign close, rest)) :
      ReadsMoreItems close cs rest []
  | some {close cs after middle rest t ts} (hcomma : next? cs = some (.sign ",", after))
      (h : ReadsChain 0 after middle t) (hmore : ReadsMoreItems close middle rest ts) :
      ReadsMoreItems close cs rest (t :: ts)

/-- The fields of an object up to its closing brace. -/
inductive ReadsFields : List Char → List Char → List (String × Tree) → Prop
  | none {cs rest} (hclose : next? cs = some (.sign "\x7d", rest)) : ReadsFields cs rest []
  | some {cs middle rest field fields} (h : ReadsField cs middle field)
      (hmore : ReadsMoreFields middle rest fields) : ReadsFields cs rest (field :: fields)

inductive ReadsMoreFields : List Char → List Char → List (String × Tree) → Prop
  | none {cs rest} (hclose : next? cs = some (.sign "\x7d", rest)) : ReadsMoreFields cs rest []
  | some {cs after middle rest field fields} (hcomma : next? cs = some (.sign ",", after))
      (h : ReadsField after middle field) (hmore : ReadsMoreFields middle rest fields) :
      ReadsMoreFields cs rest (field :: fields)

inductive ReadsField : List Char → List Char → String × Tree → Prop
  | field {cs after inner rest spelling t} (hname : next? cs = some (.name spelling, after))
      (hcolon : next? after = some (.sign ":", inner)) (h : ReadsChain 0 inner rest t) :
      ReadsField cs rest (spelling, t)

/-- The parts of a template up to its closing backtick. -/
inductive ReadsParts : List Char → List Char → List Part → Prop
  | close {cs rest} (h : cs = '`' :: rest) : ReadsParts cs rest []
  | character {cs after rest c parts} (hc : textCharacter? cs = some (c, after))
      (hmore : ReadsParts after rest parts) : ReadsParts cs rest (Part.push c parts)
  | code {cs after inner middle rest t parts} (hopen : cs = '$' :: '{' :: after)
      (h : ReadsChain 0 after inner t) (hclose : next? inner = some (.sign "\x7d", middle))
      (hmore : ReadsParts middle rest parts) : ReadsParts cs rest (.code t :: parts)

end

/-- A whole text is read as an expression if nothing but blanks is left. -/
def Reading (text : String) (t : Tree) : Prop :=
  ∃ rest, ReadsChain 0 text.toList rest t ∧ ∀ c ∈ rest, isBlank c = true

end Scriptwright.JavaScript
