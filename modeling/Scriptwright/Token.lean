import Scriptwright.Binary64
import Scriptwright.Span

/-!
# Tokens

A token is a lexeme of the source with its kind, its span and, for literals, the
value it denotes. A list of tokens ends at its first `endOfText` token.
-/

namespace Scriptwright

/-- The words that cannot name anything. -/
inductive Keyword where
  | andWord | elseWord | falseWord | forWord | funcWord | ifWord | inWord | importWord
  | nilWord | orWord | returnWord | testWord | trueWord | typeWord | whileWord
  deriving DecidableEq, Repr

namespace Keyword

def spelling : Keyword → String
  | andWord => "and"
  | elseWord => "else"
  | falseWord => "false"
  | forWord => "for"
  | funcWord => "func"
  | ifWord => "if"
  | inWord => "in"
  | importWord => "import"
  | nilWord => "nil"
  | orWord => "or"
  | returnWord => "return"
  | testWord => "test"
  | trueWord => "true"
  | typeWord => "type"
  | whileWord => "while"

def all : List Keyword :=
  [andWord, elseWord, falseWord, forWord, funcWord, ifWord, inWord, importWord,
    nilWord, orWord, returnWord, testWord, trueWord, typeWord, whileWord]

/-- The keyword with the given spelling. Case matters. -/
def ofSpelling? (word : String) : Option Keyword := all.find? (·.spelling == word)

end Keyword

/-- What a token is, whatever it denotes. -/
inductive Kind where
  | leftParen | rightParen | leftBrace | rightBrace | leftBracket | rightBracket
  | comma | dot | minus | plus | semicolon | slash | star | colon | question
  | bang | notEqual | equal | equalEqual | greater | greaterEqual | less | lessEqual
  /-- The two characters `[]` with nothing between them. -/
  | emptyBrackets
  | identifier | text | template | number
  | keyword (word : Keyword)
  | endOfText
  deriving DecidableEq, Repr

/-- A piece of a template literal. -/
inductive Segment where
  | text (content : String)
  /-- A name to be replaced by its value; the span is that of the name alone. -/
  | name (name : String) (span : Span)
  deriving DecidableEq, Repr

/-- What a literal token denotes. -/
inductive Value where
  | none
  | number (value : Binary64)
  /-- The characters between the quotes, escapes left as they are written. -/
  | text (content : String)
  | template (segments : List Segment)
  deriving DecidableEq, Repr

structure Token where
  kind : Kind
  lexeme : String
  value : Value
  span : Span
  deriving DecidableEq, Repr

namespace Token

/-- The token that closes the list of tokens of a text. -/
def finish (file offset : Nat) : Token := ⟨.endOfText, "", .none, .point file offset⟩

/-- The pieces of a template token; other tokens have none. -/
def segments (t : Token) : List Segment :=
  match t.value with
  | .template segments => segments
  | _ => []

end Token

end Scriptwright
