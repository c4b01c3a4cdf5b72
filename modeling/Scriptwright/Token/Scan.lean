import Scriptwright.Token

/-!
# Cutting a text into tokens

A text is a sequence of gaps and lexemes. A gap is a blank character or a comment,
which runs from `//` up to the end of its line. A lexeme is the longest one that
begins at its place. Characters are read one by one, and offsets count the bytes
of their encoding.

Each reader below says how many characters a construct takes from the text that
follows its first character, so a lexeme and the text after it always make up
the text that was there.
-/

namespace Scriptwright

/-- The number of bytes that encode the characters. -/
def byteLength : List Char → Nat
  | [] => 0
  | c :: cs => c.utf8Size + byteLength cs

@[simp] theorem byteLength_nil : byteLength [] = 0 := rfl

@[simp] theorem byteLength_cons (c : Char) (cs : List Char) :
    byteLength (c :: cs) = c.utf8Size + byteLength cs := rfl

@[simp] theorem byteLength_append (cs ds : List Char) :
    byteLength (cs ++ ds) = byteLength cs + byteLength ds := by
  induction cs with
  | nil => simp
  | cons c cs ih => simp [ih, Nat.add_assoc]

theorem utf8ByteSize_ofList (cs : List Char) :
    (String.ofList cs).utf8ByteSize = byteLength cs := by
  induction cs with
  | nil => simp
  | cons c cs ih => simp [String.ofList_cons, ih]

/-- What can be wrong with the characters of a text. -/
inductive ScanFault where
  | unexpectedCharacter (c : Char)
  | unterminatedText
  | unterminatedTemplate
  | missingName
  | missingBrace
  deriving DecidableEq, Repr

namespace ScanFault

def code : ScanFault → String
  | unexpectedCharacter _ => "E0001"
  | unterminatedText => "E0002"
  | unterminatedTemplate => "E0003"
  | missingName => "E0004"
  | missingBrace => "E0004"

def message : ScanFault → String
  | unexpectedCharacter c => "Unexpected character: " ++ String.singleton c
  | unterminatedText => "Unterminated string."
  | unterminatedTemplate => "Unterminated template literal."
  | missingName => "Expected identifier in template interpolation"
  | missingBrace => "Expected \x7d after template interpolation"

end ScanFault

/-- A fault and the bytes it concerns. -/
structure ScanError where
  fault : ScanFault
  span : Span
  deriving DecidableEq, Repr

namespace Scan

def isBlank (c : Char) : Bool := c == ' ' || c == '\t' || c == '\r' || c == '\n'

/-- The blanks that may stand between the braces of an interpolation. -/
def isSpace (c : Char) : Bool := c == ' ' || c == '\t'

/-- A name begins with an ASCII letter or an underscore. -/
def isNameStart (c : Char) : Bool := c.isAlpha || c == '_'

/-- A name goes on with ASCII letters, digits and underscores. -/
def isNamePart (c : Char) : Bool := c.isAlphanum || c == '_'

/-- The name at the front of the characters; empty if there is none. -/
def leadingName (cs : List Char) : List Char :=
  match cs with
  | c :: _ => if isNameStart c then cs.takeWhile isNamePart else []
  | [] => []

/-- An operator or a punctuation mark that begins with `c`, and how many of the
following characters belong to it. -/
def symbol? (c : Char) (cs : List Char) : Option (Kind × Nat) :=
  let orLonger (short : Kind) (next : Char) (long : Kind) : Option (Kind × Nat) :=
    if cs.head? = some next then some (long, 1) else some (short, 0)
  match c with
  | '(' => some (.leftParen, 0)
  | ')' => some (.rightParen, 0)
  | '{' => some (.leftBrace, 0)
  | '}' => some (.rightBrace, 0)
  | '[' => orLonger .leftBracket ']' .emptyBrackets
  | ']' => some (.rightBracket, 0)
  | ',' => some (.comma, 0)
  | '.' => some (.dot, 0)
  | '-' => some (.minus, 0)
  | '+' => some (.plus, 0)
  | ';' => some (.semicolon, 0)
  | '*' => some (.star, 0)
  | '/' => some (.slash, 0)
  | ':' => some (.colon, 0)
  | '?' => some (.question, 0)
  | '!' => orLonger .bang '=' .notEqual
  | '=' => orLonger .equal '=' .equalEqual
  | '<' => orLonger .less '=' .lessEqual
  | '>' => orLonger .greater '=' .greaterEqual
  | _ => none

/-- The characters up to the first quote that no backslash escapes, or nothing if
there is no such quote. A backslash escapes whatever character follows it. -/
def quoted? : List Char → Option (List Char)
  | [] => none
  | '"' :: _ => some []
  | '\\' :: c :: cs => (quoted? cs).map ('\\' :: c :: ·)
  | c :: cs => (quoted? cs).map (c :: ·)

/-- The digits after a decimal point. A point that no digit follows is no part of
a number. -/
def fraction (cs : List Char) : List Char :=
  match cs with
  | '.' :: ds => ds.takeWhile Char.isDigit
  | _ => []

/-- The number that begins with the digit `c`. -/
def number (c : Char) (cs : List Char) : Binary64 × Nat :=
  let whole := cs.takeWhile Char.isDigit
  let places := fraction (cs.drop whole.length)
  (.ofDecimal (Nat.ofDigitChars 10 (c :: whole ++ places) 0) places.length,
    whole.length + if places = [] then 0 else places.length + 1)

/-- A name in braces, blanks around it allowed. The characters are those after the
brace at byte `opening`. -/
def interpolation (file opening : Nat) (cs : List Char) : Except ScanError (Segment × Nat) :=
  let before := cs.takeWhile isSpace
  let name := leadingName (cs.drop before.length)
  let start := opening + 1 + byteLength before
  let stop := start + byteLength name
  if name = [] then .error ⟨.missingName, ⟨file, opening, start⟩⟩
  else
    let taken := before.length + name.length
    let after := (cs.drop taken).takeWhile isSpace
    if (cs.drop (taken + after.length)).head? = some '}' then
      .ok (.name (String.ofList name) ⟨file, start, stop⟩, taken + after.length + 1)
    else .error ⟨.missingBrace, ⟨file, opening, stop + byteLength after⟩⟩

def isTemplateText (c : Char) : Bool := c != '`' && c != '{'

/-- The text before an interpolation or the end of a template is a segment unless
it is empty. -/
def textSegment (content : List Char) : List Segment :=
  if content = [] then [] else [.text (String.ofList content)]

/-- The segments of the template that opened at byte `opening`, from the characters
at byte `offset` to the closing backtick, and how many characters they take, that
backtick included. -/
def templateSegments (file opening offset : Nat) (cs : List Char) :
    Except ScanError (List Segment × Nat) :=
  let content := cs.takeWhile isTemplateText
  match _h : cs.drop content.length with
  | '{' :: inner =>
    let brace := offset + byteLength content
    match interpolation file brace inner with
    | .error e => .error e
    | .ok (segment, n) =>
      let resume := brace + 1 + byteLength (inner.take n)
      match templateSegments file opening resume (inner.drop n) with
      | .error e => .error e
      | .ok (segments, m) =>
        .ok (textSegment content ++ segment :: segments, content.length + 1 + n + m)
  | '`' :: _ => .ok (textSegment content, content.length + 1)
  | _ => .error ⟨.unterminatedTemplate, ⟨file, opening, offset + byteLength cs⟩⟩
termination_by cs.length
decreasing_by
  have := congrArg List.length _h
  simp only [List.length_drop, List.length_cons] at this ⊢
  omega

/-- The lexeme that begins with `c` at byte `offset`: its kind, its value and how
many of the characters after `c` belong to it. -/
def lexeme (file offset : Nat) (c : Char) (cs : List Char) :
    Except ScanError (Kind × Value × Nat) :=
  if c = '"' then
    match quoted? cs with
    | some content => .ok (.text, .text (String.ofList content), content.length + 1)
    | none => .error ⟨.unterminatedText, ⟨file, offset, offset + byteLength (c :: cs)⟩⟩
  else if c = '`' then
    match templateSegments file offset (offset + 1) cs with
    | .error e => .error e
    | .ok (segments, n) =>
      .ok (.template, .template (if segments = [] then [.text ""] else segments), n)
  else if c.isDigit then
    let (value, n) := number c cs
    .ok (.number, .number value, n)
  else if isNameStart c then
    let rest := cs.takeWhile isNamePart
    let kind := match Keyword.ofSpelling? (String.ofList (c :: rest)) with
      | some word => .keyword word
      | none => .identifier
    .ok (kind, .none, rest.length)
  else
    match symbol? c cs with
    | some (kind, n) => .ok (kind, .none, n)
    | none => .error ⟨.unexpectedCharacter c, ⟨file, offset, offset + c.utf8Size⟩⟩

/-- The tokens of the characters that begin at byte `offset`. -/
def tokens (file offset : Nat) (cs : List Char) : Except ScanError (List Token) :=
  match cs with
  | [] => .ok [.finish file offset]
  | c :: cs =>
    if isBlank c then tokens file (offset + c.utf8Size) cs
    else if c = '/' ∧ cs.head? = some '/' then
      let comment := cs.takeWhile (· != '\n')
      tokens file (offset + byteLength (c :: comment)) (cs.drop comment.length)
    else
      match lexeme file offset c cs with
      | .error e => .error e
      | .ok (kind, value, n) =>
        let characters := c :: cs.take n
        let stop := offset + byteLength characters
        match tokens file stop (cs.drop n) with
        | .error e => .error e
        | .ok later =>
          .ok (⟨kind, String.ofList characters, value, ⟨file, offset, stop⟩⟩ :: later)
termination_by cs.length
decreasing_by all_goals simp only [List.length_drop, List.length_cons]; omega

end Scan

/-- The tokens of a text, closed by one `endOfText` token, or its first fault. -/
def scan (file : Nat) (text : String) : Except ScanError (List Token) :=
  Scan.tokens file 0 text.toList

end Scriptwright
