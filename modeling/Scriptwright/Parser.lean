import Scriptwright.Token

/-!
# Reading tokens

A parser takes tokens from the front of a list and leaves the rest. The list holds
no `endOfText` token: where it ends, the text ends. That the rest is an end of the
given list is part of a parser's result, so a loop that takes a token in each
round is seen to stop.

A parser that fails says what it expected and which tokens remained there. The
place and the wording of the report follow from these.
-/

namespace Scriptwright

/-- The number of blocks, expressions, type expressions and operators with one
operand that may stand inside each other. -/
def nestingLimit : Nat := 128

/-- What may be missing at a place. -/
inductive Expectation where
  | declaration | typeName | typeEquals
  | functionName | functionEquals | parametersOpen | parameterName | parametersClose | bodyOpen
  | typeExpr | propertyName | propertyColon | interfaceClose
  | blockClose
  | conditionName | condition | thenOpen | elseOpen
  | whileOpen | initializerEnd | conditionEnd | forOpen
  | assignedName | assignedEquals
  | indexClose | memberName | argumentsClose | groupClose
  | expression | literal | elementsClose | objectClose
  deriving DecidableEq, Repr

namespace Expectation

/-- What is reported where something else was found. -/
def message (found : String) : Expectation → String
  | declaration => "Expected type or function declaration"
  | typeName => "Expected identifier after \"type\" keyword"
  | typeEquals => "Expected \"=\" after identifier"
  | functionName => "Expected function name, got " ++ found
  | functionEquals => "Expected = after function name, got " ++ found
  | parametersOpen => "Expected \x7b before function parameters, got " ++ found
  | parameterName => "Expected parameter name, got " ++ found
  | parametersClose => "Expected \x7d after function parameters, got " ++ found
  | bodyOpen => "Expected \x7b before function body, got " ++ found
  | typeExpr => "Expected type name"
  | propertyName => "Expected property name, got " ++ found
  | propertyColon => "Expected : after property name"
  | interfaceClose => "Expected \x7d after interface type"
  | blockClose => "Expected \"\x7d\" after a block"
  | conditionName => "Expected identifier for if condition"
  | condition => "If condition must be a boolean expression."
  | thenOpen => "Expected \"\x7b\" after if condition, before then branch"
  | elseOpen => "Expected \"\x7b\" after \"else\" keyword, before else branch"
  | whileOpen => "Expected \"\x7b\" after \"while\" condition"
  | initializerEnd => "Expected \";\" after initializer for for loop, got " ++ found
  | conditionEnd => "Expected \";\" after condition for for loop, got " ++ found
  | forOpen => "Expected \"\x7b\" after increment for for loop, got " ++ found
  | assignedName => "Expected identifier, got " ++ found
  | assignedEquals => "Expect \"=\" after identifier."
  | indexClose => "Expect \"]\" after array index."
  | memberName => "Expect property name after \".\""
  | argumentsClose => "Expect \")\" after arguments."
  | groupClose => "Expect \")\" after expression."
  | expression => "Expect expression."
  | literal => "Expect literal."
  | elementsClose => "Expect \"]\" after array elements."
  | objectClose => "Expected \x7d after object literal"

end Expectation

/-- What can be wrong with the tokens of a text. -/
inductive SyntaxFault where
  | expected (what : Expectation)
  /-- A third operand that is not in parentheses. -/
  | ambiguousChain
  | signatureWithoutFunction
  | signatureNameMismatch
  | nestingTooDeep
  deriving DecidableEq, Repr

namespace SyntaxFault

def code : SyntaxFault → String
  | expected _ => "E0100"
  | signatureWithoutFunction => "E0100"
  | ambiguousChain => "E0101"
  | signatureNameMismatch => "E0102"
  | nestingTooDeep => "E0103"

def message (found : String) : SyntaxFault → String
  | expected what => what.message found
  | ambiguousChain =>
    "You must use parentheses when combining more than 2 terms (e.g. \"1 + (2 * 3)\")"
  | signatureWithoutFunction => "Expected function declaration after type declaration"
  | signatureNameMismatch => "Expected function name to match type name"
  | nestingTooDeep => "Nesting exceeds " ++ Nat.repr nestingLimit ++ " levels"

end SyntaxFault

/-- Why and where a parser gives up. -/
inductive Failure where
  /-- The fault lies in the first of the remaining tokens. -/
  | here (fault : SyntaxFault) (rest : List Token)
  /-- The fault lies in tokens that have been read. -/
  | over (fault : SyntaxFault) (span : Span)
  deriving DecidableEq, Repr

/-- A value read from the front of `input`, and what is left of it. -/
structure Parsed (α : Type) (input : List Token) where
  value : α
  rest : List Token
  suffix : rest <:+ input

/-- A reader of tokens. -/
def Parser (α : Type) : Type := (input : List Token) → Except Failure (Parsed α input)

namespace Parser
variable {α β γ : Type}

protected def pure (a : α) : Parser α := fun input => .ok ⟨a, input, List.suffix_refl input⟩

protected def bind (p : Parser α) (f : α → Parser β) : Parser β := fun input =>
  match p input with
  | .error e => .error e
  | .ok r =>
    match f r.value r.rest with
    | .error e => .error e
    | .ok s => .ok ⟨s.value, s.rest, s.suffix.trans r.suffix⟩

instance : Monad Parser where
  pure := Parser.pure
  bind := Parser.bind

/-- Fails at the next token. -/
def fail (fault : SyntaxFault) : Parser α := fun input => .error (.here fault input)

/-- Fails over what has been read. -/
def failOver (fault : SyntaxFault) (span : Span) : Parser α := fun _ => .error (.over fault span)

/-- Fails at the token `t`, which was the last one taken. -/
def refuse (t : Token) (what : Expectation) : Parser α :=
  fun input => .error (.here (.expected what) (t :: input))

/-- Takes the next token, whatever it is. -/
def any (what : Expectation) : Parser Token
  | [] => .error (.here (.expected what) [])
  | t :: rest => .ok ⟨t, rest, List.suffix_cons t rest⟩

/-- Takes the next token, which has to be of the given kind. -/
def take (kind : Kind) (what : Expectation) : Parser Token
  | [] => .error (.here (.expected what) [])
  | t :: rest =>
    if t.kind = kind then .ok ⟨t, rest, List.suffix_cons t rest⟩
    else .error (.here (.expected what) (t :: rest))

/-- Whether the next token is of the given kind. It is not taken. -/
def nextIs (kind : Kind) : Parser Bool := fun input =>
  .ok ⟨input.head?.any (·.kind = kind), input, List.suffix_refl input⟩

/-- Takes the next token if it is of the given kind. -/
def accept (kind : Kind) : Parser Bool
  | [] => .ok ⟨false, [], List.suffix_refl []⟩
  | t :: rest =>
    if t.kind = kind then .ok ⟨true, rest, List.suffix_cons t rest⟩
    else .ok ⟨false, t :: rest, List.suffix_refl (t :: rest)⟩

/-- As long as `select` wants the next token, takes it and goes on with `step`. -/
def extend (select : Token → Option γ) (step : β → γ → Parser β) (state : β)
    (input : List Token) : Except Failure (Parsed β input) :=
  match input with
  | [] => .ok ⟨state, [], List.suffix_refl []⟩
  | t :: rest =>
    match select t with
    | none => .ok ⟨state, t :: rest, List.suffix_refl (t :: rest)⟩
    | some c =>
      match step state c rest with
      | .error e => .error e
      | .ok r =>
        match extend select step r.value r.rest with
        | .error e => .error e
        | .ok s => .ok ⟨s.value, s.rest, s.suffix.trans (r.suffix.trans (List.suffix_cons t rest))⟩
termination_by input.length
decreasing_by
  have := r.suffix.length_le
  simp only [List.length_cons]
  omega

def comma? (t : Token) : Option Unit := if t.kind = .comma then some () else none

/-- Items with commas between them, none at all if the next token is a `close`. -/
def commaList (close : Kind) (item : Parser α) : Parser (List α) := do
  if ← nextIs close then return []
  let first ← item
  let items ← extend comma? (fun items _ => do return (← item) :: items) [first]
  return items.reverse

end Parser

end Scriptwright
