import Scriptwright.Event

/-!
# Arguments of the command

The words of a command line are read from left to right. Options have a long name
after two dashes and some a letter after one; letters may be joined. An option with
a value takes it from the same word or else from the next one, which must not look
like an option. After two dashes alone every word is a target.

A word is bytes. The target may be any of them, but the value of an option has to be
a text.

Each option and the target may be given once. Asking for help or for the version
ends the reading, so what follows is not looked at.
-/

namespace Scriptwright.Command

structure Options where
  target : Option Bytes
  output : Option String
  recursive : Bool
  check : Bool
  level : Option Level
  deriving DecidableEq, Repr

/-- What the command is asked to do. -/
inductive Request where
  | help
  | version
  | run (options : Options)
  deriving DecidableEq, Repr

namespace Options

def none : Options := ⟨.none, .none, false, false, .none⟩

/-- The level that holds unless another one is asked for. -/
def logLevel (o : Options) : Level := o.level.getD .warn

-- Each of these gives nothing if the option has been given before, or if the value is none
-- that it can have.

def setTarget (o : Options) (word : Bytes) : Option Options :=
  if word = [] ∨ o.target.isSome then .none else some { o with target := some word }

def setOutput (o : Options) (value : Bytes) : Option Options :=
  if o.output.isSome then .none else value.text?.map fun text => { o with output := some text }

def setRecursive (o : Options) : Option Options :=
  if o.recursive then .none else some { o with recursive := true }

def setCheck (o : Options) : Option Options :=
  if o.check then .none else some { o with check := true }

def setLevel (o : Options) (value : Bytes) : Option Options :=
  if o.level.isSome then .none
  else (value.text?.bind Level.ofName?).map fun l => { o with level := some l }

end Options

/-- An option that has a value. -/
inductive Valued where
  | output | level
  deriving DecidableEq, Repr

def Valued.set : Valued → Options → Bytes → Option Options
  | output, o, value => o.setOutput value
  | level, o, value => o.setLevel value

/-- What a word asks for. -/
inductive Step where
  | stop (request : Request)
  | go (options : Options)
  /-- The value of the option is the next word. -/
  | awaits (option : Valued) (options : Options)

def dash : UInt8 := '-'.toUInt8

def equals : UInt8 := '='.toUInt8

/-- A dash alone is an ordinary word. -/
def looksLikeOption (word : Bytes) : Bool :=
  match word with
  | b :: _ :: _ => b == dash
  | _ => false

/-- The letters after a single dash. A letter with a value takes the rest of the word,
where an equals sign may come first. -/
def letters (o : Options) : Bytes → Option Step
  | [] => some (.go o)
  | b :: rest =>
    if b = 'h'.toUInt8 then some (.stop .help)
    else if b = 'V'.toUInt8 then some (.stop .version)
    else if b = 'r'.toUInt8 then o.setRecursive.bind fun o => letters o rest
    else if b = 'o'.toUInt8 then
      match rest with
      | [] => some (.awaits .output o)
      | c :: value => (o.setOutput (if c = equals then value else rest)).map .go
    else none

/-- The name after two dashes, and the value after an equals sign if there is one. -/
def longName (o : Options) (name : String) (value : Option Bytes) : Option Step :=
  match name, value with
  | "help", none => some (.stop .help)
  | "version", none => some (.stop .version)
  | "recursive", none => o.setRecursive.map .go
  | "check", none => o.setCheck.map .go
  | "output", some value => (o.setOutput value).map .go
  | "output", none => some (.awaits .output o)
  | "log-level", some value => (o.setLevel value).map .go
  | "log-level", none => some (.awaits .level o)
  | _, _ => none

/-- What stands after two dashes, cut at the first equals sign. -/
def long (o : Options) (bs : Bytes) : Option Step :=
  let name : Bytes := bs.takeWhile (· != equals)
  name.text?.bind fun text => longName o text (bs.drop name.length).tail?

/-- A word before two dashes alone. -/
def word (o : Options) (w : Bytes) : Option Step :=
  match w with
  | b :: c :: bs =>
    if b ≠ dash then (o.setTarget w).map .go
    else if c = dash then long o bs
    else letters o (c :: bs)
  | _ => (o.setTarget w).map .go

/-- The words after two dashes alone. -/
def targets (o : Options) : List Bytes → Option Request
  | [] => some (.run o)
  | w :: ws => (o.setTarget w).bind fun o => targets o ws

/-- The words that are left after some options have been read. -/
def readFrom (o : Options) : List Bytes → Option Request
  | [] => some (.run o)
  | w :: ws =>
    if w = [dash, dash] then targets o ws
    else
      match word o w, ws with
      | none, _ => none
      | some (.stop request), _ => some request
      | some (.go o), ws => readFrom o ws
      | some (.awaits _ _), [] => none
      | some (.awaits option o), value :: ws =>
        if looksLikeOption value then none
        else (option.set o value).bind fun o => readFrom o ws

/-- The request that the words of a command line make, if they make one. -/
def readArguments (words : List Bytes) : Option Request := readFrom .none words

end Scriptwright.Command
