import Scriptwright.Error

/-!
# Reports of failure

What the command says when it fails: what it was about, and the causes from the
outermost to the innermost. Several causes are numbered.
-/

namespace Scriptwright.Command

structure Report where
  message : String
  causes : List String
  deriving DecidableEq, Repr

namespace Report

def plain (message : String) : Report := ⟨message, []⟩

def ofError (e : Error) : Report := ⟨e.text, e.causes⟩

/-- An error met while doing what the message says. -/
def whileDoing (message : String) (e : Error) : Report := ⟨message, e.text :: e.causes⟩

def ofFault (message : String) (fault : FileFault) : Report := ⟨message, fault.messages⟩

/-- Puts blanks in front of every line but the first. -/
def indentFollowing (width : Nat) (text : String) : String :=
  String.ofList (text.toList.flatMap fun c =>
    if c = '\n' then c :: List.replicate width ' ' else [c])

/-- A cause with its number, which ends in the fifth column. -/
def numbered (number : Nat) (cause : String) : String :=
  "\n" ++ String.ofList ((Nat.toDigits 10 number).leftpad 5 ' ') ++ ": " ++ indentFollowing 7 cause

def numberedFrom (number : Nat) : List String → String
  | [] => ""
  | cause :: causes => numbered number cause ++ numberedFrom (number + 1) causes

def renderCauses : List String → String
  | [] => ""
  | [cause] => "\n\nCaused by:\n    " ++ indentFollowing 4 cause
  | causes => "\n\nCaused by:" ++ numberedFrom 0 causes

def render (r : Report) : String := "Error: " ++ r.message ++ renderCauses r.causes ++ "\n"

end Report

end Scriptwright.Command
