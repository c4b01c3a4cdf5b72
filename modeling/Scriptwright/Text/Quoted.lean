import Scriptwright.Text.Shapeless

/-!
# Quoted text

A text in double quotes, written so that it fits on one line and every character
in it can be seen. Quotes and backslashes get a backslash, the usual controls have
a letter, and any other character without a shape is given by its number.
-/

namespace Scriptwright.Text

def quoteChar (c : Char) : List Char :=
  match c with
  | '\x00' => ['\\', '0']
  | '\t' => ['\\', 't']
  | '\r' => ['\\', 'r']
  | '\n' => ['\\', 'n']
  | '"' => ['\\', '"']
  | '\\' => ['\\', '\\']
  | c =>
    if isShapeless c then ['\\', 'u', '{'] ++ Nat.toDigits 16 c.toNat ++ ['}']
    else [c]

def quote (text : String) : String :=
  String.ofList ('"' :: text.toList.flatMap quoteChar ++ ['"'])

end Scriptwright.Text
