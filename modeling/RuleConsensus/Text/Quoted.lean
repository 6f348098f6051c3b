import RuleConsensus.Text.Printable

/-!
Texts in quotes, for messages that quote a text. Quotes and backslashes get a backslash, line
breaks and tabs their letter, and a hidden character its code in braces.
-/

set_option autoImplicit false
set_option relaxedAutoImplicit false

namespace RuleConsensus.Text

def quotedChar (c : Char) : List Char :=
  match c with
  | '"' => ['\\', '"']
  | '\\' => ['\\', '\\']
  | '\n' => ['\\', 'n']
  | '\r' => ['\\', 'r']
  | '\t' => ['\\', 't']
  | '\x00' => ['\\', '0']
  | _ =>
    if isShown c then [c] else '\\' :: 'u' :: '\x7b' :: (Nat.toDigits 16 c.toNat ++ ['\x7d'])

def quoted (s : String) : String :=
  String.ofList ('"' :: (s.toList.flatMap quotedChar ++ ['"']))

end RuleConsensus.Text
