import RuleConsensus.Decimal.Numeral

/-!
The tokens of a document and their characters. A quoted text is kept as it was written, unit by
unit, because an escape may name half of a surrogate pair: such a text is well formed, but it
decodes to characters only if its halves meet.
-/

set_option autoImplicit false
set_option relaxedAutoImplicit false

namespace RuleConsensus.Json

/-- One unit of a quoted text: a character, or half of a surrogate pair. -/
inductive TextUnit
  | char (c : Char)
  | half (code : Nat)
  deriving DecidableEq, Repr

abbrev Text := List TextUnit

/-- The tokens of a document. A token that cannot be read is `broken`, and nothing follows it. -/
inductive Token
  | openBracket | closeBracket | openBrace | closeBrace | comma | colon
  | null | yes | no
  | number (n : Numeral)
  | text (t : Text)
  | broken
  deriving DecidableEq, Repr

namespace Text

def ofString (s : String) : Text := s.toList.map .char

/-- The characters of a text, if every first half is followed by a second one. -/
def chars? : Text → Option (List Char)
  | [] => some []
  | .char c :: t => (chars? t).map (c :: ·)
  | .half a :: .half b :: t =>
    if a < 0xDC00 && 0xDC00 ≤ b then
      (chars? t).map (Char.ofNat (0x10000 + (a - 0xD800) * 0x400 + (b - 0xDC00)) :: ·)
    else none
  | .half _ :: _ => none

def toString? (t : Text) : Option String := (chars? t).map String.ofList

end Text

def hexDigits (code : Nat) : List Char :=
  let digits := Nat.toDigits 16 code
  List.replicate (4 - digits.length) '0' ++ digits

def TextUnit.chars : TextUnit → List Char
  | .half code => '\\' :: 'u' :: hexDigits code
  | .char '"' => ['\\', '"']
  | .char '\\' => ['\\', '\\']
  | .char '\n' => ['\\', 'n']
  | .char '\r' => ['\\', 'r']
  | .char '\t' => ['\\', 't']
  | .char c => if c.toNat < 0x20 then '\\' :: 'u' :: hexDigits c.toNat else [c]

/-- The characters of a token. A broken token has none. -/
def Token.chars : Token → List Char
  | .openBracket => ['[']
  | .closeBracket => [']']
  | .openBrace => ['\x7b']
  | .closeBrace => ['\x7d']
  | .comma => [',']
  | .colon => [':']
  | .null => ['n', 'u', 'l', 'l']
  | .yes => ['t', 'r', 'u', 'e']
  | .no => ['f', 'a', 'l', 's', 'e']
  | .number n => n.chars
  | .text t => '"' :: (t.flatMap TextUnit.chars ++ ['"'])
  | .broken => []

end RuleConsensus.Json
