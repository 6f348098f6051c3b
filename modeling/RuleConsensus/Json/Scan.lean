import RuleConsensus.Json.Token

/-!
From characters to tokens. Blanks between tokens are dropped, and the first place where no token
can be read gives a broken token. A number keeps its digits, so that a reader can tell `1` from
`1.0`.
-/

set_option autoImplicit false
set_option relaxedAutoImplicit false

namespace RuleConsensus.Json

def isBlank (c : Char) : Bool :=
  c == ' ' || c == '\t' || c == '\n' || c == '\r'

def hexValue? (c : Char) : Option Nat :=
  if '0' ≤ c && c ≤ '9' then some (c.toNat - '0'.toNat)
  else if 'a' ≤ c && c ≤ 'f' then some (c.toNat - 'a'.toNat + 10)
  else if 'A' ≤ c && c ≤ 'F' then some (c.toNat - 'A'.toNat + 10)
  else none

def hexUnit? (a b c d : Char) : Option TextUnit := do
  let code := 4096 * (← hexValue? a) + 256 * (← hexValue? b) + 16 * (← hexValue? c)
    + (← hexValue? d)
  pure (if 0xD800 ≤ code && code < 0xE000 then .half code else .char (Char.ofNat code))

def escaped? : Char → Option Char
  | '"' => some '"'
  | '\\' => some '\\'
  | '/' => some '/'
  | 'b' => some '\x08'
  | 'f' => some '\x0c'
  | 'n' => some '\n'
  | 'r' => some '\r'
  | 't' => some '\t'
  | _ => none

/-- Read a text up to its closing quote; its opening quote has been read. -/
def text? : List Char → Option (Text × List Char)
  | [] => none
  | '"' :: rest => some ([], rest)
  | '\\' :: 'u' :: a :: b :: c :: d :: rest => do
    let unit ← hexUnit? a b c d
    let (t, rest) ← text? rest
    pure (unit :: t, rest)
  | '\\' :: e :: rest => do
    let c ← escaped? e
    let (t, rest) ← text? rest
    pure (.char c :: t, rest)
  | c :: rest => do
    if c.toNat < 0x20 || c == '\\' then none
    let (t, rest) ← text? rest
    pure (.char c :: t, rest)

def digits (cs : List Char) : List Char × List Char :=
  (cs.takeWhile Char.isDigit, cs.dropWhile Char.isDigit)

theorem digits_append (cs : List Char) : (digits cs).1 ++ (digits cs).2 = cs := by
  simp [digits]

theorem isDigit_of_mem_digits {cs : List Char} {c : Char} (h : c ∈ (digits cs).1) :
    c.isDigit = true :=
  List.all_eq_true.mp List.all_takeWhile c h

def digits? (cs : List Char) : Option (List Char × List Char) :=
  if (digits cs).1.isEmpty then none else some (digits cs)

def whole? : List Char → Option (List Char × List Char)
  | '0' :: rest => if (digits rest).1.isEmpty then some (['0'], rest) else none
  | cs => digits? cs

def fraction? : List Char → Option (List Char × List Char)
  | '.' :: rest => digits? rest
  | cs => some ([], cs)

def exponentSign : List Char → ExponentSign × List Char
  | '+' :: rest => (.plus, rest)
  | '-' :: rest => (.minus, rest)
  | cs => (.none, cs)

def exponent? : List Char → Option (Option (ExponentSign × List Char) × List Char)
  | 'e' :: rest => do
    let (size, after) ← digits? (exponentSign rest).2
    pure (some ((exponentSign rest).1, size), after)
  | 'E' :: rest => do
    let (size, after) ← digits? (exponentSign rest).2
    pure (some ((exponentSign rest).1, size), after)
  | cs => some (none, cs)

def unsigned? (negative : Bool) (cs : List Char) : Option (Numeral × List Char) := do
  let (whole, cs) ← whole? cs
  let (fraction, cs) ← fraction? cs
  let (exponent, cs) ← exponent? cs
  pure (⟨negative, whole, fraction, exponent⟩, cs)

def number? : List Char → Option (Numeral × List Char)
  | '-' :: rest => unsigned? true rest
  | cs => unsigned? false cs

def token? : List Char → Option (Token × List Char)
  | '[' :: rest => some (.openBracket, rest)
  | ']' :: rest => some (.closeBracket, rest)
  | '\x7b' :: rest => some (.openBrace, rest)
  | '\x7d' :: rest => some (.closeBrace, rest)
  | ',' :: rest => some (.comma, rest)
  | ':' :: rest => some (.colon, rest)
  | 'n' :: 'u' :: 'l' :: 'l' :: rest => some (.null, rest)
  | 't' :: 'r' :: 'u' :: 'e' :: rest => some (.yes, rest)
  | 'f' :: 'a' :: 'l' :: 's' :: 'e' :: rest => some (.no, rest)
  | '"' :: rest => (text? rest).map fun (t, rest) => (.text t, rest)
  | cs => (number? cs).map fun (n, rest) => (.number n, rest)

def scanUpTo : Nat → List Char → List Token
  | _, [] => []
  | 0, _ => [.broken]
  | n + 1, c :: cs =>
    if isBlank c then scanUpTo n cs
    else
      match token? (c :: cs) with
      | some (t, rest) => t :: scanUpTo n rest
      | none => [.broken]

/-- The tokens of a document. Every blank and every token takes at least one character. -/
def scan (cs : List Char) : List Token := scanUpTo cs.length cs

end RuleConsensus.Json
