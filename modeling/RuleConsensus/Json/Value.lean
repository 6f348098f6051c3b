import RuleConsensus.Json.Reader

/-!
Documents as trees. The tree keeps numbers and texts as they are written, and members in their
order. Writing a tree gives its tokens without blanks; reading accepts any well-formed document.
-/

set_option autoImplicit false
set_option relaxedAutoImplicit false

namespace RuleConsensus.Json

inductive Value
  | null
  | boolean (b : Bool)
  | number (n : Numeral)
  | text (t : Text)
  | array (items : List Value)
  | object (members : List (Text × Value))

namespace Value

def commaSeparated : List (List Token) → List Token
  | [] => []
  | [part] => part
  | part :: parts => part ++ .comma :: commaSeparated parts

mutual

def tokens : Value → List Token
  | .null => [.null]
  | .boolean b => [if b then .yes else .no]
  | .number n => [.number n]
  | .text t => [.text t]
  | .array items => .openBracket :: (commaSeparated (itemTokens items) ++ [.closeBracket])
  | .object members => .openBrace :: (commaSeparated (memberTokens members) ++ [.closeBrace])

def itemTokens : List Value → List (List Token)
  | [] => []
  | v :: vs => tokens v :: itemTokens vs

def memberTokens : List (Text × Value) → List (List Token)
  | [] => []
  | (key, v) :: ms => (.text key :: .colon :: tokens v) :: memberTokens ms

end

def render (v : Value) : String := String.ofList (v.tokens.flatMap Token.chars)

def ofString (s : String) : Value := .text (Text.ofString s)

def ofNat (n : Nat) : Value := .number (Numeral.ofNat n)

/-- The tree of a finite number, in the layout of documents. -/
def ofFloat (x : Float) : Value := .number (Layout.document.numeral x)

def record (members : List (String × Value)) : Value :=
  .object (members.map fun m => (Text.ofString m.1, m.2))

end Value

namespace Reader

def valueUpTo : Nat → Reader Value
  | 0, _ => .error .illFormed
  | _ + 1, .null :: rest => .ok (.null, rest)
  | _ + 1, .yes :: rest => .ok (.boolean true, rest)
  | _ + 1, .no :: rest => .ok (.boolean false, rest)
  | _ + 1, .number n :: rest => .ok (.number n, rest)
  | _ + 1, .text t :: rest => .ok (.text t, rest)
  | d + 1, .openBracket :: rest => do
    let (items, rest) ← elements (valueUpTo d) rest
    pure (.array items, rest)
  | d + 1, .openBrace :: rest => do
    let member (ms : List (Text × Value)) (key : Text) : Reader (List (Text × Value)) :=
      fun ts => do
        let (_, ts) ← exactly .colon ts
        let (v, ts) ← valueUpTo d ts
        pure (ms ++ [(key, v)], ts)
    let (ms, rest) ← members member [] rest
    pure (.object ms, rest)
  | _ + 1, _ => .error .illFormed

/-- Any well-formed value. Each level of nesting takes a token. -/
def value : Reader Value := fun ts => valueUpTo ts.length ts

/-- Read a value and forget it. Its texts need not decode and its numbers may be too large. -/
def skip : Reader Unit := fun ts => do
  let (_, rest) ← value ts
  pure ((), rest)

end Reader

def read {β : Type} (reader : Reader β) (text : String) : Except Malformed β :=
  match reader (scan text.toList) with
  | .ok (v, []) => .ok v
  | .ok (_, _ :: _) => .error .illFormed
  | .error e => .error e

end RuleConsensus.Json
