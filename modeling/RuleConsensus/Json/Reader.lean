import RuleConsensus.Decimal.Reading
import RuleConsensus.Json.Scan

/-!
Readers of documents. A reader takes the tokens that come next and gives a value with the tokens
left over, or the first thing that is wrong in reading order: a value of the wrong type is found
when its first token is seen, a fault in the grammar when it is reached.
-/

set_option autoImplicit false
set_option relaxedAutoImplicit false

namespace RuleConsensus.Json

inductive Found
  | null
  | boolean (b : Bool)
  | integer (n : Int)
  | floating (x : Float)
  | text (s : String)
  | sequence
  | map
  | bareVariant

/-- What is wrong with a document. A document that breaks the grammar of documents, or writes a
number beyond the largest one, is ill formed. -/
inductive Malformed
  | illFormed
  | invalidType (found : Found) (expected : String)
  | invalidValue (found : Found) (expected : String)
  | invalidLength (length : Nat) (expected : String)
  | unknownVariant (name : String) (expected : List String)
  | unknownField (name : String) (expected : List String)
  | missingField (name : String)
  | duplicateField (name : String)

/-- A reader of values from the tokens that come next. -/
abbrev Reader (β : Type) := List Token → Except Malformed (β × List Token)

inductive Number
  | natural (n : Nat)
  | negative (n : Int)
  | floating (x : Float)

/-- The whole numbers are those of 64 bits, without and with a sign, minus zero excepted; any
other number is a floating one, and must not be too large. -/
def Number.ofNumeral? (n : Numeral) : Option Number :=
  let size := n.magnitude.coefficient
  if n.isWhole && !n.negative && size < UInt64.size then some (.natural size)
  else if n.isWhole && n.negative && 0 < size && size ≤ UInt64.size / 2 then some (.negative (-size))
  else n.read?.map .floating

def Number.found : Number → Found
  | .natural n => .integer n
  | .negative n => .integer n
  | .floating x => .floating x

def mismatch (expected : String) : List Token → Malformed
  | .null :: _ => .invalidType .null expected
  | .yes :: _ => .invalidType (.boolean true) expected
  | .no :: _ => .invalidType (.boolean false) expected
  | .number n :: _ =>
    match Number.ofNumeral? n with
    | some number => .invalidType number.found expected
    | none => .illFormed
  | .text t :: _ =>
    match t.toString? with
    | some s => .invalidType (.text s) expected
    | none => .illFormed
  | .openBracket :: _ => .invalidType .sequence expected
  | .openBrace :: _ => .invalidType .map expected
  | _ => .illFormed

namespace Reader

variable {β σ : Type}

def float : Reader Float
  | .number n :: rest =>
    match n.read? with
    | some x => .ok (x, rest)
    | none => .error .illFormed
  | ts => .error (mismatch "f64" ts)

def natural (expected : String) : Reader Nat
  | .number n :: rest =>
    match Number.ofNumeral? n with
    | some (.natural size) => .ok (size, rest)
    | some (.negative v) => .error (.invalidValue (.integer v) expected)
    | some (.floating x) => .error (.invalidType (.floating x) expected)
    | none => .error .illFormed
  | ts => .error (mismatch expected ts)

def boolean : Reader Bool
  | .yes :: rest => .ok (true, rest)
  | .no :: rest => .ok (false, rest)
  | ts => .error (mismatch "a boolean" ts)

def string : Reader String
  | .text t :: rest =>
    match t.toString? with
    | some s => .ok (s, rest)
    | none => .error .illFormed
  | ts => .error (mismatch "a string" ts)

def orNull (value : Reader β) : Reader (Option β)
  | .null :: rest => .ok (none, rest)
  | ts => do
    let (v, rest) ← value ts
    pure (some v, rest)

def exactly (t : Token) : Reader Unit
  | [] => .error .illFormed
  | s :: rest => if s = t then .ok ((), rest) else .error .illFormed

def elementsAfter (element : Reader β) : Nat → Reader (List β)
  | 0, _ => .error .illFormed
  | _ + 1, .closeBracket :: rest => .ok ([], rest)
  | n + 1, .comma :: rest => do
    let (x, rest) ← element rest
    let (xs, rest) ← elementsAfter element n rest
    pure (x :: xs, rest)
  | _ + 1, _ => .error .illFormed

/-- The elements of an array whose bracket has been read. -/
def elements (element : Reader β) : Reader (List β)
  | .closeBracket :: rest => .ok ([], rest)
  | ts => do
    let (x, rest) ← element ts
    let (xs, rest) ← elementsAfter element rest.length rest
    pure (x :: xs, rest)

def list (element : Reader β) : Reader (List β)
  | .openBracket :: rest => elements element rest
  | ts => .error (mismatch "a sequence" ts)

/-- The members after one member, up to the closing brace. A member is read from its key on. -/
def membersAfter (member : σ → Text → Reader σ) : Nat → σ → Reader σ
  | 0, _, _ => .error .illFormed
  | _ + 1, s, .closeBrace :: rest => .ok (s, rest)
  | n + 1, s, .comma :: .text key :: rest => do
    let (s, rest) ← member s key rest
    membersAfter member n s rest
  | _ + 1, _, _ => .error .illFormed

def members (member : σ → Text → Reader σ) (s : σ) : Reader σ
  | .closeBrace :: rest => .ok (s, rest)
  | .text key :: rest => do
    let (s, rest) ← member s key rest
    membersAfter member rest.length s rest
  | _ => .error .illFormed

end Reader

end RuleConsensus.Json
