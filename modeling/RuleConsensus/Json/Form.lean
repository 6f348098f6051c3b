import RuleConsensus.Json.Value

/-!
Records and choices in documents. A form lists the members of a record in order. A member that
comes twice is refused, a member that the form does not list is refused or skipped, and what is
missing is found when the record ends.
-/

set_option autoImplicit false
set_option relaxedAutoImplicit false

namespace RuleConsensus.Json

/-- A required member that never came: its place in the form and its name. -/
structure Absent where
  index : Nat
  name : String

def require {β : Type} (index : Nat) (name : String) : Option β → Except Absent β
  | some v => .ok v
  | none => .error ⟨index, name⟩

/-- The members of a record in order, each with the update that its value makes. A closed form
refuses members that it does not list. -/
structure Form (σ β : Type) where
  name : String
  members : List (String × Reader (σ → σ))
  closed : Bool
  blank : σ
  finish : σ → Except Absent β

namespace Form

variable {σ β : Type}

def names (form : Form σ β) : List String := form.members.map (·.1)

/-- Read one member of an object. The state keeps the names that came before. -/
def member (form : Form σ β) (state : σ × List String) (key : Text) :
    Reader (σ × List String) := fun ts => do
  let some name := key.toString? | throw .illFormed
  match form.members.find? (·.1 == name) with
  | some (_, value) =>
    if state.2.contains name then throw (.duplicateField name)
    let (_, ts) ← Reader.exactly .colon ts
    let (update, ts) ← value ts
    pure ((update state.1, name :: state.2), ts)
  | none =>
    if form.closed then throw (.unknownField name form.names)
    let (_, ts) ← Reader.exactly .colon ts
    let (_, ts) ← Reader.skip ts
    pure (state, ts)

/-- Read members in order from an array whose bracket has been read, as long as elements come. -/
def inOrder : List (String × Reader (σ → σ)) → Bool → σ → Reader σ
  | [], _, s, ts => .ok (s, ts)
  | _ :: _, _, s, .closeBracket :: rest => .ok (s, .closeBracket :: rest)
  | m :: ms, true, s, ts => do
    let (update, ts) ← m.2 ts
    inOrder ms false (update s) ts
  | m :: ms, false, s, .comma :: ts => do
    let (update, ts) ← m.2 ts
    inOrder ms false (update s) ts
  | _ :: _, false, _, _ => .error .illFormed

/-- Read a record, as an object or as an array of its members in order. -/
def read (form : Form σ β) : Reader β
  | .openBrace :: rest => do
    let (state, rest) ← Reader.members form.member (form.blank, []) rest
    match form.finish state.1 with
    | .ok v => pure (v, rest)
    | .error absent => throw (.missingField absent.name)
  | .openBracket :: rest => do
    let (s, rest) ← inOrder form.members true form.blank rest
    match form.finish s with
    | .ok v =>
      let (_, rest) ← Reader.exactly .closeBracket rest
      pure (v, rest)
    | .error absent =>
      throw (.invalidLength absent.index
        s!"struct {form.name} with {form.members.length} elements")
  | ts => .error (mismatch s!"struct {form.name}" ts)

end Form

def variantName (names : List String) (t : Text) : Except Malformed String :=
  match t.toString? with
  | some name => if names.contains name then .ok name else .error (.unknownVariant name names)
  | none => .error .illFormed

/-- A choice among variants, written as a bare name or as an object with one member. -/
def Reader.choice {β : Type} (names : List String) (bare : String → Except Malformed β)
    (payload : String → Reader β) : Reader β
  | .text t :: rest => do
    let name ← variantName names t
    let v ← bare name
    pure (v, rest)
  | .openBrace :: .text t :: rest => do
    let name ← variantName names t
    let (_, rest) ← Reader.exactly .colon rest
    let (v, rest) ← payload name rest
    let (_, rest) ← Reader.exactly .closeBrace rest
    pure (v, rest)
  | _ => .error .illFormed

def Reader.nothing : Reader Unit
  | .null :: rest => .ok ((), rest)
  | ts => .error (mismatch "unit" ts)

def Reader.plainChoice {β : Type} (names : List String) (ofName : String → β) : Reader β :=
  Reader.choice names (fun name => .ok (ofName name)) fun name ts => do
    let (_, rest) ← Reader.nothing ts
    pure (ofName name, rest)

end RuleConsensus.Json
