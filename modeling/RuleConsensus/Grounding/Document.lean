import RuleConsensus.Grounding.Term
import RuleConsensus.Json.Form
import RuleConsensus.Json.Message

set_option autoImplicit false
set_option relaxedAutoImplicit false

namespace RuleConsensus

open Json (Reader Value)

def Distance.reader : Reader Distance :=
  Reader.plainChoice ["linear", "squared"] fun name =>
    if name = "linear" then .linear else .squared

def Comparator.reader : Reader Comparator :=
  Reader.plainChoice ["inequality", "equality"] fun name =>
    if name = "inequality" then .inequality else .equality

/-- A weight as a document gives it: soft with a number, or hard. -/
def RuleWeight.reader : Reader RuleWeight :=
  Reader.choice ["soft", "hard"]
    (fun name =>
      if name = "hard" then .ok .hard
      else .error (.invalidType .bareVariant "newtype variant"))
    (fun name ts => do
      if name = "hard" then
        let (_, ts) ← Reader.nothing ts
        pure (.hard, ts)
      else
        let (w, ts) ← Reader.float ts
        pure (.soft w, ts))

/-- A grounded term of which members may still be missing. -/
structure GroundedDocument where
  termId : Option Nat
  coefficients : Option (List Float)
  constant : Option Float
  weight : Option RuleWeight
  distance : Distance
  comparator : Comparator
  indices : Option (List Nat)

namespace GroundedDocument

def blank : GroundedDocument := ⟨none, none, none, none, .squared, .inequality, none⟩

def finish (d : GroundedDocument) : Except Json.Absent GroundedTerm := do
  let termId ← Json.require 0 "term_id" d.termId
  let coefficients ← Json.require 1 "coefficients" d.coefficients
  let constant ← Json.require 2 "constant" d.constant
  let weight ← Json.require 3 "weight" d.weight
  let indices ← Json.require 6 "z_indices" d.indices
  pure ⟨termId, coefficients, constant, weight, d.distance, d.comparator, indices⟩

def form : Json.Form GroundedDocument GroundedTerm where
  name := "GroundedTerm"
  closed := false
  blank := blank
  finish := finish
  members := [
    ("term_id", fun ts => do
      let (v, ts) ← Reader.natural "u64" ts
      pure (fun d => { d with termId := some v }, ts)),
    ("coefficients", fun ts => do
      let (v, ts) ← Reader.list Reader.float ts
      pure (fun d => { d with coefficients := some v }, ts)),
    ("constant", fun ts => do
      let (v, ts) ← Reader.float ts
      pure (fun d => { d with constant := some v }, ts)),
    ("weight", fun ts => do
      let (v, ts) ← RuleWeight.reader ts
      pure (fun d => { d with weight := some v }, ts)),
    ("distance", fun ts => do
      let (v, ts) ← Distance.reader ts
      pure (fun d => { d with distance := v }, ts)),
    ("comparator", fun ts => do
      let (v, ts) ← Comparator.reader ts
      pure (fun d => { d with comparator := v }, ts)),
    ("z_indices", fun ts => do
      let (v, ts) ← Reader.list (Reader.natural "usize") ts
      pure (fun d => { d with indices := some v }, ts))]

end GroundedDocument

def parseGroundedTerms (text : String) : Except Json.Malformed (List GroundedTerm) :=
  Json.read (Reader.list GroundedDocument.form.read) text

/-- The terms that a text writes out, or what is wrong with it, as a cause of the terms. -/
def groundedTermsOfText (text : String) : Except (TermError Float) (List GroundedTerm) :=
  match parseGroundedTerms text with
  | .ok terms => .ok terms
  | .error m => .error (.malformedGrounding m.message)

@[simp] theorem groundedTermsOfText_eq_ok_iff {text : String} {terms : List GroundedTerm} :
    groundedTermsOfText text = .ok terms ↔ parseGroundedTerms text = .ok terms := by
  unfold groundedTermsOfText
  cases parseGroundedTerms text <;> simp

def RuleWeight.toJson : RuleWeight → Value
  | soft w => Value.record [("soft", Value.ofFloat w)]
  | hard => Value.ofString "hard"

def GroundedTerm.toJson (t : GroundedTerm) : Value :=
  Value.record [
    ("term_id", Value.ofNat t.termId),
    ("coefficients", .array (t.coefficients.map Value.ofFloat)),
    ("constant", Value.ofFloat t.constant),
    ("weight", t.weight.toJson),
    ("distance", Value.ofString t.distance.name),
    ("comparator", Value.ofString t.comparator.name),
    ("z_indices", .array (t.indices.map Value.ofNat))]

def renderGroundedTerms (terms : List GroundedTerm) : String :=
  (Value.array (terms.map GroundedTerm.toJson)).render

end RuleConsensus
