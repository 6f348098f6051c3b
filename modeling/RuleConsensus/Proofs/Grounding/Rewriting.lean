import Mathlib.Logic.Relation
import RuleConsensus.Grounding.Document
import RuleConsensus.Proofs.Grounding.RoundTrip
import RuleConsensus.Proofs.Json.LaidOut

set_option autoImplicit false
set_option relaxedAutoImplicit false

namespace RuleConsensus

open Json (Reader Value Text Means TakesTree)

section Parts

/-- What one member of a record says of a term. -/
inductive GroundedDocument.Part
  | termId (n : ℕ)
  | coefficients (c : List Float)
  | constant (x : Float)
  | weight (w : RuleWeight)
  | distance (distance : Distance)
  | comparator (comparator : Comparator)
  | indices (js : List ℕ)

namespace GroundedDocument

def Part.name : Part → String
  | termId _ => "term_id"
  | coefficients _ => "coefficients"
  | constant _ => "constant"
  | weight _ => "weight"
  | distance _ => "distance"
  | comparator _ => "comparator"
  | indices _ => "z_indices"

def Part.set : Part → GroundedDocument → GroundedDocument
  | termId n, d => { d with termId := some n }
  | coefficients c, d => { d with coefficients := some c }
  | constant x, d => { d with constant := some x }
  | weight w, d => { d with weight := some w }
  | distance v, d => { d with distance := v }
  | comparator v, d => { d with comparator := v }
  | indices js, d => { d with indices := some js }

theorem Part.set_comm {p q : Part} (different : p.name ≠ q.name) (d : GroundedDocument) :
    p.set (q.set d) = q.set (p.set d) := by
  cases p <;> cases q <;> first | rfl | exact absurd rfl different

/-- What follows the name of a weight in an object. -/
def weightPayload (name : String) : Reader RuleWeight := fun ts => do
  if name = "hard" then
    let (_, ts) ← Reader.nothing ts
    pure (.hard, ts)
  else
    let (w, ts) ← Reader.float ts
    pure (.soft w, ts)

theorem weightPayload_hard : weightPayload "hard" = (fun ts => do
    let (_, ts) ← Reader.nothing ts
    pure (RuleWeight.hard, ts)) := rfl

theorem weightPayload_soft {name : String} (soft : name ≠ "hard") :
    weightPayload name = (fun ts => do
      let (w, ts) ← Reader.float ts
      pure (RuleWeight.soft w, ts)) := by
  unfold weightPayload
  simp only [soft, if_false]

theorem takesTree_weightPayload (name : String) : TakesTree (weightPayload name) := by
  by_cases hard : name = "hard"
  · rw [hard, weightPayload_hard]
    exact Json.takesTree_nothing.map fun _ => RuleWeight.hard
  · rw [weightPayload_soft hard]
    exact Json.takesTree_float.map RuleWeight.soft

theorem takesTree_weight : TakesTree RuleWeight.reader :=
  Json.takesTree_choice takesTree_weightPayload

/-- A hard weight may be written either way, and a soft one needs its number. -/
theorem means_weight_iff_means_null {t : Text} {w : RuleWeight} :
    Means RuleWeight.reader (.text t) w ↔ Means RuleWeight.reader (.object [(t, .null)]) w := by
  refine Json.means_bare_iff_means_null takesTree_weightPayload fun name w => ?_
  by_cases hard : name = "hard"
  · rw [if_pos hard, hard, weightPayload_hard, Json.means_payload_null_iff]
    exact ⟨Except.ok.inj, congrArg Except.ok⟩
  · rw [if_neg hard, weightPayload_soft hard, Json.means_map_iff Json.takesTree_float]
    constructor
    · intro chosen
      cases chosen
    · rintro ⟨x, means, _⟩
      cases means.read []

def Says (entry : String × Reader (GroundedDocument → GroundedDocument)) : Prop :=
  TakesTree entry.2 ∧ ∀ v update, Means entry.2 v update →
    ∃ p : Part, p.name = entry.1 ∧ p.set = update

theorem says_map {β : Type} {reader : Reader β} (takes : TakesTree reader) (part : β → Part)
    {name : String} (named : ∀ x, (part x).name = name) : Says (name, fun ts => do
      let (x, ts) ← reader ts
      pure ((part x).set, ts)) := by
  refine ⟨takes.map fun x => (part x).set, fun v update means => ?_⟩
  rcases (Json.means_map_iff takes (f := fun x => (part x).set)).mp means with ⟨x, _, same⟩
  exact ⟨part x, named x, same⟩

theorem says_of_mem {entry : String × Reader (GroundedDocument → GroundedDocument)}
    (member : entry ∈ form.members) : Says entry := by
  simp only [form, List.mem_cons, List.not_mem_nil, or_false] at member
  rcases member with rfl | rfl | rfl | rfl | rfl | rfl | rfl
  · exact says_map (Json.takesTree_natural "u64") .termId fun _ => rfl
  · exact says_map (Json.takesTree_list Json.takesTree_float) .coefficients fun _ => rfl
  · exact says_map Json.takesTree_float .constant fun _ => rfl
  · exact says_map takesTree_weight .weight fun _ => rfl
  · exact says_map Json.takesTree_plainChoice .distance fun _ => rfl
  · exact says_map Json.takesTree_plainChoice .comparator fun _ => rfl
  · exact says_map (Json.takesTree_list (Json.takesTree_natural "usize")) .indices fun _ => rfl

theorem form_takesTrees : form.TakesTrees := fun _ member => (says_of_mem member).1

theorem form_commutes : form.Commutes := by
  intro entry member entry' member' different v v' update update' means means' d
  rcases (says_of_mem member).2 v update means with ⟨p, hp, rfl⟩
  rcases (says_of_mem member').2 v' update' means' with ⟨q, hq, rfl⟩
  rw [← hp, ← hq] at different
  exact Part.set_comm different d

end GroundedDocument

end Parts

section Rewriting

/-- One rewriting of the record of a term. Members may change places, so that it is enough to write
a member first that comes or goes or is written in another way. -/
inductive SameTerm : Value → Value → Prop
  | permuted {ms ms' : List (Text × Value)} : ms.Perm ms' → SameTerm (.object ms) (.object ms')
  | unknown {key : Text} {name : String} {ms : List (Text × Value)} (v : Value) :
    key.toString? = some name → name ∉ GroundedDocument.form.names →
    SameTerm (.object ms) (.object ((key, v) :: ms))
  | default {key t : Text} {name variant : String} {ms : List (Text × Value)} :
    (name, variant) ∈ [("distance", "squared"), ("comparator", "inequality")] →
    key.toString? = some name → t.toString? = some variant →
    (∀ m ∈ ms, m.1.toString? ≠ some name) →
    SameTerm (.object ms) (.object ((key, .text t) :: ms))
  | variant {key : Text} {name : String} {ms : List (Text × Value)} (t : Text) :
    name ∈ ["weight", "distance", "comparator"] → key.toString? = some name →
    SameTerm (.object ((key, .text t) :: ms)) (.object ((key, .object [(t, .null)]) :: ms))
  | inOrder {ms : List (Text × Value)} :
    ms.map (·.1.toString?) = GroundedDocument.form.names.map some →
    SameTerm (.object ms) (.array (ms.map (·.2)))

/-- A document with each of its terms rewritten any number of times, in either direction. The items
of an array are rewritten as members of its object. -/
inductive Reworded : Value → Value → Prop
  | terms {items items' : List Value} : List.Forall₂ (Relation.EqvGen SameTerm) items items' →
    Reworded (.array items) (.array items')

open GroundedDocument (form form_takesTrees form_commutes)

theorem names_nodup : form.names.Nodup := by decide

theorem means_default {key t : Text} {name variant : String} {ms : List (Text × Value)}
    (which : (name, variant) ∈ [("distance", "squared"), ("comparator", "inequality")])
    (named : key.toString? = some name) (spelled : t.toString? = some variant)
    (missing : ∀ m ∈ ms, m.1.toString? ≠ some name) {x : GroundedTerm} :
    Means form.read (.object ((key, .text t) :: ms)) x ↔ Means form.read (.object ms) x := by
  have chosen {β : Type} {names : List String} {ofName : String → β}
      (listed : variant ∈ names) : Means (Reader.plainChoice names ofName) (.text t)
        (ofName variant) := by
    refine Json.means_bare_iff.mpr ⟨variant, ?_, rfl⟩
    unfold Json.variantName
    rw [spelled]
    exact if_pos (List.contains_iff_mem.mpr listed)
  simp only [List.mem_cons, List.not_mem_nil, or_false, Prod.mk.injEq] at which
  rcases which with ⟨rfl, rfl⟩ | ⟨rfl, rfl⟩
  · have means : Means Distance.reader (.text t) .squared := chosen (by decide)
    exact Json.means_object_cons_iff_of_default form_takesTrees named rfl
      (means.map fun v (d : GroundedDocument) => { d with distance := v }) rfl missing
  · have means : Means Comparator.reader (.text t) .inequality := chosen (by decide)
    exact Json.means_object_cons_iff_of_default form_takesTrees named rfl
      (means.map fun v (d : GroundedDocument) => { d with comparator := v }) rfl missing

theorem means_unknown {key : Text} {name : String} (named : key.toString? = some name)
    (other : name ∉ form.names) {v : Value} {ms : List (Text × Value)} {x : GroundedTerm} :
    Means form.read (.object ((key, v) :: ms)) x ↔ Means form.read (.object ms) x :=
  Json.means_object_cons_iff_of_unlisted form_takesTrees rfl named other

theorem means_variant {key : Text} {name : String} {ms : List (Text × Value)} (t : Text)
    (which : name ∈ ["weight", "distance", "comparator"]) (named : key.toString? = some name)
    {x : GroundedTerm} : Means form.read (.object ((key, .text t) :: ms)) x ↔
      Means form.read (.object ((key, .object [(t, .null)]) :: ms)) x := by
  simp only [List.mem_cons, List.not_mem_nil, or_false] at which
  rcases which with rfl | rfl | rfl
  · exact Json.means_object_cons_congr form_takesTrees named rfl
      (Json.means_map_congr GroundedDocument.takesTree_weight
        (fun v (d : GroundedDocument) => { d with weight := some v })
        fun _ => GroundedDocument.means_weight_iff_means_null)
  · exact Json.means_object_cons_congr form_takesTrees named rfl
      (Json.means_map_congr Json.takesTree_plainChoice
        (fun v (d : GroundedDocument) => { d with distance := v })
        fun _ => Json.means_plainChoice_iff_means_null)
  · exact Json.means_object_cons_congr form_takesTrees named rfl
      (Json.means_map_congr Json.takesTree_plainChoice
        (fun v (d : GroundedDocument) => { d with comparator := v })
        fun _ => Json.means_plainChoice_iff_means_null)

theorem means_inOrder {ms : List (Text × Value)}
    (named : ms.map (·.1.toString?) = form.names.map some) {x : GroundedTerm} :
    Means form.read (.array (ms.map (·.2))) x ↔ Means form.read (.object ms) x := by
  refine Json.means_array_iff_means_object form_takesTrees names_nodup ?_
  unfold Json.NamedInOrder
  rw [named, Json.Form.names, List.map_map]
  rfl

theorem SameTerm.means_iff {v v' : Value} (same : SameTerm v v') {x : GroundedTerm} :
    Means form.read v x ↔ Means form.read v' x := by
  cases same with
  | permuted order =>
    exact ⟨Json.means_object_perm form_takesTrees form_commutes order,
      Json.means_object_perm form_takesTrees form_commutes order.symm⟩
  | unknown v named other => exact (means_unknown named other).symm
  | default which named spelled missing =>
    exact (means_default which named spelled missing).symm
  | variant t which named => exact means_variant t which named
  | inOrder named => exact (means_inOrder named).symm

/-- Any number of rewritings leaves the term as it is. -/
theorem means_iff_of_eqvGen {v v' : Value} (same : Relation.EqvGen SameTerm v v')
    {x : GroundedTerm} : Means form.read v x ↔ Means form.read v' x := by
  induction same with
  | rel v v' step => exact step.means_iff
  | refl v => exact Iff.rfl
  | symm v v' _ ih => exact ih.symm
  | trans v v' v'' _ _ ih ih' => exact ih.trans ih'

theorem Reworded.means {doc doc' : Value} (same : Reworded doc doc') {ts : List GroundedTerm}
    (means : Means (Reader.list form.read) doc ts) :
    Means (Reader.list form.read) doc' ts := by
  rcases same with ⟨each⟩
  have takes := Json.takesTree_record form_takesTrees
  refine (Json.means_list_iff takes).mpr ?_
  have terms := (Json.means_list_iff takes).mp means
  clear means
  induction each generalizing ts with
  | nil =>
    cases terms
    exact .nil
  | cons first _ ih =>
    cases terms with
    | cons now later => exact .cons ((means_iff_of_eqvGen first).mp now) (ih later)

/-- A text that is read as terms sets out a tree, and any text that sets out this tree with its
terms rewritten is read as the same terms. -/
theorem parseGroundedTerms_of_reworded {text : String} {ts : List GroundedTerm}
    (parsed : parseGroundedTerms text = .ok ts) :
    (∃ doc, Value.SetOut doc text) ∧ ∀ doc doc' text', Value.SetOut doc text →
      Reworded doc doc' → Value.SetOut doc' text' → parseGroundedTerms text' = .ok ts := by
  have takes := Json.takesTree_list (Json.takesTree_record form_takesTrees)
  rcases Json.exists_setOut_of_read takes parsed with ⟨doc₀, set₀, means⟩
  refine ⟨⟨doc₀, set₀⟩, fun doc doc' text' set same set' => ?_⟩
  obtain rfl : doc₀ = doc := set₀.unique set
  exact Json.read_eq_ok_of_setOut (same.means means) set'

/-- The members of a hard rule, its weight written in some way. -/
def hardMember (weight : Value) : String → Text × Value
  | "term_id" => (Text.ofString "term_id", Value.ofNat 1)
  | "coefficients" => (Text.ofString "coefficients", .array [Value.ofNat 2])
  | "constant" => (Text.ofString "constant", Value.ofFloat (-0.5))
  | "weight" => (Text.ofString "weight", weight)
  | "distance" => (Text.ofString "distance", Value.ofString "squared")
  | "comparator" => (Text.ofString "comparator", Value.ofString "inequality")
  | "z_indices" => (Text.ofString "z_indices", .array [Value.ofNat 0])
  | name => (Text.ofString name, .array [.null, .text [.half 0xD800]])

def notedText : String :=
  "[\x7b\"note\":[null,\"\\ud800\"],\"z_indices\":[0],\"term_id\":1,\"coefficients\":[2]," ++
    "\"constant\":-0.5,\"weight\":\"hard\"\x7d]"

def listedText : String :=
  " [[1, [2], -0.5, \x7b\"hard\": null\x7d,\n  \"squared\", \"inequality\", [0]]]\n"

def notedRule : List (Text × Value) :=
  ["note", "z_indices", "term_id", "coefficients", "constant", "weight"].map
    (hardMember (Value.ofString "hard"))

def listedRule : List (Text × Value) :=
  form.names.map (hardMember (.object [(Text.ofString "hard", .null)]))

theorem reworded_notedRule :
    Reworded (.array [.object notedRule]) (.array [.array (listedRule.map (·.2))]) := by
  let others := ["z_indices", "term_id", "coefficients", "constant"]
  let hard := hardMember (Value.ofString "hard")
  let spelled := hardMember (.object [(Text.ofString "hard", .null)])
  have other : "note" ∉ form.names := by decide
  have note : SameTerm (.object ((others ++ ["weight"]).map hard)) (.object notedRule) :=
    .unknown _ (by decide) other
  have distance : SameTerm (.object ((others ++ ["weight"]).map hard))
      (.object (("distance" :: others ++ ["weight"]).map hard)) :=
    .default (List.mem_cons_self) (by decide) (by decide) (by decide)
  have comparator : SameTerm (.object (("distance" :: others ++ ["weight"]).map hard))
      (.object (("comparator" :: "distance" :: others ++ ["weight"]).map hard)) :=
    .default (List.mem_cons_of_mem _ List.mem_cons_self) (by decide) (by decide) (by decide)
  have weight : SameTerm
      (.object (("comparator" :: "distance" :: others ++ ["weight"]).map hard))
      (.object (("weight" :: "comparator" :: "distance" :: others).map hard)) :=
    .permuted ((by decide : List.Perm _ _).map hard)
  have variant : SameTerm (.object (("weight" :: "comparator" :: "distance" :: others).map hard))
      (.object (("weight" :: "comparator" :: "distance" :: others).map spelled)) :=
    .variant _ List.mem_cons_self (by decide)
  have order : SameTerm (.object (("weight" :: "comparator" :: "distance" :: others).map spelled))
      (.object listedRule) := .permuted ((by decide : List.Perm _ _).map spelled)
  have array : SameTerm (.object listedRule) (.array (listedRule.map (·.2))) :=
    .inOrder (by decide)
  refine .terms (.cons ?_ .nil)
  refine .trans _ _ _ (.symm _ _ (.rel _ _ note)) ?_
  refine .trans _ _ _ (.rel _ _ distance) ?_
  refine .trans _ _ _ (.rel _ _ comparator) ?_
  refine .trans _ _ _ (.rel _ _ weight) ?_
  refine .trans _ _ _ (.rel _ _ variant) ?_
  refine .trans _ _ _ (.rel _ _ order) ?_
  exact .rel _ _ array

theorem parseGroundedTerms_of_reworded_listed :
    parseGroundedTerms notedText =
        .ok [⟨1, [2.0], -0.5, .hard, .squared, .inequality, [0]⟩] ∧
      Value.SetOut (.array [.object notedRule]) notedText ∧
      Value.SetOut (.array [.array (listedRule.map (·.2))]) listedText ∧
      parseGroundedTerms listedText =
        .ok [⟨1, [2.0], -0.5, .hard, .squared, .inequality, [0]⟩] := by
  have parsed : parseGroundedTerms notedText =
      .ok [⟨1, [2.0], -0.5, .hard, .squared, .inequality, [0]⟩] := by decide +kernel
  have noted : Value.SetOut (.array [.object notedRule]) notedText :=
    Json.setOut_iff.mpr (by decide +kernel)
  have listed : Value.SetOut (.array [.array (listedRule.map (·.2))]) listedText :=
    Json.setOut_iff.mpr (by decide +kernel)
  obtain ⟨_, same⟩ := parseGroundedTerms_of_reworded parsed
  exact ⟨parsed, noted, listed, same _ _ _ noted reworded_notedRule listed⟩

end Rewriting

end RuleConsensus
