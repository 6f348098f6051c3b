import RuleConsensus.Grounding.Document
import RuleConsensus.Proofs.Json.Records
import RuleConsensus.Proofs.Json.Yields

/-!
Documents of grounded terms, there and back. What a document says is read in full: terms that can
be written are read from their own document, and any document that can be read gives such terms.
Of the numbers with a point it is left open here whether their digits read back; all that matters
is that they do.
-/

set_option autoImplicit false
set_option relaxedAutoImplicit false

namespace RuleConsensus

open Json (Reader Value Reads Yields Entry)

/-- The digits that documents write for a number are read as the same number. -/
def ReadsBack (x : Float) : Prop := (Layout.document.numeral x).read? = some x

instance (x : Float) : Decidable (ReadsBack x) :=
  inferInstanceAs (Decidable ((Layout.document.numeral x).read? = some x))

/-- Documents read digits with a small error, so the shortest ones can miss their number. -/
example : ¬ReadsBack 31.245270191439438 := by decide +kernel

def RuleWeight.floats : RuleWeight → List Float
  | .soft w => [w]
  | .hard => []

def GroundedTerm.floats (t : GroundedTerm) : List Float :=
  t.constant :: (t.coefficients ++ t.weight.floats)

/-- Documents have whole numbers of 64 bits, and no number but finite ones. -/
structure GroundedTerm.Expressible (t : GroundedTerm) : Prop where
  termId_lt : t.termId < UInt64.size
  indices_lt : ∀ j ∈ t.indices, j < UInt64.size
  finite : ∀ x ∈ t.floats, x.isFinite = true

section Writing

theorem reads_distance (distance : Distance) :
    Reads Distance.reader (Value.ofString distance.name).tokens distance := by
  unfold Distance.reader Reader.plainChoice
  cases distance with
  | linear => exact Json.reads_bare (by decide) rfl
  | squared => exact Json.reads_bare (by decide) rfl

theorem reads_comparator (comparator : Comparator) :
    Reads Comparator.reader (Value.ofString comparator.name).tokens comparator := by
  unfold Comparator.reader Reader.plainChoice
  cases comparator with
  | inequality => exact Json.reads_bare (by decide) rfl
  | equality => exact Json.reads_bare (by decide) rfl

theorem reads_weight {weight : RuleWeight} (exact : ∀ x ∈ weight.floats, ReadsBack x) :
    Reads RuleWeight.reader weight.toJson.tokens weight := by
  unfold RuleWeight.reader
  cases weight with
  | hard => exact Json.reads_bare (by decide) rfl
  | soft w =>
    have back : ReadsBack w := exact w List.mem_cons_self
    refine Json.reads_payload (by decide) ?_
    exact (Json.reads_float back).map RuleWeight.soft

theorem written_weight (weight : RuleWeight) : weight.toJson.Written := by
  cases weight with
  | hard => exact Value.written_ofString "hard"
  | soft w =>
    refine Value.written_record fun m hm => ?_
    rw [List.mem_singleton.mp hm]
    exact Value.written_ofFloat w

namespace GroundedTerm

def entries (t : GroundedTerm) : List (Entry GroundedDocument) := [
  ⟨"term_id", Value.ofNat t.termId, fun d => { d with termId := some t.termId }⟩,
  ⟨"coefficients", .array (t.coefficients.map Value.ofFloat),
    fun d => { d with coefficients := some t.coefficients }⟩,
  ⟨"constant", Value.ofFloat t.constant, fun d => { d with constant := some t.constant }⟩,
  ⟨"weight", t.weight.toJson, fun d => { d with weight := some t.weight }⟩,
  ⟨"distance", Value.ofString t.distance.name, fun d => { d with distance := t.distance }⟩,
  ⟨"comparator", Value.ofString t.comparator.name,
    fun d => { d with comparator := t.comparator }⟩,
  ⟨"z_indices", .array (t.indices.map Value.ofNat),
    fun d => { d with indices := some t.indices }⟩]

theorem toJson_eq (t : GroundedTerm) :
    t.toJson = Value.record (t.entries.map fun e => (e.name, e.value)) := rfl

variable {t : GroundedTerm}

theorem reads_entries (termId_lt : t.termId < UInt64.size)
    (indices_lt : ∀ j ∈ t.indices, j < UInt64.size) (exact : ∀ x ∈ t.floats, ReadsBack x) :
    ∀ e ∈ t.entries, GroundedDocument.form.Reads e := by
  obtain ⟨constant, others⟩ := List.forall_mem_cons.mp exact
  obtain ⟨coefficients, weight⟩ := List.forall_mem_append.mp others
  have coefficients := Json.reads_array fun x hx => Json.reads_float (coefficients x hx)
  have indices := Json.reads_array fun j hj => Json.reads_natural (indices_lt j hj) "usize"
  unfold entries
  simp only [List.forall_mem_cons]
  refine ⟨⟨_, rfl, ?_⟩, ⟨_, rfl, ?_⟩, ⟨_, rfl, ?_⟩, ⟨_, rfl, ?_⟩, ⟨_, rfl, ?_⟩, ⟨_, rfl, ?_⟩,
    ⟨_, rfl, ?_⟩, nofun⟩
  · exact (Json.reads_natural termId_lt "u64").map
      fun v (d : GroundedDocument) => { d with termId := some v }
  · exact coefficients.map fun v (d : GroundedDocument) => { d with coefficients := some v }
  · exact (Json.reads_float constant).map
      fun v (d : GroundedDocument) => { d with constant := some v }
  · exact (reads_weight weight).map fun v (d : GroundedDocument) => { d with weight := some v }
  · exact (reads_distance t.distance).map fun v (d : GroundedDocument) => { d with distance := v }
  · exact (reads_comparator t.comparator).map
      fun v (d : GroundedDocument) => { d with comparator := v }
  · exact indices.map fun v (d : GroundedDocument) => { d with indices := some v }

theorem reads_toJson (termId_lt : t.termId < UInt64.size)
    (indices_lt : ∀ j ∈ t.indices, j < UInt64.size) (exact : ∀ x ∈ t.floats, ReadsBack x) :
    Reads GroundedDocument.form.read t.toJson.tokens t := by
  rw [toJson_eq]
  have distinct : GroundedDocument.form.names.Nodup := by decide
  exact Json.reads_record (reads_entries termId_lt indices_lt exact) distinct rfl

theorem written_toJson (t : GroundedTerm) : t.toJson.Written := by
  refine Value.written_record ?_
  simp only [List.forall_mem_cons]
  refine ⟨Value.written_ofNat _, Value.written_array ?_, Value.written_ofFloat _,
    written_weight _, Value.written_ofString _, Value.written_ofString _,
    Value.written_array ?_, nofun⟩
  · exact List.forall_mem_map.mpr fun x _ => Value.written_ofFloat x
  · exact List.forall_mem_map.mpr fun j _ => Value.written_ofNat j

end GroundedTerm

end Writing

section Reading

theorem yields_weight :
    Yields RuleWeight.reader fun weight => ∀ x ∈ weight.floats, x.isFinite = true := by
  refine Json.yields_choice (fun name weight h => ?_) fun name ts weight rest read => ?_
  · split at h
    case isTrue =>
      obtain rfl := Except.ok.inj h
      exact nofun
    case isFalse => cases h
  · split at read
    case isTrue =>
      obtain ⟨_, _, read⟩ := bind_eq_ok.mp read
      obtain rfl := Json.value_eq_of_ok read
      exact nofun
    case isFalse =>
      obtain ⟨⟨w, _⟩, hw, read⟩ := bind_eq_ok.mp read
      obtain rfl := Json.value_eq_of_ok read
      exact List.forall_mem_singleton.mpr (Json.yields_float _ _ _ hw)

/-- What a document can say of a term, as far as it has been read. -/
structure GroundedDocument.Expressible (d : GroundedDocument) : Prop where
  termId_lt : ∀ n, d.termId = some n → n < UInt64.size
  coefficients : ∀ c, d.coefficients = some c → ∀ x ∈ c, x.isFinite = true
  constant : ∀ x, d.constant = some x → x.isFinite = true
  weight : ∀ w, d.weight = some w → ∀ x ∈ w.floats, x.isFinite = true
  indices_lt : ∀ js, d.indices = some js → ∀ j ∈ js, j < UInt64.size

theorem keeps_expressible : GroundedDocument.form.Keeps GroundedDocument.Expressible := by
  unfold Json.Form.Keeps GroundedDocument.form
  rw [List.forall_mem_cons, List.forall_mem_cons, List.forall_mem_cons, List.forall_mem_cons,
    List.forall_mem_cons, List.forall_mem_cons, List.forall_mem_singleton]
  refine ⟨?_, ?_, ?_, ?_, ?_, ?_, ?_⟩
  · refine (Json.yields_natural "u64").update (fun v (d : GroundedDocument) =>
      { d with termId := some v }) fun n d hn hd => ?_
    exact { hd with termId_lt := fun _ h => Option.some.inj h ▸ hn }
  · refine (Json.yields_list Json.yields_float).update (fun v (d : GroundedDocument) =>
      { d with coefficients := some v }) fun c d hc hd => ?_
    exact { hd with coefficients := fun _ h => Option.some.inj h ▸ hc }
  · refine Json.yields_float.update (fun v (d : GroundedDocument) =>
      { d with constant := some v }) fun k d hk hd => ?_
    exact { hd with constant := fun _ h => Option.some.inj h ▸ hk }
  · refine yields_weight.update (fun v (d : GroundedDocument) =>
      { d with weight := some v }) fun w d hw hd => ?_
    exact { hd with weight := fun _ h => Option.some.inj h ▸ hw }
  · refine (Json.yields_any Distance.reader).update (fun v (d : GroundedDocument) =>
      { d with distance := v }) fun _ d _ hd => ?_
    exact { hd with }
  · refine (Json.yields_any Comparator.reader).update (fun v (d : GroundedDocument) =>
      { d with comparator := v }) fun _ d _ hd => ?_
    exact { hd with }
  · refine (Json.yields_list (Json.yields_natural "usize")).update
      (fun v (d : GroundedDocument) => { d with indices := some v }) fun js d hj hd => ?_
    exact { hd with indices_lt := fun _ h => Option.some.inj h ▸ hj }

theorem require_eq_ok {index : ℕ} {name : String} {β : Type} {o : Option β} {v : β} :
    Json.require index name o = .ok v ↔ o = some v := by
  cases o <;> simp [Json.require]

theorem expressible_of_finish {d : GroundedDocument} {t : GroundedTerm} (hd : d.Expressible)
    (h : d.finish = .ok t) : t.Expressible := by
  simp only [GroundedDocument.finish, bind_eq_ok, require_eq_ok, pure_eq_ok] at h
  obtain ⟨termId, hid, c, hc, k, hk, w, hw, js, hj, rfl⟩ := h
  exact {
    termId_lt := hd.termId_lt termId hid
    indices_lt := hd.indices_lt js hj
    finite := List.forall_mem_cons.mpr ⟨hd.constant k hk,
      List.forall_mem_append.mpr ⟨hd.coefficients c hc, hd.weight w hw⟩⟩ }

theorem yields_term : Yields GroundedDocument.form.read GroundedTerm.Expressible :=
  Json.yields_record keeps_expressible ⟨nofun, nofun, nofun, nofun, nofun⟩
    fun _ _ hd h => expressible_of_finish hd h

end Reading

/-- Written terms are read as they were, if the digits of their numbers read back. Whatever can be
read has only terms that can be written, so that any document, once read, can be written and read
again with the same result. -/
theorem parse_render_groundedTerms {ts : List GroundedTerm}
    (exact : ∀ t ∈ ts, ∀ x ∈ t.floats, x.isFinite = true → ReadsBack x) :
    ((∀ t ∈ ts, t.Expressible) → parseGroundedTerms (renderGroundedTerms ts) = .ok ts) ∧
      ∀ text, parseGroundedTerms text = .ok ts →
        parseGroundedTerms (renderGroundedTerms ts) = .ok ts := by
  have back (expressible : ∀ t ∈ ts, t.Expressible) :
      parseGroundedTerms (renderGroundedTerms ts) = .ok ts := by
    refine Json.read_render (Value.written_array ?_) (Json.reads_array fun t ht => ?_)
    · exact List.forall_mem_map.mpr fun t _ => t.written_toJson
    · have holds := expressible t ht
      exact GroundedTerm.reads_toJson holds.termId_lt holds.indices_lt fun x hx =>
        exact t ht x hx (holds.finite x hx)
  exact ⟨back, fun text parsed => back (Json.of_read (Json.yields_list yields_term) parsed)⟩

deriving instance DecidableEq for RuleWeight, GroundedTerm

/-- Two rules as a document may give them: in loose order, with blanks, and with members left
out. -/
def looseText : String :=
  "[\x7b\"z_indices\":[0, 1],\"term_id\":1,\"coefficients\":[1, -25E-8],\"constant\":0.10," ++
    "\"weight\":\x7b\"soft\":0.5\x7d\x7d," ++
  "\x7b\"term_id\":18446744073709551615,\"coefficients\":[],\"constant\":-0," ++
    "\"weight\":\"hard\",\"z_indices\":[]\x7d]"

def looseTerms : List GroundedTerm := [
  ⟨1, [1.0, -2.5e-7], 0.1, .soft 0.5, .squared, .inequality, [0, 1]⟩,
  ⟨18446744073709551615, [], -0.0, .hard, .squared, .inequality, []⟩]

theorem parse_render_groundedTerms_loose :
    (∀ t ∈ looseTerms, ∀ x ∈ t.floats, ReadsBack x) ∧ (∀ t ∈ looseTerms, t.Expressible) ∧
      parseGroundedTerms looseText = .ok looseTerms ∧
      renderGroundedTerms looseTerms ≠ looseText ∧
      parseGroundedTerms (renderGroundedTerms looseTerms) = .ok looseTerms := by
  have exact : ∀ t ∈ looseTerms, ∀ x ∈ t.floats, ReadsBack x := by decide +kernel
  have expressible : ∀ t ∈ looseTerms, t.Expressible := fun t ht => {
    termId_lt := (by decide : ∀ t ∈ looseTerms, t.termId < UInt64.size) t ht
    indices_lt := (by decide : ∀ t ∈ looseTerms, ∀ j ∈ t.indices, j < UInt64.size) t ht
    finite := (by decide +kernel : ∀ t ∈ looseTerms, ∀ x ∈ t.floats, x.isFinite = true) t ht }
  have parsed : parseGroundedTerms looseText = .ok looseTerms := by decide +kernel
  obtain ⟨_, again⟩ := parse_render_groundedTerms fun t ht x hx _ => exact t ht x hx
  exact ⟨exact, expressible, parsed, by decide +kernel, again looseText parsed⟩

end RuleConsensus
