import RuleConsensus.Proofs.Json.Fields
import RuleConsensus.Proofs.Json.LaidOut
import RuleConsensus.Settings

set_option autoImplicit false
set_option relaxedAutoImplicit false

namespace RuleConsensus

open Json (Reader Value Text Means TakesTree Given GivenOrNull)

namespace FallbackDocument

/-- Two documents that may differ in the field of one name only. -/
structure SameBut (name : String) (d d' : FallbackDocument) : Prop where
  gradientTolerance : "tol_grad" ≠ name → d.gradientTolerance = d'.gradientTolerance
  costTolerance : "tol_cost" ≠ name → d.costTolerance = d'.costTolerance
  iterations : "max_iter" ≠ name → d.iterations = d'.iterations
  lineSearch : "line_searcher" ≠ name → d.lineSearch = d'.lineSearch
  verbose : "verbose" ≠ name → d.verbose = d'.verbose
  memory : "lbfgs_mem" ≠ name → d.memory = d'.memory

theorem form_takesTrees : form.TakesTrees := by
  unfold Json.Form.TakesTrees form
  rw [List.forall_mem_cons, List.forall_mem_cons, List.forall_mem_cons, List.forall_mem_cons,
    List.forall_mem_cons, List.forall_mem_singleton]
  have float := Json.takesTree_orNull Json.takesTree_float
  have natural := Json.takesTree_orNull (Json.takesTree_natural "usize")
  have string := Json.takesTree_orNull Json.takesTree_string
  refine ⟨?_, ?_, ?_, ?_, ?_, ?_⟩
  · exact float.map fun v (d : FallbackDocument) => { d with gradientTolerance := v }
  · exact float.map fun v (d : FallbackDocument) => { d with costTolerance := v }
  · exact natural.map fun v (d : FallbackDocument) => { d with iterations := v }
  · exact string.map fun v (d : FallbackDocument) => { d with lineSearch := v }
  · exact Json.takesTree_boolean.map fun v (d : FallbackDocument) => { d with verbose := v }
  · exact natural.map fun v (d : FallbackDocument) => { d with memory := v }

theorem sameBut_of_means {entry : String × Reader (FallbackDocument → FallbackDocument)}
    (member : entry ∈ form.members) {v : Value} {update : FallbackDocument → FallbackDocument}
    (means : Means entry.2 v update) (d : FallbackDocument) : SameBut entry.1 (update d) d := by
  simp only [form, List.mem_cons, List.not_mem_nil, or_false] at member
  rcases member with rfl | rfl | rfl | rfl | rfl | rfl
  all_goals
    rcases bind_eq_ok.mp (means.read []) with ⟨⟨x, ts⟩, _, found⟩
    cases found
    constructor
    all_goals
      intro different
      first | rfl | exact absurd rfl different

theorem field_gradientTolerance :
    form.Field "tol_grad" (Reader.orNull Reader.float) (·.gradientTolerance) :=
  .of_set (Json.takesTree_orNull Json.takesTree_float)
    (fun v d => { d with gradientTolerance := v })
    rfl (fun _ _ => rfl) fun _ member different _ _ means d =>
      (sameBut_of_means member means d).gradientTolerance different.symm

theorem field_costTolerance :
    form.Field "tol_cost" (Reader.orNull Reader.float) (·.costTolerance) :=
  .of_set (Json.takesTree_orNull Json.takesTree_float) (fun v d => { d with costTolerance := v })
    rfl (fun _ _ => rfl) fun _ member different _ _ means d =>
      (sameBut_of_means member means d).costTolerance different.symm

theorem field_iterations :
    form.Field "max_iter" (Reader.orNull (Reader.natural "usize")) (·.iterations) :=
  .of_set (Json.takesTree_orNull (Json.takesTree_natural "usize"))
    (fun v d => { d with iterations := v }) rfl (fun _ _ => rfl)
    fun _ member different _ _ means d =>
      (sameBut_of_means member means d).iterations different.symm

theorem field_lineSearch :
    form.Field "line_searcher" (Reader.orNull Reader.string) (·.lineSearch) :=
  .of_set (Json.takesTree_orNull Json.takesTree_string) (fun v d => { d with lineSearch := v })
    rfl (fun _ _ => rfl) fun _ member different _ _ means d =>
      (sameBut_of_means member means d).lineSearch different.symm

theorem field_verbose : form.Field "verbose" Reader.boolean (·.verbose) :=
  .of_set Json.takesTree_boolean (fun v d => { d with verbose := v }) rfl (fun _ _ => rfl)
    fun _ member different _ _ means d => (sameBut_of_means member means d).verbose different.symm

theorem field_memory :
    form.Field "lbfgs_mem" (Reader.orNull (Reader.natural "usize")) (·.memory) :=
  .of_set (Json.takesTree_orNull (Json.takesTree_natural "usize"))
    (fun v d => { d with memory := v }) rfl (fun _ _ => rfl) fun _ member different _ _ means d =>
      (sameBut_of_means member means d).memory different.symm

/-- What members say of the fallback: all of them are listed, and each field is the value of its
member, with nothing asked for where the member is missing or null. -/
structure DescribedBy (ms : List (Text × Value)) (d : FallbackDocument) : Prop where
  listed : ∀ m ∈ ms, ∃ name ∈ form.names, m.1.toString? = some name
  gradientTolerance : GivenOrNull (Means Reader.float) "tol_grad" ms d.gradientTolerance
  costTolerance : GivenOrNull (Means Reader.float) "tol_cost" ms d.costTolerance
  iterations : GivenOrNull (Means (Reader.natural "usize")) "max_iter" ms d.iterations
  lineSearch : GivenOrNull (Means Reader.string) "line_searcher" ms d.lineSearch
  verbose : Given (Means Reader.boolean) "verbose" ms false d.verbose
  memory : GivenOrNull (Means (Reader.natural "usize")) "lbfgs_mem" ms d.memory

def SaidBy (v : Value) (d : FallbackDocument) : Prop :=
  ∃ ms, form.SetsDown v ms ∧ DescribedBy ms d

theorem describedBy_of_updates {ms : List (Text × Value)}
    {us : List (String × (FallbackDocument → FallbackDocument))} (updates : form.Updates ms us)
    (distinct : (us.map (·.1)).Nodup) : DescribedBy ms (Json.updated us form.blank) where
  listed := updates.listed_of_closed rfl
  gradientTolerance := (field_gradientTolerance.given updates distinct form.blank).orNull
    Json.takesTree_float
  costTolerance := (field_costTolerance.given updates distinct form.blank).orNull
    Json.takesTree_float
  iterations := (field_iterations.given updates distinct form.blank).orNull
    (Json.takesTree_natural "usize")
  lineSearch := (field_lineSearch.given updates distinct form.blank).orNull Json.takesTree_string
  verbose := field_verbose.given updates distinct form.blank
  memory := (field_memory.given updates distinct form.blank).orNull
    (Json.takesTree_natural "usize")

theorem saidBy_of_means {v : Value} {d : FallbackDocument} (means : Means form.read v d) :
    SaidBy v d := by
  rcases Json.exists_setsDown_of_means form_takesTrees (by decide) means with ⟨ms, down, means⟩
  rcases (Json.means_object_iff form_takesTrees).mp means with ⟨us, updates, distinct, finished⟩
  obtain rfl : Json.updated us form.blank = d := Except.ok.inj finished
  exact ⟨ms, down, describedBy_of_updates updates distinct⟩

end FallbackDocument

namespace SettingsDocument

theorem form_takesTrees : form.TakesTrees := by
  unfold Json.Form.TakesTrees form
  rw [List.forall_mem_cons, List.forall_mem_singleton]
  have fallback := Json.takesTree_orNull
    (Json.takesTree_record FallbackDocument.form_takesTrees)
  refine ⟨?_, ?_⟩
  · exact Json.takesTree_float.map fun v (d : SettingsDocument) => { d with stepSize := v }
  · exact fallback.map fun v (d : SettingsDocument) => { d with fallback := v }

theorem keeps_of_means {entry : String × Reader (SettingsDocument → SettingsDocument)}
    (member : entry ∈ form.members) {v : Value} {update : SettingsDocument → SettingsDocument}
    (means : Means entry.2 v update) (d : SettingsDocument) :
    (entry.1 ≠ "step_size" → (update d).stepSize = d.stepSize) ∧
      (entry.1 ≠ "fallback" → (update d).fallback = d.fallback) := by
  simp only [form, List.mem_cons, List.not_mem_nil, or_false] at member
  rcases member with rfl | rfl
  all_goals
    rcases bind_eq_ok.mp (means.read []) with ⟨⟨x, ts⟩, _, found⟩
    cases found
  · exact ⟨fun different => absurd rfl different, fun _ => rfl⟩
  · exact ⟨fun _ => rfl, fun different => absurd rfl different⟩

theorem field_stepSize : form.Field "step_size" Reader.float (·.stepSize) :=
  .of_set Json.takesTree_float (fun v d => { d with stepSize := v }) rfl (fun _ _ => rfl)
    fun _ member different _ _ means d => (keeps_of_means member means d).1 different

theorem field_fallback :
    form.Field "fallback" (Reader.orNull FallbackDocument.form.read) (·.fallback) :=
  .of_set (Json.takesTree_orNull (Json.takesTree_record FallbackDocument.form_takesTrees))
    (fun v d => { d with fallback := v }) rfl (fun _ _ => rfl)
    fun _ member different _ _ means d => (keeps_of_means member means d).2 different

structure DescribedBy (ms : List (Text × Value)) (d : SettingsDocument) : Prop where
  listed : ∀ m ∈ ms, ∃ name ∈ form.names, m.1.toString? = some name
  stepSize : Given (Means Reader.float) "step_size" ms ProximalSettings.defaultStepSize d.stepSize
  fallback : GivenOrNull FallbackDocument.SaidBy "fallback" ms d.fallback

def SaidBy (v : Value) (d : SettingsDocument) : Prop :=
  ∃ ms, form.SetsDown v ms ∧ DescribedBy ms d

theorem describedBy_of_updates {ms : List (Text × Value)}
    {us : List (String × (SettingsDocument → SettingsDocument))} (updates : form.Updates ms us)
    (distinct : (us.map (·.1)).Nodup) : DescribedBy ms (Json.updated us form.blank) where
  listed := updates.listed_of_closed rfl
  stepSize := field_stepSize.given updates distinct form.blank
  fallback := ((field_fallback.given updates distinct form.blank).orNull
    (Json.takesTree_record FallbackDocument.form_takesTrees)).imp
      fun _ _ => FallbackDocument.saidBy_of_means

/-- Whatever is read as settings is a text that sets out a tree, and the tree says them. -/
theorem exists_saidBy_of_read {text : String} {d : SettingsDocument}
    (parsed : Json.read form.read text = .ok d) : ∃ v, Value.SetOut v text ∧ SaidBy v d := by
  have takes := Json.takesTree_record form_takesTrees
  rcases Json.exists_setOut_of_read takes parsed with ⟨v, out, means⟩
  rcases Json.exists_setsDown_of_means form_takesTrees (by decide) means with ⟨ms, down, means⟩
  rcases (Json.means_object_iff form_takesTrees).mp means with ⟨us, updates, distinct, finished⟩
  obtain rfl : Json.updated us form.blank = d := Except.ok.inj finished
  exact ⟨v, out, ms, down, describedBy_of_updates updates distinct⟩

end SettingsDocument

deriving instance DecidableEq for FallbackDocument, SettingsDocument

/-- Settings with one member that is null and others left out. -/
def partialText : String :=
  "\x7b\"fallback\": \x7b\"tol_cost\": null, \"line_searcher\": \"hagerZHANG\", " ++
    "\"max_iter\": 40\x7d, \"step_size\": 0.5\x7d"

def partialSettings : SettingsDocument :=
  ⟨0.5, some ⟨none, none, some 40, some "hagerZHANG", false, none⟩⟩

theorem read_partialText :
    Json.read SettingsDocument.form.read partialText = .ok partialSettings := by
  decide +kernel

end RuleConsensus
