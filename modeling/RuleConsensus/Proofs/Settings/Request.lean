import RuleConsensus.Minimizer.Lbfgs
import RuleConsensus.Proofs.Binary.Order
import RuleConsensus.Proofs.Settings.Document
import RuleConsensus.Proofs.Term.Demand

set_option autoImplicit false
set_option relaxedAutoImplicit false

namespace RuleConsensus

/-- What a caller asks of the settings, before anything has been checked. -/
structure SettingsRequest where
  stepSize : Float
  gradientTolerance : Option Float
  costTolerance : Option Float
  iterations : Option Nat
  lineSearch : Option String
  verbose : Bool
  memory : Option Nat

/-- What a document gives, laid over the defaults. -/
def SettingsDocument.request (d : SettingsDocument) : SettingsRequest :=
  let f := d.fallback.getD FallbackDocument.blank
  let defaults := MinimizerOptions.default
  ⟨d.stepSize, f.gradientTolerance.or defaults.tolerances.gradient,
    f.costTolerance.or defaults.tolerances.cost, f.iterations.or defaults.tolerances.iterations,
    f.lineSearch, f.verbose, f.memory.or defaults.memory⟩

/-- A fault of the options as one of the settings. -/
def asConfig {β : Type} : Except (MinimizeError Float) β → Except (TermError Float) β
  | .ok v => .ok v
  | .error e => .error (.invalidConfig e.message)

theorem asConfig_bind {β γ : Type} (r : Except (MinimizeError Float) β)
    (f : β → Except (MinimizeError Float) γ) :
    asConfig (r >>= f) = asConfig r >>= fun v => asConfig (f v) := by
  cases r <;> rfl

namespace SettingsRequest

def searched (r : SettingsRequest) : Except (MinimizeError Float) LineSearch :=
  match r.lineSearch with
  | some name => LineSearch.ofName name
  | none => .ok MinimizerOptions.default.lineSearch

/-- Accept a request: its tolerances, its search, its options, and then the settings. -/
def checked (r : SettingsRequest) : Except (TermError Float) ProximalSettings := do
  let tolerances ←
    asConfig (Tolerances.checked r.gradientTolerance r.costTolerance r.iterations)
  let lineSearch ← asConfig r.searched
  let options ← asConfig (MinimizerOptions.checked tolerances lineSearch r.verbose r.memory)
  ProximalSettings.checked r.stepSize options

end SettingsRequest

section Demands

/-- A number that tolerances and step sizes may be. -/
def FinitePositive (x : Float) : Prop := x.isFinite = true ∧ 0.0 < x

theorem finitePositive_iff {x : Float} :
    FinitePositive x ↔ x.isFinite = true ∧ ¬x ≤ 0.0 := by
  refine and_congr_right fun finite => ?_
  exact (Binary.not_le_iff (Binary.isNaN_of_isFinite finite) (by decide)).symm

def toleranceReason (x : Float) : String :=
  if x.isFinite then "Tolerance must be positive." else "Tolerance must be finite."

theorem toleranceFault?_of_finitePositive {x : Float} (valid : FinitePositive x) :
    toleranceFault? x = none := by
  obtain ⟨finite, positive⟩ := finitePositive_iff.mp valid
  unfold toleranceFault?
  simp [finite, positive]

theorem toleranceFault?_of_not_finitePositive {x : Float} (invalid : ¬FinitePositive x) :
    toleranceFault? x = some (toleranceReason x) := by
  unfold toleranceFault? toleranceReason
  cases finite : x.isFinite with
  | false => rfl
  | true =>
    have nonpositive : x ≤ 0.0 := by
      by_contra positive
      exact invalid (finitePositive_iff.mpr ⟨finite, positive⟩)
    simp [nonpositive]

def Demand.optional {β : Type} (bad : β → Prop) (o : Option β) (cause : β → TermError Float) :
    Demand Float :=
  .each bad o.toList fun _ => cause

theorem DecidedBy.of_optional {β γ : Type} {bad : β → Prop} {o : Option β}
    {cause : β → TermError Float} {r : Except (TermError Float) γ} {v : γ}
    (missing : o = none → r = .ok v) (accepted : ∀ b, o = some b → ¬bad b → r = .ok v)
    (refused : ∀ b, o = some b → bad b → r = .error (cause b)) :
    DecidedBy [.optional bad o cause] r v := by
  refine .of_each (fun all => ?_) fun i b first => ?_
  · cases given : o with
    | none => exact missing given
    | some b =>
      refine accepted b given (all b ?_)
      rw [given]
      exact List.mem_singleton_self b
  · have given : b ∈ o.toList := List.mem_of_getElem? first.entry
    exact refused b (Option.mem_toList.mp given) first.bad_entry

def Demand.tolerance (o : Option Float) (cause : Float → String → MinimizeError Float) :
    Demand Float :=
  .optional (¬FinitePositive ·) o fun x => .invalidConfig (cause x (toleranceReason x)).message

theorem checkCostTolerance_decided (o : Option Float) :
    DecidedBy [.tolerance o .invalidCostTolerance] (asConfig (checkCostTolerance o)) () := by
  refine .of_optional (fun missing => ?_) (fun x given valid => ?_) fun x given invalid => ?_
  · rw [missing]
    rfl
  · rw [given, checkCostTolerance, toleranceFault?_of_finitePositive (not_not.mp valid)]
    rfl
  · rw [given, checkCostTolerance, toleranceFault?_of_not_finitePositive invalid]
    rfl

theorem checkGradientTolerance_decided (o : Option Float) :
    DecidedBy [.tolerance o .invalidGradientTolerance] (asConfig (checkGradientTolerance o))
      () := by
  refine .of_optional (fun missing => ?_) (fun x given valid => ?_) fun x given invalid => ?_
  · rw [missing]
    rfl
  · rw [given, checkGradientTolerance, toleranceFault?_of_finitePositive (not_not.mp valid)]
    rfl
  · rw [given, checkGradientTolerance, toleranceFault?_of_not_finitePositive invalid]
    rfl

def Demand.count (o : Option Nat) (cause : Nat → MinimizeError Float) : Demand Float :=
  .optional (· = 0) o fun n => .invalidConfig (cause n).message

theorem checkIterations_decided (o : Option Nat) :
    DecidedBy [.count o (.invalidIterationCap · "Maximum iterations must be greater than zero.")]
      (asConfig (checkIterations o)) () := by
  refine .of_optional (fun missing => ?_) (fun n given valid => ?_) fun n given invalid => ?_
  · rw [missing]
    rfl
  · rcases Nat.exists_eq_succ_of_ne_zero valid with ⟨k, rfl⟩
    rw [given]
    rfl
  · rw [given, invalid]
    rfl

theorem optionsChecked_decided (tolerances : Tolerances) (lineSearch : LineSearch)
    (verbose : Bool) (memory : Option Nat) :
    DecidedBy [.count memory (.invalidMemory · "L-BFGS memory must be greater than zero.")]
      (asConfig (MinimizerOptions.checked tolerances lineSearch verbose memory))
      ⟨tolerances, lineSearch, verbose, memory⟩ := by
  unfold MinimizerOptions.checked
  refine .of_optional (fun missing => ?_) (fun n given valid => ?_) fun n given invalid => ?_
  · rw [missing]
    rfl
  · rw [if_neg (by rwa [given, Option.some.injEq])]
    rfl
  · rw [if_pos (by rw [given, invalid]), invalid]
    rfl

def Demand.search (o : Option String) : Demand Float :=
  .optional (fun name => name.toLower ∉ ["morethuente", "hagerzhang"]) o fun name =>
    .invalidConfig (MinimizeError.invalidLineSearch name
      "Valid options are case insensitive 'MoreThuente' or 'HagerZhang'." :
        MinimizeError Float).message

/-- The search of a name, which is the usual one unless the other one is named. -/
def LineSearch.named (o : Option String) : LineSearch :=
  if o.any (·.toLower = "hagerzhang") then .hagerZhang else .moreThuente

theorem searched_decided (r : SettingsRequest) :
    DecidedBy [.search r.lineSearch] (asConfig r.searched) (LineSearch.named r.lineSearch) := by
  unfold SettingsRequest.searched LineSearch.named
  refine .of_optional (fun missing => ?_) (fun name given known => ?_) fun name given unknown => ?_
  · rw [missing]
    rfl
  · rw [given]
    have named := not_not.mp known
    simp only [List.mem_cons, List.not_mem_nil, or_false] at named
    rcases named with more | hager
    · simp [LineSearch.ofName, more, asConfig]
    · simp [LineSearch.ofName, hager, asConfig]
  · rw [given]
    have others : name.toLower ≠ "morethuente" ∧ name.toLower ≠ "hagerzhang" := by
      simpa using unknown
    simp [LineSearch.ofName, others.1, others.2, asConfig]

theorem settingsChecked_decided (stepSize : Float) (fallback : MinimizerOptions) :
    DecidedBy [.plain (FinitePositive stepSize) (.invalidStepSize stepSize)]
      (ProximalSettings.checked stepSize fallback) ⟨stepSize, fallback⟩ := by
  unfold ProximalSettings.checked
  refine .of_plain (fun valid => ?_) fun invalid => ?_
  · rw [checkStepSize_eq_ok_iff.mpr (finitePositive_iff.mp valid)]
    rfl
  · have refused : checkStepSize stepSize = .error (.invalidStepSize stepSize) := by
      cases result : checkStepSize stepSize with
      | ok =>
        exact absurd (finitePositive_iff.mpr (checkStepSize_eq_ok_iff.mp result)) invalid
      | error e =>
        unfold checkStepSize at result
        split_ifs at result
        cases result
        rfl
    rw [refused]
    rfl

/-- What a request has to meet, in the order in which it is looked at. -/
def SettingsRequest.demands (r : SettingsRequest) : List (Demand Float) := [
  .tolerance r.costTolerance .invalidCostTolerance,
  .tolerance r.gradientTolerance .invalidGradientTolerance,
  .count r.iterations (.invalidIterationCap · "Maximum iterations must be greater than zero."),
  .search r.lineSearch,
  .count r.memory (.invalidMemory · "L-BFGS memory must be greater than zero."),
  .plain (FinitePositive r.stepSize) (.invalidStepSize r.stepSize)]

def SettingsRequest.granted (r : SettingsRequest) : ProximalSettings :=
  ⟨r.stepSize, ⟨r.gradientTolerance, r.costTolerance, r.iterations⟩,
    LineSearch.named r.lineSearch, r.verbose, r.memory⟩

theorem tolerancesChecked_eq {gradient cost : Option Float} {iterations : Option Nat}
    (given : gradient ≠ none) : Tolerances.checked gradient cost iterations = (do
      checkCostTolerance cost
      checkGradientTolerance gradient
      checkIterations iterations
      pure ⟨gradient, cost, iterations⟩) := by
  rcases Option.ne_none_iff_exists'.mp given with ⟨g, rfl⟩
  rfl

/-- The demands decide a request that gives a tolerance at all. -/
theorem requestChecked_decided {r : SettingsRequest} (given : r.gradientTolerance ≠ none) :
    DecidedBy r.demands r.checked r.granted := by
  unfold SettingsRequest.checked
  rw [tolerancesChecked_eq given]
  simp only [asConfig_bind, bind_assoc]
  refine .cons (checkCostTolerance_decided _) fun _ => ?_
  refine .cons (checkGradientTolerance_decided _) fun _ => ?_
  refine .cons (checkIterations_decided _) fun _ => ?_
  refine .of_passed rfl (.cons (searched_decided r) fun _ => ?_)
  refine .cons (optionsChecked_decided _ _ _ _) fun _ => ?_
  exact settingsChecked_decided _ _

end Demands

section Overlay

variable {d : SettingsDocument}

theorem FallbackDocument.asConfig_options (f : FallbackDocument) (stepSize : Float) :
    (asConfig f.options >>= fun options => ProximalSettings.checked stepSize options) =
      (SettingsDocument.request ⟨stepSize, some f⟩).checked := by
  rcases f with ⟨gradient, cost, iterations, lineSearch, verbose, memory⟩
  unfold FallbackDocument.options SettingsRequest.checked
  cases lineSearch with
  | none =>
    simp only [asConfig_bind, bind_assoc]
    rfl
  | some name =>
    simp only [asConfig_bind, bind_assoc]
    rfl

theorem FallbackDocument.options_blank : blank.options = .ok MinimizerOptions.default := by
  have usual : toleranceFault? 1e-8 = none :=
    toleranceFault?_of_finitePositive ⟨by decide, by decide⟩
  have gradient : checkGradientTolerance (some 1e-8) = .ok () := by
    rw [checkGradientTolerance, usual]
  have tolerances : Tolerances.checked (some 1e-8) none (some 500) =
      .ok MinimizerOptions.default.tolerances := by
    rw [tolerancesChecked_eq (Option.some_ne_none _), gradient]
    rfl
  change (Tolerances.checked (some 1e-8) none (some 500) >>= fun tolerances =>
    MinimizerOptions.checked tolerances .moreThuente false none) = _
  rw [tolerances]
  rfl

theorem SettingsDocument.settings_eq (d : SettingsDocument) : d.settings = d.request.checked := by
  rcases d with ⟨stepSize, fallback⟩
  unfold SettingsDocument.settings
  cases fallback with
  | none =>
    have blank : (⟨stepSize, none⟩ : SettingsDocument).request =
        SettingsDocument.request ⟨stepSize, some FallbackDocument.blank⟩ := rfl
    rw [blank, ← FallbackDocument.asConfig_options, FallbackDocument.options_blank]
    rfl
  | some f =>
    rw [← FallbackDocument.asConfig_options]
    dsimp only
    cases f.options <;> rfl

theorem SettingsDocument.gradientTolerance_ne_none (d : SettingsDocument) :
    d.request.gradientTolerance ≠ none := by
  rcases d with ⟨stepSize, _ | ⟨_ | gradient, _⟩⟩ <;> exact Option.some_ne_none _

theorem SettingsDocument.iterations_ne_none (d : SettingsDocument) :
    d.request.iterations ≠ none := by
  rcases d with ⟨stepSize, _ | ⟨_, _, _ | n, _⟩⟩ <;> exact Option.some_ne_none _

/-- Settings that a run can be made with, and that cap it. -/
structure ProximalSettings.Runnable (s : ProximalSettings) : Prop where
  stepSize : FinitePositive s.stepSize
  gradientTolerance : ∃ x, s.fallback.tolerances.gradient = some x ∧ FinitePositive x
  costTolerance : ∀ x, s.fallback.tolerances.cost = some x → FinitePositive x
  iterations : ∃ n, s.fallback.tolerances.iterations = some n ∧ 1 ≤ n
  memory : ∀ n, s.fallback.memory = some n → 1 ≤ n
  builds : ∀ lineSearch, ∃ settings,
    Lbfgs.Settings.ofOptions { s.fallback with lineSearch := lineSearch } = .ok settings ∧
      some settings.iterations = s.fallback.tolerances.iterations

theorem Demand.met_optional {β : Type} {bad : β → Prop} {o : Option β}
    {cause : β → TermError Float} :
    (optional bad o cause).met ↔ ∀ b, o = some b → ¬bad b := by
  unfold optional
  rw [met_each]
  simp only [Option.mem_toList]

theorem SettingsRequest.runnable_granted {r : SettingsRequest}
    (gradient : r.gradientTolerance ≠ none) (iterations : r.iterations ≠ none)
    (met : ∀ d ∈ r.demands, d.met) : r.granted.Runnable := by
  unfold demands at met
  simp only [List.forall_mem_cons, Demand.tolerance, Demand.count, Demand.search,
    Demand.met_optional, Demand.met_plain, not_not] at met
  rcases met with ⟨cost, tolerance, count, _, memory, stepSize, _⟩
  rcases Option.ne_none_iff_exists'.mp gradient with ⟨g, given⟩
  rcases Option.ne_none_iff_exists'.mp iterations with ⟨n, capped⟩
  have nonnegative {x : Float} (valid : FinitePositive x) : ¬x < 0.0 := by
    intro negative
    exact (finitePositive_iff.mp valid).2 (Binary.le_of_lt negative)
  refine {
    stepSize := stepSize
    gradientTolerance := ⟨g, given, tolerance g given⟩
    costTolerance := cost
    iterations := ⟨n, capped, Nat.one_le_iff_ne_zero.mpr (count n capped)⟩
    memory := fun m hm => Nat.one_le_iff_ne_zero.mpr (memory m hm)
    builds := fun lineSearch => ?_ }
  have gradient_ok : ¬(r.gradientTolerance.getD FiniteDifference.spacing) < 0.0 := by
    rw [given]
    exact nonnegative (tolerance g given)
  have cost_ok : ¬(r.costTolerance.getD positionTolerance) < 0.0 := by
    cases limit : r.costTolerance with
    | none => decide
    | some c => exact nonnegative (cost c limit)
  refine ⟨⟨lineSearch, r.memory.getD Lbfgs.defaultMemory,
    r.gradientTolerance.getD FiniteDifference.spacing, r.costTolerance.getD positionTolerance,
    r.iterations.getD Lbfgs.mostIterations⟩, ?_, ?_⟩
  · unfold Lbfgs.Settings.ofOptions
    dsimp only [granted]
    rw [if_neg gradient_ok, if_neg cost_ok]
    rfl
  · change some (r.iterations.getD _) = r.iterations
    rw [capped]
    rfl

theorem bind_ne_error {ε β γ : Type} {e : ε} {r : Except ε β} {f : β → Except ε γ}
    (first : r ≠ .error e) (rest : ∀ v, f v ≠ .error e) : r >>= f ≠ .error e := by
  intro h
  rcases bind_eq_error.mp h with fails | ⟨v, _, fails⟩
  · exact first fails
  · exact rest v fails

theorem tolerancesChecked_ne_noTolerances {gradient cost : Option Float} {iterations : Option Nat}
    (given : gradient ≠ none) :
    Tolerances.checked gradient cost iterations ≠ .error .noTolerances := by
  rw [tolerancesChecked_eq given]
  refine bind_ne_error ?_ fun _ => bind_ne_error ?_ fun _ => bind_ne_error ?_ fun _ => nofun
  · unfold checkCostTolerance
    split
    · split <;> exact nofun
    · exact nofun
  · unfold checkGradientTolerance
    split
    · split <;> exact nofun
    · exact nofun
  · unfold checkIterations
    split <;> exact nofun

/-- Settings that a text is read as are said by the tree that it sets out, and are looked at as the
request that they make over the defaults. The request is granted if all demands are met, and
otherwise refused with the cause that the first missed demand names, which is never that there are
no tolerances. Whatever is granted can be run, and its run is capped. -/
theorem settings_granted_or_first_fault {text : String} {d : SettingsDocument}
    (parsed : Json.read SettingsDocument.form.read text = .ok d) :
    (∃ v, Json.Value.SetOut v text ∧ SettingsDocument.SaidBy v d) ∧
      ProximalSettings.ofText text = d.settings ∧
      d.settings = d.request.checked ∧
      (∀ s, d.settings = .ok s ↔
        (∀ demand ∈ d.request.demands, demand.met) ∧ s = d.request.granted) ∧
      (∀ e, d.settings = .error e ↔ FirstFault d.request.demands e) ∧
      Tolerances.checked d.request.gradientTolerance d.request.costTolerance
        d.request.iterations ≠ .error .noTolerances ∧
      ∀ s, d.settings = .ok s → s.Runnable := by
  have same := d.settings_eq
  have gradient := d.gradientTolerance_ne_none
  have decided := requestChecked_decided gradient
  refine ⟨SettingsDocument.exists_saidBy_of_read parsed, by rw [ProximalSettings.ofText, parsed],
    same, fun s => ?_, fun e => ?_, tolerancesChecked_ne_noTolerances gradient, fun s accepted => ?_⟩
  · rw [same]
    exact decided.ok_iff
  · rw [same]
    exact decided.error_iff
  · rw [same] at accepted
    obtain ⟨met, rfl⟩ := decided.ok_iff.mp accepted
    exact SettingsRequest.runnable_granted gradient d.iterations_ne_none met

theorem settings_granted_or_first_fault_partial :
    Json.read SettingsDocument.form.read partialText = .ok partialSettings ∧
      ProximalSettings.ofText partialText =
        .ok ⟨0.5, ⟨some 1e-8, none, some 40⟩, .hagerZhang, false, none⟩ ∧
      ProximalSettings.Runnable ⟨0.5, ⟨some 1e-8, none, some 40⟩, .hagerZhang, false, none⟩ := by
  have parsed := read_partialText
  obtain ⟨_, text, _, accepted, _, _, runnable⟩ := settings_granted_or_first_fault parsed
  have granted : partialSettings.settings =
      .ok ⟨0.5, ⟨some 1e-8, none, some 40⟩, .hagerZhang, false, none⟩ := by
    have named : LineSearch.named (some "hagerZHANG") = .hagerZhang := by decide +kernel
    refine (accepted _).mpr ⟨?_, by rw [← named]; rfl⟩
    simp only [SettingsRequest.demands, List.forall_mem_cons, Demand.tolerance, Demand.count,
      Demand.search, Demand.met_optional, Demand.met_plain, not_not]
    refine ⟨nofun, ?_, ?_, ?_, nofun, ?_, nofun⟩
    · rintro _ ⟨⟩
      exact ⟨by decide, by decide⟩
    · rintro _ ⟨⟩
      decide
    · rintro _ ⟨⟩
      decide +kernel
    · exact ⟨by decide, by decide⟩
  exact ⟨parsed, text.trans granted, runnable _ granted⟩

end Overlay

end RuleConsensus
