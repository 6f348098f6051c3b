import RuleConsensus.Json.Form
import RuleConsensus.Json.Message
import RuleConsensus.Minimizer.Options
import RuleConsensus.Term.Check

set_option autoImplicit false
set_option relaxedAutoImplicit false

namespace RuleConsensus

/-- The step size of the terms and the options of their fallback. -/
structure ProximalSettings where
  stepSize : Float
  fallback : MinimizerOptions

namespace ProximalSettings

def defaultStepSize : Float := 1.0

def default : ProximalSettings := ⟨defaultStepSize, MinimizerOptions.default⟩

/-- Accept settings: the step size has to be finite and positive. -/
def checked (stepSize : Float) (fallback : MinimizerOptions) :
    Except (TermError Float) ProximalSettings := do
  checkStepSize stepSize
  pure ⟨stepSize, fallback⟩

def same (a b : ProximalSettings) : Bool :=
  a.stepSize == b.stepSize && a.fallback.same b.fallback

end ProximalSettings

structure FallbackDocument where
  gradientTolerance : Option Float
  costTolerance : Option Float
  iterations : Option Nat
  lineSearch : Option String
  verbose : Bool
  memory : Option Nat

namespace FallbackDocument

def blank : FallbackDocument := ⟨none, none, none, none, false, none⟩

def form : Json.Form FallbackDocument FallbackDocument where
  name := "RawFallbackConfig"
  closed := true
  blank := blank
  finish := .ok
  members := [
    ("tol_grad", fun ts => do
      let (v, ts) ← Json.Reader.orNull Json.Reader.float ts
      pure (fun d => { d with gradientTolerance := v }, ts)),
    ("tol_cost", fun ts => do
      let (v, ts) ← Json.Reader.orNull Json.Reader.float ts
      pure (fun d => { d with costTolerance := v }, ts)),
    ("max_iter", fun ts => do
      let (v, ts) ← Json.Reader.orNull (Json.Reader.natural "usize") ts
      pure (fun d => { d with iterations := v }, ts)),
    ("line_searcher", fun ts => do
      let (v, ts) ← Json.Reader.orNull Json.Reader.string ts
      pure (fun d => { d with lineSearch := v }, ts)),
    ("verbose", fun ts => do
      let (v, ts) ← Json.Reader.boolean ts
      pure (fun d => { d with verbose := v }, ts)),
    ("lbfgs_mem", fun ts => do
      let (v, ts) ← Json.Reader.orNull (Json.Reader.natural "usize") ts
      pure (fun d => { d with memory := v }, ts))]

def options (d : FallbackDocument) : Except (MinimizeError Float) MinimizerOptions := do
  let defaults := MinimizerOptions.default
  let tolerances ← Tolerances.checked
    (d.gradientTolerance.or defaults.tolerances.gradient)
    (d.costTolerance.or defaults.tolerances.cost)
    (d.iterations.or defaults.tolerances.iterations)
  let lineSearch ←
    match d.lineSearch with
    | some name => LineSearch.ofName name
    | none => pure defaults.lineSearch
  MinimizerOptions.checked tolerances lineSearch d.verbose (d.memory.or defaults.memory)

end FallbackDocument

structure SettingsDocument where
  stepSize : Float
  fallback : Option FallbackDocument

namespace SettingsDocument

def form : Json.Form SettingsDocument SettingsDocument where
  name := "RawProximalConfig"
  closed := true
  blank := ⟨ProximalSettings.defaultStepSize, none⟩
  finish := .ok
  members := [
    ("step_size", fun ts => do
      let (v, ts) ← Json.Reader.float ts
      pure (fun d => { d with stepSize := v }, ts)),
    ("fallback", fun ts => do
      let (v, ts) ← Json.Reader.orNull FallbackDocument.form.read ts
      pure (fun d => { d with fallback := v }, ts))]

/-- The settings that a document asks for. A fault of the options is reported as one of the
settings. -/
def settings (d : SettingsDocument) : Except (TermError Float) ProximalSettings := do
  let options ←
    match d.fallback with
    | none => pure MinimizerOptions.default
    | some f =>
      match f.options with
      | .ok o => pure o
      | .error e => throw (.invalidConfig e.message)
  ProximalSettings.checked d.stepSize options

end SettingsDocument

/-- The settings that a text asks for. A text that is no document of settings is refused with what
is wrong with it, but not where. -/
def ProximalSettings.ofText (text : String) : Except (TermError Float) ProximalSettings :=
  match Json.read SettingsDocument.form.read text with
  | .ok d => d.settings
  | .error m => .error (.invalidConfig m.message)

end RuleConsensus
