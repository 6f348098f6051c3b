import RuleConsensus.Failure

/-!
Values with a record of what happened on the way. Events are kept as values, oldest first, and
never read back, so a journal cannot change a result.
-/

set_option autoImplicit false
set_option relaxedAutoImplicit false

namespace RuleConsensus

/-- A value with the events recorded while it was computed, oldest first. -/
structure Logged (ε β : Type) where
  value : β
  events : List ε

namespace Logged

variable {ε β γ : Type}

def quiet (v : β) : Logged ε β := ⟨v, []⟩

/-- Go on from a value, keeping its events first. -/
def andThen (v : Logged ε β) (next : β → Logged ε γ) : Logged ε γ :=
  let w := next v.value
  ⟨w.value, v.events ++ w.events⟩

def note (e : ε) : Logged ε Unit := ⟨(), [e]⟩

def map (f : β → γ) (v : Logged ε β) : Logged ε γ := ⟨f v.value, v.events⟩

instance : Monad (Logged ε) where
  pure := quiet
  bind := andThen

@[simp] theorem value_pure (v : β) : (pure v : Logged ε β).value = v := rfl

@[simp] theorem value_bind (v : Logged ε β) (next : β → Logged ε γ) :
    (v >>= next).value = (next v.value).value := rfl

@[simp] theorem value_map (f : β → γ) (v : Logged ε β) : (v.map f).value = f v.value := rfl

end Logged

/-- What an update leaves behind: the state after it, and why it failed, if it did. -/
structure Update (σ ε : Type) where
  state : σ
  failure : Option (Failure ε)

namespace Update

variable {σ τ ε : Type}

def done (s : σ) : Update σ ε := ⟨s, none⟩

def failed (s : σ) (e : Failure ε) : Update σ ε := ⟨s, some e⟩

def map (f : σ → τ) (u : Update σ ε) : Update τ ε := ⟨f u.state, u.failure⟩

@[simp] theorem state_done (s : σ) : (done s : Update σ ε).state = s := rfl

@[simp] theorem failure_done (s : σ) : (done s : Update σ ε).failure = none := rfl

@[simp] theorem state_failed (s : σ) (e : Failure ε) : (failed s e).state = s := rfl

@[simp] theorem failure_failed (s : σ) (e : Failure ε) : (failed s e).failure = some e := rfl

@[simp] theorem state_map (f : σ → τ) (u : Update σ ε) : (u.map f).state = f u.state := rfl

@[simp] theorem failure_map (f : σ → τ) (u : Update σ ε) : (u.map f).failure = u.failure := rfl

end Update

end RuleConsensus
