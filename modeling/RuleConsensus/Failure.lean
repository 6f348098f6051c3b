/-!
What keeps a computation from its value. It may report an error, which its caller can look at; or it
may be silent and not come back at all, because it breaks off or runs without end. A loop is silent
exactly if no pass of it is the last one.
-/

set_option autoImplicit false
set_option relaxedAutoImplicit false

namespace RuleConsensus

inductive Failure (ε : Type)
  | reported (cause : ε)
  | silent
  deriving DecidableEq, Repr

namespace Failure

variable {ε ζ σ β : Type}

/-- Another wording of what is reported. -/
def map (f : ε → ζ) : Failure ε → Failure ζ
  | reported cause => reported (f cause)
  | silent => silent

/-- A result with its error as one that is reported. -/
def report : Except ε β → Except (Failure ε) β
  | .ok v => .ok v
  | .error e => .error (.reported e)

/-- The result of the first pass that goes on to no other state. -/
def loop? (pass : σ → Except (Failure ε) (σ ⊕ β)) (s : σ) : Option (Except (Failure ε) β) :=
  match pass s with
  | .error e => some (.error e)
  | .ok (.inr v) => some (.ok v)
  | .ok (.inl t) => by
    -- Put together step by step, the call keeps no position of the source in its term.
    apply loop?
    · exact pass
    · exact t
partial_fixpoint

/-- Make a pass after the other, from state to state, up to the first that gives a value or fails. -/
def loop (pass : σ → Except (Failure ε) (σ ⊕ β)) (s : σ) : Except (Failure ε) β :=
  (loop? pass s).getD (.error .silent)

theorem loop_eq (pass : σ → Except (Failure ε) (σ ⊕ β)) (s : σ) :
    loop pass s = match pass s with
      | .error e => .error e
      | .ok (.inr v) => .ok v
      | .ok (.inl t) => loop pass t := by
  unfold loop
  rw [loop?]
  cases pass s with
  | error e => rfl
  | ok next => cases next <;> rfl

/-- What holds of silence, and of every end that a pass can make of a state with an invariant, holds
of the loop. -/
theorem loop_induction {pass : σ → Except (Failure ε) (σ ⊕ β)} {I : σ → Prop}
    {Q : Except (Failure ε) β → Prop} (silent : Q (.error .silent))
    (fails : ∀ s e, I s → pass s = .error e → Q (.error e))
    (ends : ∀ s v, I s → pass s = .ok (.inr v) → Q (.ok v))
    (goesOn : ∀ s t, I s → pass s = .ok (.inl t) → I t) {s : σ} (start : I s) :
    Q (loop pass s) := by
  have reached : ∀ s r, loop? pass s = some r → I s → Q r := by
    apply loop?.partial_correctness
    intro rest ih s r found holds
    split at found
    case h_1 e failed =>
      obtain rfl := Option.some.inj found
      exact fails s e holds failed
    case h_2 v ended =>
      obtain rfl := Option.some.inj found
      exact ends s v holds ended
    case h_3 t next => exact ih t r found (goesOn s t holds next)
  unfold loop
  cases found : loop? pass s with
  | none => exact silent
  | some r => exact reached s r found start

@[simp] theorem report_eq_ok_iff {r : Except ε β} {v : β} : report r = .ok v ↔ r = .ok v := by
  cases r <;> simp [report]

theorem report_eq_error_iff {r : Except ε β} {failure : Failure ε} :
    report r = .error failure ↔ ∃ e, r = .error e ∧ .reported e = failure := by
  cases r <;> simp [report]

end Failure

end RuleConsensus
