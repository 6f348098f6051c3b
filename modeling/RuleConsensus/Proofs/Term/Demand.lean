import RuleConsensus.Proofs.Term.Frame
import RuleConsensus.Proofs.Term.WellFormed

/-!
Checks as demands in order. A demand is a condition together with the cause that is named where it
does not hold. A result that demands decide is a value if all of them are met, and otherwise the
cause named by the first one that is not.
-/

set_option autoImplicit false
set_option relaxedAutoImplicit false

namespace RuleConsensus

/-- A condition, and the one cause that may be named where it does not hold. -/
structure Demand (α : Type) where
  met : Prop
  names : TermError α → Prop
  sharp : ∀ e e', names e → names e' → e = e'

section First

variable {β : Type} {bad : β → Prop} {l : List β}

/-- The first bad entry of a list, with its position. -/
structure FirstBad (bad : β → Prop) (l : List β) (i : Nat) (b : β) : Prop where
  entry : l[i]? = some b
  bad_entry : bad b
  before : ∀ j < i, ∀ c, l[j]? = some c → ¬bad c

theorem FirstBad.unique {i i' : Nat} {b b' : β} (h : FirstBad bad l i b)
    (h' : FirstBad bad l i' b') : i = i' ∧ b = b' := by
  obtain earlier | rfl | later := Nat.lt_trichotomy i i'
  · exact absurd h.bad_entry (h'.before i earlier b h.entry)
  · exact ⟨rfl, Option.some.inj (h.entry.symm.trans h'.entry)⟩
  · exact absurd h'.bad_entry (h.before i' later b' h'.entry)

theorem all_or_firstBad (bad : β → Prop) (l : List β) :
    (∀ b ∈ l, ¬bad b) ∨ ∃ i b, FirstBad bad l i b := by
  induction l with
  | nil => exact .inl (by simp)
  | cons b l ih =>
    by_cases h : bad b
    · exact .inr ⟨0, b, rfl, h, by simp⟩
    · obtain all | ⟨i, c, entry, bad_entry, before⟩ := ih
      · exact .inl (List.forall_mem_cons.mpr ⟨h, all⟩)
      · refine .inr ⟨i + 1, c, entry, bad_entry, fun j hj d hd => ?_⟩
        cases j with
        | zero => exact Option.some.inj hd ▸ h
        | succ j => exact before j (by omega) d hd

end First

namespace Demand

variable {α : Type}

def plain (met : Prop) (cause : TermError α) : Demand α where
  met := met
  names e := e = cause
  sharp _ _ h h' := h.trans h'.symm

/-- No entry of a list may be bad. The first bad one is named with its position. -/
def each {β : Type} (bad : β → Prop) (l : List β) (cause : Nat → β → TermError α) : Demand α where
  met := ∀ b ∈ l, ¬bad b
  names e := ∃ i b, FirstBad bad l i b ∧ e = cause i b
  sharp := by
    rintro _ _ ⟨i, b, h, rfl⟩ ⟨i', b', h', rfl⟩
    obtain ⟨rfl, rfl⟩ := h.unique h'
    rfl

@[simp] theorem met_plain (met : Prop) (cause : TermError α) : (plain met cause).met = met := rfl

@[simp] theorem met_each {β : Type} (bad : β → Prop) (l : List β) (cause : Nat → β → TermError α) :
    (each bad l cause).met = ∀ b ∈ l, ¬bad b := rfl

/-- No index may repeat an earlier one. -/
def distinct (indices : List Nat) : Demand α where
  met := indices.Nodup
  names e := ∃ a, FirstRepeat indices a ∧ e = .duplicateIndex a.index a.first a.second
  sharp := by
    rintro _ _ ⟨a, h, rfl⟩ ⟨b, h', rfl⟩
    rw [h.unique h']

@[simp] theorem met_distinct (indices : List Nat) :
    (distinct indices : Demand α).met = indices.Nodup := rfl

end Demand

variable {α β γ : Type}

/-- The cause that is named by the first of some demands that is not met. -/
inductive FirstFault : List (Demand α) → TermError α → Prop
  | here {d : Demand α} {ds : List (Demand α)} {e : TermError α} (unmet : ¬d.met)
      (named : d.names e) : FirstFault (d :: ds) e
  | later {d : Demand α} {ds : List (Demand α)} {e : TermError α} (met : d.met)
      (rest : FirstFault ds e) : FirstFault (d :: ds) e

theorem FirstFault.unique {ds : List (Demand α)} {e e' : TermError α} (h : FirstFault ds e)
    (h' : FirstFault ds e') : e = e' := by
  induction h with
  | here unmet named =>
    cases h' with
    | here _ named' => exact Demand.sharp _ _ _ named named'
    | later met _ => exact absurd met unmet
  | later met _ ih =>
    cases h' with
    | here unmet _ => exact absurd met unmet
    | later _ rest => exact ih rest

theorem FirstFault.append {ds : List (Demand α)} {e : TermError α} (h : FirstFault ds e)
    (ds' : List (Demand α)) : FirstFault (ds ++ ds') e := by
  induction h with
  | here unmet named => exact .here unmet named
  | later met _ ih => exact .later met ih

theorem FirstFault.after {ds ds' : List (Demand α)} {e : TermError α} (met : ∀ d ∈ ds, d.met)
    (h : FirstFault ds' e) : FirstFault (ds ++ ds') e := by
  induction ds with
  | nil => exact h
  | cons d ds ih =>
    rw [List.forall_mem_cons] at met
    exact .later met.1 (ih met.2)

theorem FirstFault.exists_named {ds : List (Demand α)} {e : TermError α} (h : FirstFault ds e) :
    ∃ d ∈ ds, ¬d.met ∧ d.names e := by
  induction h with
  | here unmet named => exact ⟨_, List.mem_cons_self, unmet, named⟩
  | later _ _ ih =>
    obtain ⟨d, hd, h⟩ := ih
    exact ⟨d, List.mem_cons_of_mem _ hd, h⟩

/-- A result that is a given value if all demands are met, and otherwise the cause named by the
first that is not. -/
def DecidedBy (ds : List (Demand α)) (r : Except (TermError α) β) (v : β) : Prop :=
  ((∀ d ∈ ds, d.met) ∧ r = .ok v) ∨ ∃ e, FirstFault ds e ∧ r = .error e

namespace DecidedBy

theorem ok_iff {ds : List (Demand α)} {r : Except (TermError α) β} {v w : β}
    (decided : DecidedBy ds r v) : r = .ok w ↔ (∀ d ∈ ds, d.met) ∧ w = v := by
  obtain ⟨all, rfl⟩ | ⟨e, fault, rfl⟩ := decided
  · constructor
    · intro h
      exact ⟨all, (Except.ok.inj h).symm⟩
    · rintro ⟨_, rfl⟩
      rfl
  · constructor
    · intro h
      cases h
    · rintro ⟨all, _⟩
      obtain ⟨d, hd, unmet, _⟩ := fault.exists_named
      exact absurd (all d hd) unmet

theorem error_iff {ds : List (Demand α)} {r : Except (TermError α) β} {v : β}
    (decided : DecidedBy ds r v) {e : TermError α} : r = .error e ↔ FirstFault ds e := by
  obtain ⟨all, rfl⟩ | ⟨e', fault, rfl⟩ := decided
  · constructor
    · intro h
      cases h
    · intro h
      obtain ⟨d, hd, unmet, _⟩ := h.exists_named
      exact absurd (all d hd) unmet
  · rw [Except.error.injEq]
    exact ⟨fun h => h ▸ fault, fun h => fault.unique h⟩

theorem of_ok {v : β} : DecidedBy ([] : List (Demand α)) (.ok v) v :=
  .inl ⟨by simp, rfl⟩

/-- After some checks the others are decided by the demands that come after those of the first. -/
theorem append {ds ds' : List (Demand α)} {r : Except (TermError α) β}
    {f : β → Except (TermError α) γ} {v : β} {w : γ} (first : DecidedBy ds r v)
    (rest : (∀ d ∈ ds, d.met) → DecidedBy ds' (f v) w) : DecidedBy (ds ++ ds') (r >>= f) w := by
  obtain ⟨all, rfl⟩ | ⟨e, fault, rfl⟩ := first
  · obtain ⟨all', h⟩ | ⟨e, fault, h⟩ := rest all
    · exact .inl ⟨List.forall_mem_append.mpr ⟨all, all'⟩, h⟩
    · exact .inr ⟨e, .after all fault, h⟩
  · exact .inr ⟨e, fault.append ds', rfl⟩

theorem cons {d : Demand α} {ds : List (Demand α)} {r : Except (TermError α) β}
    {f : β → Except (TermError α) γ} {v : β} {w : γ} (first : DecidedBy [d] r v)
    (rest : d.met → DecidedBy ds (f v) w) : DecidedBy (d :: ds) (r >>= f) w :=
  append first fun all => rest (all d List.mem_cons_self)

theorem finish {ds : List (Demand α)} {r : Except (TermError α) β} {v : β} {w : γ}
    (checked : DecidedBy ds r v) : DecidedBy ds (r >>= fun _ => .ok w) w := by
  obtain ⟨all, rfl⟩ | ⟨e, fault, rfl⟩ := checked
  · exact .inl ⟨all, rfl⟩
  · exact .inr ⟨e, fault, rfl⟩

theorem of_passed {ds : List (Demand α)} {r : Except (TermError α) β}
    {f : β → Except (TermError α) γ} {v : β} {w : γ} (passed : r = .ok v)
    (rest : DecidedBy ds (f v) w) : DecidedBy ds (r >>= f) w :=
  passed ▸ rest

theorem of_plain {met : Prop} {cause : TermError α} {r : Except (TermError α) β} {v : β}
    (accepted : met → r = .ok v) (refused : ¬met → r = .error cause) :
    DecidedBy [.plain met cause] r v := by
  by_cases h : met
  · exact .inl ⟨by simpa using h, accepted h⟩
  · exact .inr ⟨cause, .here h rfl, refused h⟩

theorem of_each {bad : β → Prop} {l : List β} {cause : Nat → β → TermError α}
    {r : Except (TermError α) γ} {v : γ} (accepted : (∀ b ∈ l, ¬bad b) → r = .ok v)
    (refused : ∀ i b, FirstBad bad l i b → r = .error (cause i b)) :
    DecidedBy [.each bad l cause] r v := by
  obtain all | ⟨i, b, first⟩ := all_or_firstBad bad l
  · exact .inl ⟨by simpa using all, accepted all⟩
  · have unmet : ¬∀ c ∈ l, ¬bad c := fun all =>
      all b (List.mem_of_getElem? first.entry) first.bad_entry
    exact .inr ⟨cause i b, .here unmet ⟨i, b, first, rfl⟩, refused i b first⟩

end DecidedBy

section Checks

theorem checkArity_decided (n : Nat) :
    DecidedBy [.plain (n ≠ 0) .emptyBlock] (checkArity n : Except (TermError α) Unit) () :=
  .of_plain checkArity_eq_ok_iff.mpr fun h => if_pos (Decidable.not_not.mp h)

theorem checkIndices_decided (indices : List Nat) (n : Nat) :
    DecidedBy [.plain (indices.length = n) (.dimensionMismatch "z_indices" n indices.length),
      .distinct indices] (checkIndices indices n : Except (TermError α) Unit) () := by
  refine .cons (.of_plain (fun h => checkLength_eq_ok_iff.mpr h.symm)
    fun h => if_pos (Ne.symm h)) fun _ => ?_
  cases found : firstAlias? indices with
  | none =>
    have distinct := firstAlias?_eq_none_iff.mp found
    exact .inl ⟨by simpa using distinct, rfl⟩
  | some a =>
    have repeated := firstAlias?_eq_some_iff.mp found
    exact .inr ⟨_, .here repeated.not_nodup ⟨a, repeated, rfl⟩, rfl⟩

variable [Scalar α]

def Demand.finite (v : List α) (cause : Nat → α → TermError α) : Demand α :=
  .each (fun a => Scalar.isFinite a = false) v cause

@[simp] theorem Demand.met_finite (v : List α) (cause : Nat → α → TermError α) :
    (finite v cause).met = ∀ a ∈ v, ¬Scalar.isFinite a = false := rfl

theorem DecidedBy.of_finite {v : List α} {cause : Nat → α → TermError α}
    {r : Except (TermError α) β} {w : β} (accepted : Vector.Finite v → r = .ok w)
    (refused : ∀ i a, Vector.firstNonFinite? v = some (i, a) → r = .error (cause i a)) :
    DecidedBy [.finite v cause] r w := by
  refine .of_each (fun all => accepted fun a ha => ?_) fun i a first => refused i a ?_
  · exact Bool.not_eq_false _ ▸ all a ha
  · refine Vector.firstNonFinite?_eq_some_iff.mpr ⟨first.entry, first.bad_entry, ?_⟩
    intro j hj b hb
    exact Bool.not_eq_false _ ▸ first.before j hj b hb

theorem checkCoefficients_decided (c : List α) :
    DecidedBy [.finite c .invalidCoefficient] (checkCoefficients c) () := by
  refine .of_finite checkCoefficients_eq_ok_iff.mpr fun i a first => ?_
  rw [checkCoefficients, first]

theorem checkConstant_decided (k : α) :
    DecidedBy [.plain (Scalar.isFinite k = true) (.invalidConstant k)] (checkConstant k) () :=
  .of_plain checkConstant_eq_ok_iff.mpr fun h => if_neg h

def Demand.weight (w : α) : Demand α :=
  .plain (Scalar.isNaN w = false ∧ ¬w < 0) (.invalidWeight w
    (if Scalar.isNaN w then "Weight must not be NaN." else "Weight must be non-negative."))

@[simp] theorem Demand.met_weight (w : α) :
    (weight w).met = (Scalar.isNaN w = false ∧ ¬w < 0) := rfl

theorem checkWeight_decided (w : α) : DecidedBy [.weight w] (checkWeight w) () := by
  refine .of_plain checkWeight_eq_ok_iff.mpr fun h => ?_
  unfold checkWeight
  cases defined : Scalar.isNaN w with
  | true => rfl
  | false =>
    have negative : w < 0 := Decidable.not_not.mp fun h' => h ⟨defined, h'⟩
    simp [negative]

theorem checkLocalVector_decided {what : String} {v : List α} {n : Nat} (hv : v.length = n) :
    DecidedBy [.finite v (.nonFiniteInput what)] (checkLocalVector what v n) () :=
  .of_finite (fun h => checkLocalVector_eq_ok_iff.mpr ⟨hv, h⟩)
    fun _ _ first => checkLocalVector_of_firstNonFinite hv first

/-- What the data of a block have to meet, besides the step size. -/
def Block.demands (c : List α) (k w : α) (indices : List Nat) (z : List α) : List (Demand α) :=
  [.plain (c.length ≠ 0) .emptyBlock, .finite c .invalidCoefficient,
    .plain (Scalar.isFinite k = true) (.invalidConstant k), .weight w,
    .plain (indices.length = c.length) (.dimensionMismatch "z_indices" c.length indices.length),
    .distinct indices, .finite z (.nonFiniteInput "initial consensus")]

/-- With an accepted step size, and a consensus for the indices, the demands decide. -/
theorem Block.build_decided (termId : Nat) (c : List α) (k w : α) {rho : α} {indices : List Nat}
    {z : List α} (passed : checkStepSize rho = .ok ()) (hz : z.length = indices.length) :
    DecidedBy (Block.demands c k w indices z) (Block.build termId c k w rho indices z)
      ⟨termId, c, k, w, rho, indices, z, Vector.zeros c.length, z⟩ := by
  refine .cons (checkArity_decided _) fun _ => .cons (checkCoefficients_decided c) fun _ => ?_
  refine .cons (checkConstant_decided k) fun _ => .cons (checkWeight_decided w) fun _ => ?_
  refine .of_passed passed (.append (checkIndices_decided indices c.length) fun met => ?_)
  have lengths : indices.length = c.length := met _ List.mem_cons_self
  exact .cons (checkLocalVector_decided (hz.trans lengths)) fun _ => .of_ok

end Checks

end RuleConsensus
