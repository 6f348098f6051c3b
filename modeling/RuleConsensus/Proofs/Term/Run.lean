import Mathlib.Logic.Relation
import RuleConsensus.Proofs.Term.Accepted

/-!
Terms under operations. A term is built from a block by one of the constructors; from then on its
local vectors change by five operations, any of which may fail. Whatever an operation does comes
down to a few writes, each of one local vector. Nothing else about the term ever changes.
-/

set_option autoImplicit false
set_option relaxedAutoImplicit false

namespace RuleConsensus

variable {α : Type}

inductive Operation (α : Type)
  | setConsensus (v : List α)
  | setDual (v : List α)
  | dualStep
  | solve
  | proximalStep (v : List α)

inductive Operation.Solves : Operation α → Prop
  | solve : Operation.Solves .solve
  | proximalStep (v : List α) : Operation.Solves (.proximalStep v)

namespace Potential

def withConsensus (p : Potential α) (z : List α) : Potential α :=
  { p with block := { p.block with z := z } }

def withDual (p : Potential α) (y : List α) : Potential α :=
  { p with block := { p.block with y := y } }

def withPrimal (p : Potential α) (x : List α) : Potential α :=
  { p with block := { p.block with x := x } }

/-- Two states of one term: all but the local vectors agree. -/
def SameRule (p q : Potential α) : Prop :=
  ∃ x y z, q = ⟨{ p.block with x := x, y := y, z := z }, p.kind⟩

theorem SameRule.refl (p : Potential α) : SameRule p p :=
  ⟨p.block.x, p.block.y, p.block.z, rfl⟩

theorem SameRule.trans {p q r : Potential α} (h : SameRule p q) (h' : SameRule q r) :
    SameRule p r := by
  obtain ⟨_, _, _, rfl⟩ := h
  obtain ⟨x, y, z, rfl⟩ := h'
  exact ⟨x, y, z, rfl⟩

theorem SameRule.indices_eq {p q : Potential α} (same : SameRule p q) :
    q.block.indices = p.block.indices := by
  obtain ⟨x, y, z, rfl⟩ := same
  rfl

theorem SameRule.arity_eq {p q : Potential α} (same : SameRule p q) :
    q.block.arity = p.block.arity := by
  obtain ⟨x, y, z, rfl⟩ := same
  rfl

theorem SameRule.weight_eq {p q : Potential α} (same : SameRule p q) :
    q.block.weight = p.block.weight := by
  obtain ⟨x, y, z, rfl⟩ := same
  rfl

theorem SameRule.kind_eq {p q : Potential α} (same : SameRule p q) : q.kind = p.kind := by
  obtain ⟨x, y, z, rfl⟩ := same
  rfl

end Potential

variable [Scalar α]

def Block.Constructed (b : Block α) : Prop :=
  ∃ termId coefficients constant weight stepSize indices consensus,
    Block.build termId coefficients constant weight stepSize indices consensus = .ok b

namespace Potential

inductive Constructed : Potential α → Prop
  | squaredHinge {b : Block α} {fallback : Fallback α} {p : Potential α} :
      b.Constructed → (Potential.squaredHinge b fallback).value = .ok p → Constructed p
  | linearHinge {b : Block α} {p : Potential α} :
      b.Constructed → (Potential.linearHinge b).value = .ok p → Constructed p
  | hardRule {b : Block α} {comparator : Comparator} {p : Potential α} :
      b.Constructed → (Potential.hardRule b comparator).value = .ok p → Constructed p

section Checks

variable {termId : Nat} {c z : List α} {k w rho : α} {indices : List Nat}
  (block : (c.length ≠ 0 ∧ Vector.Finite c ∧ Scalar.isFinite k = true) ∧
    (Scalar.isNaN w = false ∧ ¬w < 0) ∧ (Scalar.isFinite rho = true ∧ ¬rho ≤ 0) ∧
    (indices.length = c.length ∧ firstAlias? indices = none) ∧
    z.length = c.length ∧ Vector.Finite z)

include block

theorem constructed_block_of_checks :
    Block.Constructed ⟨termId, c, k, w, rho, indices, z, Vector.zeros c.length, z⟩ := by
  obtain ⟨data, weight, stepSize, map, consensus⟩ := block
  exact ⟨termId, c, k, w, rho, indices, z,
    Block.build_eq_ok_iff.mpr ⟨data, weight, stepSize, map, consensus, rfl⟩⟩

theorem constructed_of_checks {fallback : Fallback α}
    (hinge : Scalar.isFinite w = true ∧
      Scalar.isFinite (Scalar.two * w * Vector.dot c c) = true ∧
      Scalar.isFinite (Scalar.two * w * Scalar.abs k * Vector.maxAbs c) = true) :
    Constructed ⟨⟨termId, c, k, w, rho, indices, z, Vector.zeros c.length, z⟩,
      .squaredHinge fallback⟩ := by
  refine .squaredHinge (constructed_block_of_checks block) (squaredHinge_eq_ok_iff.mpr ⟨?_, rfl⟩)
  exact SquaredHinge.check_eq_ok_iff.mpr ⟨⟨block.2.1, hinge.1⟩, hinge.2⟩

theorem constructed_hardRule_of_checks {comparator : Comparator}
    (rule : c.all (· == 0) = true → HardRule.satisfied comparator (-k) = true) :
    Constructed ⟨⟨termId, c, k, w, rho, indices, z, Vector.zeros c.length, z⟩,
      .hardRule comparator⟩ :=
  .hardRule (constructed_block_of_checks block)
    (hardRule_eq_ok_iff.mpr ⟨HardRule.check_eq_ok_iff.mpr rule, rfl⟩)

end Checks

theorem Constructed.block {p : Potential α} (constructed : p.Constructed) :
    p.block.Constructed := by
  cases constructed with
  | squaredHinge hb hp => exact (squaredHinge_eq_ok_iff.mp hp).2 ▸ hb
  | linearHinge hb hp => exact (linearHinge_eq_ok_iff.mp hp).2 ▸ hb
  | hardRule hb hp => exact (hardRule_eq_ok_iff.mp hp).2 ▸ hb

theorem Constructed.check_squaredHinge {p : Potential α} (constructed : p.Constructed)
    {fallback : Fallback α} (hinge : p.kind = .squaredHinge fallback) :
    SquaredHinge.check p.block = .ok () := by
  cases constructed with
  | squaredHinge hb hp =>
    obtain ⟨checked, rfl⟩ := squaredHinge_eq_ok_iff.mp hp
    exact checked
  | linearHinge hb hp =>
    obtain ⟨_, rfl⟩ := linearHinge_eq_ok_iff.mp hp
    cases hinge
  | hardRule hb hp =>
    obtain ⟨_, rfl⟩ := hardRule_eq_ok_iff.mp hp
    cases hinge

theorem Constructed.check_hardRule {p : Potential α} (constructed : p.Constructed)
    {comparator : Comparator} (rule : p.kind = .hardRule comparator) :
    HardRule.check p.block comparator = .ok () := by
  cases constructed with
  | squaredHinge hb hp =>
    obtain ⟨_, rfl⟩ := squaredHinge_eq_ok_iff.mp hp
    cases rule
  | linearHinge hb hp =>
    obtain ⟨_, rfl⟩ := linearHinge_eq_ok_iff.mp hp
    cases rule
  | hardRule hb hp =>
    obtain ⟨checked, rfl⟩ := hardRule_eq_ok_iff.mp hp
    cases rule
    exact checked

/-- A term that was built, whatever its local vectors are since, as long as the dual has one entry
for each variable. -/
def Built (p : Potential α) : Prop :=
  ∃ origin : Potential α, origin.Constructed ∧ SameRule origin p ∧
    p.block.y.length = p.block.arity

def apply (p : Potential α) : Operation α → Update (Potential α) (TermError α)
  | .setConsensus v => p.setConsensus v
  | .setDual v => p.setDual v
  | .dualStep => p.dualStep
  | .solve => p.solve.value
  | .proximalStep v => (p.proximalStep v).value

/-- Apply operations in order, each to what the last one left behind, failed or not. -/
def run (p : Potential α) (operations : List (Operation α)) : Potential α :=
  operations.foldl (fun q operation => (q.apply operation).state) p

/-- A vector that a term accepts as consensus or dual: one finite entry for each variable. -/
def Accepts (p : Potential α) (v : List α) : Prop :=
  v.length = p.block.arity ∧ Vector.Finite v

instance (p : Potential α) (v : List α) : Decidable (p.Accepts v) := instDecidableAnd

/-- An update that checks a vector: another term takes the place of the old one if the vector is
accepted. -/
def checkedUpdate (what : String) (v : List α) (p stored : Potential α) :
    Update (Potential α) (TermError α) :=
  match checkLocalVector what v p.block.arity with
  | .ok () => .done stored
  | .error e => .failed p (.reported e)

theorem setConsensus_eq (p : Potential α) (v : List α) :
    p.setConsensus v = checkedUpdate "consensus" v p (p.withConsensus v) := by
  unfold setConsensus Block.setConsensus checkedUpdate
  cases checkLocalVector "consensus" v p.block.arity <;> rfl

theorem setDual_eq (p : Potential α) (v : List α) :
    p.setDual v = checkedUpdate "dual" v p (p.withDual v) := by
  unfold setDual Block.setDual checkedUpdate
  cases checkLocalVector "dual" v p.block.arity <;> rfl

theorem checkedUpdate_cases (what : String) (v : List α) (p stored : Potential α) :
    (p.Accepts v ∧ checkedUpdate what v p stored = .done stored) ∨
      (¬p.Accepts v ∧ ∃ e, checkedUpdate what v p stored = .failed p e) := by
  unfold checkedUpdate
  cases hc : checkLocalVector what v p.block.arity with
  | ok _ => exact .inl ⟨checkLocalVector_eq_ok_iff.mp hc, rfl⟩
  | error e =>
    refine .inr ⟨fun h => ?_, .reported e, rfl⟩
    rw [checkLocalVector_eq_ok_iff.mpr h] at hc
    cases hc

theorem setConsensus_of_accepts {p : Potential α} {v : List α} (h : p.Accepts v) :
    p.setConsensus v = .done (p.withConsensus v) := by
  rw [setConsensus_eq]
  obtain ⟨_, done⟩ | ⟨refused, _⟩ := checkedUpdate_cases "consensus" v p (p.withConsensus v)
  · exact done
  · exact absurd h refused

theorem setConsensus_of_not_accepts {p : Potential α} {v : List α} (h : ¬p.Accepts v) :
    ∃ e, p.setConsensus v = .failed p e := by
  rw [setConsensus_eq]
  obtain ⟨accepted, _⟩ | ⟨_, failed⟩ := checkedUpdate_cases "consensus" v p (p.withConsensus v)
  · exact absurd accepted h
  · exact failed

theorem solve_of_found {p : Potential α} {x : List α} (found : p.solution.value = .ok x) :
    p.solve.value = .done (p.withPrimal x) := by
  simp only [solve, Logged.value_map, found, withPrimal]

theorem solve_of_not_found {p : Potential α} {e : Failure (TermError α)}
    (failed : p.solution.value = .error e) : p.solve.value = .failed p e := by
  simp only [solve, Logged.value_map, failed]

theorem solve_cases (p : Potential α) :
    (∃ x, p.solution.value = .ok x ∧ p.solve.value = .done (p.withPrimal x)) ∨
      ∃ e, p.solution.value = .error e ∧ p.solve.value = .failed p e := by
  cases hs : p.solution.value with
  | ok x => exact .inl ⟨x, rfl, solve_of_found hs⟩
  | error e => exact .inr ⟨e, rfl, solve_of_not_found hs⟩

theorem proximalStep_value (p : Potential α) (v : List α) :
    (p.Accepts v ∧ (p.proximalStep v).value = (p.withConsensus v).solve.value) ∨
      (¬p.Accepts v ∧ ∃ e, (p.proximalStep v).value = .failed p e) := by
  by_cases h : p.Accepts v
  · refine .inl ⟨h, ?_⟩
    simp only [proximalStep, setConsensus_of_accepts h, Update.failure_done, Update.state_done]
  · obtain ⟨e, he⟩ := setConsensus_of_not_accepts h
    refine .inr ⟨h, e, ?_⟩
    simp only [proximalStep, he, Update.failure_failed]
    rfl

theorem proximalStep_of_found {p : Potential α} {v x : List α} (accepts : p.Accepts v)
    (found : (p.withConsensus v).solution.value = .ok x) :
    (p.proximalStep v).value = .done ((p.withConsensus v).withPrimal x) := by
  obtain ⟨_, stepped⟩ | ⟨refused, _⟩ := p.proximalStep_value v
  · rw [stepped, solve_of_found found]
  · exact absurd accepts refused

theorem dualStep_cases (p : Potential α) :
    (∃ r, p.block.gap?.bind (Vector.stretch? p.block.y.length) = some r ∧ p.dualStep =
      .done (p.withDual (List.zipWith (fun y r => y + p.block.stepSize * r) p.block.y r))) ∨
      p.block.gap?.bind (Vector.stretch? p.block.y.length) = none ∧
        p.dualStep = .failed p .silent := by
  unfold dualStep Block.dualStep
  cases p.block.gap?.bind (Vector.stretch? p.block.y.length) with
  | some r => exact .inl ⟨r, rfl, rfl⟩
  | none => exact .inr ⟨rfl, rfl⟩

theorem exists_dual_of_dualStep {p q : Potential α} (stepped : p.dualStep = .done q) :
    ∃ y, q = p.withDual y := by
  obtain ⟨r, _, moved⟩ | ⟨_, broken⟩ := p.dualStep_cases
  · exact ⟨_, (congrArg Update.state (moved.symm.trans stepped)).symm⟩
  · cases congrArg Update.failure (broken.symm.trans stepped)

theorem dualStep_of_length_eq {p : Potential α} (hx : p.block.x.length = p.block.z.length)
    (hy : p.block.y.length = p.block.z.length) :
    p.dualStep = .done (p.withDual (List.zipWith (fun y r => y + p.block.stepSize * r) p.block.y
      (Vector.sub p.block.x p.block.z))) := by
  have fits : (Vector.sub p.block.x p.block.z).length = p.block.y.length := by
    rw [Vector.length_sub, hx, hy, Nat.min_self]
  have gap : p.block.gap?.bind (Vector.stretch? p.block.y.length) =
      some (Vector.sub p.block.x p.block.z) := by
    rw [Block.gap?, Vector.sub?_of_length_eq hx, Option.bind_some,
      Vector.stretch?_of_length fits]
  obtain ⟨r, found, stepped⟩ | ⟨none, _⟩ := p.dualStep_cases
  · obtain rfl := Option.some.inj (gap.symm.trans found)
    exact stepped
  · cases gap.symm.trans none

theorem length_primal_of_dualStep {p q : Potential α} (stepped : p.dualStep = .done q)
    (hy : p.block.y.length = p.block.z.length) (some : 0 < p.block.z.length)
    (long : p.block.z.length ≤ p.block.x.length) : p.block.x.length = p.block.z.length := by
  obtain ⟨r, found, _⟩ | ⟨_, broken⟩ := p.dualStep_cases
  · obtain ⟨d, gap, stretched⟩ := Option.bind_eq_some_iff.mp found
    have fits := (Vector.length_of_stretch? stretched).1
    obtain ⟨single, _⟩ | ⟨several, longer, same | single⟩ := Vector.length_of_sub? gap
    · omega
    · exact same.symm
    · omega
  · cases congrArg Update.failure (broken.symm.trans stepped)

theorem exists_solution_of_done {p : Potential α} {operation : Operation α}
    (solves : operation.Solves) (done : (p.apply operation).failure = none) :
    ∃ z x, (p.withConsensus z).solution.value = .ok x ∧
      (p.apply operation).state = (p.withConsensus z).withPrimal x := by
  have of_solve (q : Potential α) (h : q.solve.value.failure = none) :
      ∃ x, q.solution.value = .ok x ∧ q.solve.value.state = q.withPrimal x := by
    obtain ⟨x, hx, hs⟩ | ⟨e, _, he⟩ := q.solve_cases
    · exact ⟨x, hx, by rw [hs, Update.state_done]⟩
    · simp [he] at h
  cases solves with
  | solve =>
    obtain ⟨x, hx, hs⟩ := of_solve p done
    exact ⟨p.block.z, x, hx, hs⟩
  | proximalStep v =>
    obtain ⟨_, hv⟩ | ⟨_, e, he⟩ := p.proximalStep_value v
    · obtain ⟨x, hx, hs⟩ := of_solve (p.withConsensus v) (by rw [← hv]; exact done)
      exact ⟨v, x, hx, by rw [apply, hv, hs]⟩
    · simp [apply, he] at done

/-- The writes that operations are made of, each with the condition under which it is made. -/
inductive Write : Potential α → Potential α → Prop
  | consensus {p : Potential α} {z : List α} (accepted : p.Accepts z) :
      Write p (p.withConsensus z)
  | dual {p : Potential α} {y : List α} (accepted : p.Accepts y) : Write p (p.withDual y)
  | dualStep {p q : Potential α} (stepped : p.dualStep = .done q) : Write p q
  | primal {p : Potential α} {x : List α} (found : p.solution.value = .ok x) :
      Write p (p.withPrimal x)

open Relation (ReflTransGen)

theorem solve_writes (p : Potential α) : ReflTransGen Write p p.solve.value.state := by
  obtain ⟨x, found, hx⟩ | ⟨e, _, he⟩ := p.solve_cases
  · rw [hx]
    exact .single (.primal found)
  · rw [he]
    exact .refl

theorem apply_writes (p : Potential α) (operation : Operation α) :
    ReflTransGen Write p (p.apply operation).state := by
  cases operation with
  | setConsensus v =>
    rw [apply, setConsensus_eq]
    obtain ⟨accepted, hv⟩ | ⟨_, e, he⟩ := checkedUpdate_cases "consensus" v p (p.withConsensus v)
    · rw [hv]
      exact .single (.consensus accepted)
    · rw [he]
      exact .refl
  | setDual v =>
    rw [apply, setDual_eq]
    obtain ⟨accepted, hv⟩ | ⟨_, e, he⟩ := checkedUpdate_cases "dual" v p (p.withDual v)
    · rw [hv]
      exact .single (.dual accepted)
    · rw [he]
      exact .refl
  | dualStep =>
    rw [apply]
    obtain ⟨r, _, stepped⟩ | ⟨_, broken⟩ := p.dualStep_cases
    · rw [stepped]
      exact .single (.dualStep stepped)
    · rw [broken]
      exact .refl
  | solve => exact p.solve_writes
  | proximalStep v =>
    rw [apply]
    obtain ⟨accepted, hv⟩ | ⟨_, e, he⟩ := p.proximalStep_value v
    · rw [hv]
      exact (p.withConsensus v).solve_writes.head (.consensus accepted)
    · rw [he]
      exact .refl

theorem run_writes (p : Potential α) (operations : List (Operation α)) :
    ReflTransGen Write p (p.run operations) := by
  induction operations generalizing p with
  | nil => exact .refl
  | cons operation rest ih => exact (p.apply_writes operation).trans (ih _)

theorem Write.sameRule {p q : Potential α} (write : Write p q) : SameRule p q := by
  cases write with
  | consensus _ => exact ⟨_, _, _, rfl⟩
  | dual _ => exact ⟨_, _, _, rfl⟩
  | dualStep stepped =>
    obtain ⟨y, rfl⟩ := exists_dual_of_dualStep stepped
    exact ⟨p.block.x, y, p.block.z, rfl⟩
  | primal _ => exact ⟨_, _, _, rfl⟩

theorem sameRule_of_writes {p q : Potential α} (writes : ReflTransGen Write p q) :
    SameRule p q := by
  induction writes with
  | refl => exact .refl p
  | tail _ write ih => exact ih.trans write.sameRule

theorem apply_sameRule (p : Potential α) (operation : Operation α) :
    SameRule p (p.apply operation).state :=
  sameRule_of_writes (p.apply_writes operation)

/-- A run keeps all but the local vectors, whichever of its operations failed. -/
theorem run_sameRule (p : Potential α) (operations : List (Operation α)) :
    SameRule p (p.run operations) :=
  sameRule_of_writes (p.run_writes operations)

end Potential

end RuleConsensus
