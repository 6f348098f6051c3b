import RuleConsensus.Grounding.Term
import RuleConsensus.Proofs.Consensus.Completed
import RuleConsensus.Proofs.Term.Demand

set_option autoImplicit false
set_option relaxedAutoImplicit false

namespace RuleConsensus

section Gather

variable {α : Type}

theorem gatherFrom_of_firstBad {global : List α} {indices : List Nat} {i j : Nat}
    (first : FirstBad (global.length ≤ ·) indices i j) (position : Nat) :
    gatherFrom global position indices =
      .error (.indexOutOfRange (position + i) j global.length) := by
  induction indices generalizing i position with
  | nil => cases first.entry
  | cons index rest ih =>
    unfold gatherFrom
    cases i with
    | zero =>
      obtain rfl := Option.some.inj first.entry
      rw [List.getElem?_eq_none first.bad_entry]
      rfl
    | succ i =>
      have inside : index < global.length := Nat.lt_of_not_le (first.before 0 (by omega) index rfl)
      have later : FirstBad (global.length ≤ ·) rest i j :=
        ⟨first.entry, first.bad_entry, fun k hk c hc => first.before (k + 1) (by omega) c hc⟩
      rw [List.getElem?_eq_getElem inside]
      simp only [ih later]
      rw [Nat.add_right_comm, Nat.add_assoc]
      rfl

theorem gather_decided [Scalar α] (global : List α) (indices : List Nat) :
    DecidedBy [.each (global.length ≤ ·) indices
        fun position index => .indexOutOfRange position index global.length]
      (gather global indices) (indices.map fun j => global.getD j 0) := by
  refine .of_each (fun all => ?_) fun i j first => ?_
  · exact (Potential.gatherFrom_eq_ok_iff 0).mpr ⟨fun j hj => Nat.lt_of_not_le (all j hj), rfl⟩
  · rw [gather, gatherFrom_of_firstBad first, Nat.zero_add]

end Gather

section Soft

variable {α : Type} [Scalar α]

/-- Of a weight that is a number and not negative, a soft rule asks only that it is finite. -/
theorem checkSoftWeight_decided {w : α} (met : (Demand.weight w).met) :
    DecidedBy [.plain (Scalar.isFinite w = true) (.invalidWeight w
        "Soft-rule weight must be finite; hard rules use a linear constraint.")]
      (checkSoftWeight w) () :=
  .of_passed (checkWeight_eq_ok_iff.mpr met) (.of_plain (fun h => if_pos h) fun h => if_neg h)

def SquaredHinge.Scaled (b : Block α) : Prop :=
  Scalar.isFinite (Scalar.two * b.weight * Vector.dot b.coefficients b.coefficients) = true ∧
    Scalar.isFinite (Scalar.two * b.weight * Scalar.abs b.constant *
      Vector.maxAbs b.coefficients) = true

def LinearHinge.Scaled (b : Block α) : Prop :=
  Scalar.isFinite (b.weight / b.stepSize * Vector.maxAbs b.coefficients) = true

/-- What a soft rule has to meet besides what its block does. -/
def softDemands (w : α) (scale : Prop) (reason : String) : List (Demand α) :=
  [.plain (Scalar.isFinite w = true) (.invalidWeight w
      "Soft-rule weight must be finite; hard rules use a linear constraint."),
    .plain scale (.invalidWeight w reason)]

theorem SquaredHinge.check_decided {b : Block α} (met : (Demand.weight b.weight).met) :
    DecidedBy (softDemands b.weight (Scaled b)
      "Weight is too large: 2w·‖c‖² or 2w·|k|·|c| overflows.") (check b) () := by
  refine .cons (checkSoftWeight_decided met) fun _ => .of_plain (fun h => ?_) fun h => ?_
  · exact if_pos (Bool.and_eq_true_iff.mpr h)
  · exact if_neg fun h' => h (Bool.and_eq_true_iff.mp h')

theorem LinearHinge.check_decided {b : Block α} (met : (Demand.weight b.weight).met) :
    DecidedBy (softDemands b.weight (Scaled b) "Weight is too large: (w/ρ)·|c| overflows.")
      (check b) () :=
  .cons (checkSoftWeight_decided met) fun _ => .of_plain (fun h => if_pos h) fun h => if_neg h

theorem HardRule.check_decided (b : Block α) (comparator : Comparator) :
    DecidedBy [.plain ((∀ c ∈ b.coefficients, (c == 0) = true) →
        satisfied comparator (-b.constant) = true) (.infeasibleRule b.constant)]
      (check b comparator) () := by
  have flat : (b.coefficients.all (· == 0) = true) ↔ ∀ c ∈ b.coefficients, (c == 0) = true :=
    List.all_eq_true
  refine .of_plain (fun h => check_eq_ok_iff.mpr (h ∘ flat.mp)) fun h => if_pos ?_
  obtain ⟨zero, violated⟩ := Classical.not_imp.mp h
  rw [flat.mpr zero, Bool.eq_false_iff.mpr violated]
  rfl

namespace Potential

theorem squaredHinge_value (b : Block α) (fallback : Fallback α) :
    (squaredHinge b fallback).value =
      SquaredHinge.check b >>= fun _ => .ok ⟨b, .squaredHinge fallback⟩ := by
  unfold squaredHinge
  cases SquaredHinge.check b <;> rfl

theorem linearHinge_value (b : Block α) :
    (linearHinge b).value = LinearHinge.check b >>= fun _ => .ok ⟨b, .linearHinge⟩ := by
  unfold linearHinge
  cases LinearHinge.check b <;> rfl

theorem hardRule_value (b : Block α) (comparator : Comparator) :
    (hardRule b comparator).value =
      HardRule.check b comparator >>= fun _ => .ok ⟨b, .hardRule comparator⟩ := by
  unfold hardRule
  cases HardRule.check b comparator <;> rfl

end Potential

end Soft

/-- Settings that were accepted, in whatever way they were made. -/
def ProximalSettings.Accepted (settings : ProximalSettings) : Prop :=
  ∃ stepSize fallback, ProximalSettings.checked stepSize fallback = .ok settings

theorem ProximalSettings.Accepted.stepSize {settings : ProximalSettings}
    (accepted : settings.Accepted) : checkStepSize settings.stepSize = .ok () := by
  obtain ⟨stepSize, fallback, h⟩ := accepted
  obtain ⟨passed, h⟩ := bind_unit_eq_ok.mp h
  rw [← pure_eq_ok.mp h]
  exact passed

theorem ProximalSettings.accepted_default : ProximalSettings.default.Accepted := by
  refine ⟨defaultStepSize, MinimizerOptions.default, bind_unit_eq_ok.mpr ⟨?_, rfl⟩⟩
  exact checkStepSize_eq_ok_iff.mpr (by decide)

namespace GroundedTerm

def slice (t : GroundedTerm) (global : List Float) : List Float :=
  t.indices.map fun j => global.getD j 0

/-- The block of a grounded term: primal and consensus start at its slice, the dual at zero. -/
def initialBlock (t : GroundedTerm) (global : List Float) (stepSize : Float) : Block Float :=
  ⟨t.termId, t.coefficients, t.constant, t.weight.value, stepSize, t.indices, t.slice global,
    Vector.zeros t.coefficients.length, t.slice global⟩

def kind (t : GroundedTerm) (fallback : Fallback Float) : Kind Float :=
  match t.weight, t.distance with
  | .hard, _ => .hardRule t.comparator
  | .soft _, .squared => .squaredHinge fallback
  | .soft _, .linear => .linearHinge

/-- What is asked of a soft or a hard rule beyond what is asked of every block. -/
def ruleDemands (t : GroundedTerm) (b : Block Float) : List (Demand Float) :=
  match t.weight, t.distance with
  | .hard, _ =>
    [.plain ((∀ c ∈ b.coefficients, (c == 0) = true) →
      HardRule.satisfied t.comparator (-b.constant) = true) (.infeasibleRule b.constant)]
  | .soft _, .squared =>
    softDemands b.weight (SquaredHinge.Scaled b)
      "Weight is too large: 2w·‖c‖² or 2w·|k|·|c| overflows."
  | .soft _, .linear =>
    softDemands b.weight (LinearHinge.Scaled b) "Weight is too large: (w/ρ)·|c| overflows."

/-- All that is asked of a grounded term, in order. -/
def demands (t : GroundedTerm) (global : List Float) (stepSize : Float) : List (Demand Float) :=
  [.each (global.length ≤ ·) t.indices
      fun position index => .indexOutOfRange position index global.length,
    .plain (t.coefficients.length ≠ 0) .emptyBlock,
    .finite t.coefficients .invalidCoefficient,
    .plain (Scalar.isFinite t.constant = true) (.invalidConstant t.constant),
    .weight t.weight.value,
    .plain (t.indices.length = t.coefficients.length)
      (.dimensionMismatch "z_indices" t.coefficients.length t.indices.length),
    .distinct t.indices,
    .finite (t.slice global) (.nonFiniteInput "initial consensus")] ++
  t.ruleDemands (t.initialBlock global stepSize)

def route (t : GroundedTerm) (b : Block Float) (fallback : Fallback Float) :
    Except (TermError Float) (Potential Float) :=
  match t.weight, t.distance with
  | .hard, _ => (Potential.hardRule b t.comparator).value
  | .soft _, .squared => (Potential.squaredHinge b fallback).value
  | .soft _, .linear => (Potential.linearHinge b).value

theorem build_value (t : GroundedTerm) (global : List Float) (settings : ProximalSettings)
    (fallback : Fallback Float) :
    (t.build global settings fallback).value = t.block global settings >>= fun b =>
      t.route b fallback := by
  unfold build route
  cases t.block global settings with
  | error e => rfl
  | ok b =>
    cases t.weight with
    | hard => rfl
    | soft w => cases t.distance <;> rfl

theorem route_decided (t : GroundedTerm) {b : Block Float} (met : (Demand.weight b.weight).met)
    (fallback : Fallback Float) :
    DecidedBy (t.ruleDemands b) (t.route b fallback) ⟨b, t.kind fallback⟩ := by
  unfold ruleDemands route kind
  cases t.weight with
  | hard =>
    rw [Potential.hardRule_value]
    exact .finish (HardRule.check_decided b t.comparator)
  | soft w =>
    cases t.distance with
    | squared =>
      rw [Potential.squaredHinge_value]
      exact .finish (SquaredHinge.check_decided met)
    | linear =>
      rw [Potential.linearHinge_value]
      exact .finish (LinearHinge.check_decided met)

variable {t : GroundedTerm} {global : List Float} {settings : ProximalSettings}

/-- The consensus of a grounded term is gathered for its indices, so that its length is theirs. -/
theorem block_decided (accepted : settings.Accepted) :
    DecidedBy (.each (global.length ≤ ·) t.indices
          (fun position index => .indexOutOfRange position index global.length) ::
        Block.demands t.coefficients t.constant t.weight.value t.indices (t.slice global))
      (t.block global settings) (t.initialBlock global settings.stepSize) :=
  .cons (gather_decided global t.indices) fun _ =>
    Block.build_decided _ _ _ _ accepted.stepSize (List.length_map _)

theorem unnamed_of_mem_demands {rho : Float} {d : Demand Float} (hd : d ∈ t.demands global rho) :
    (∀ v, ¬d.names (.invalidStepSize v)) ∧
      ∀ m n, ¬d.names (.dimensionMismatch "initial consensus" m n) := by
  obtain common | own := List.mem_append.mp hd
  · simp only [List.mem_cons, List.not_mem_nil, or_false] at common
    obtain rfl | rfl | rfl | rfl | rfl | rfl | rfl | rfl := common <;>
      simp [Demand.plain, Demand.each, Demand.finite, Demand.weight, Demand.distinct]
  · unfold ruleDemands softDemands at own
    split at own <;> simp only [List.mem_cons, List.not_mem_nil, or_false] at own
    case h_1 =>
      obtain rfl := own
      simp [Demand.plain]
    all_goals
      obtain rfl | rfl := own <;> simp [Demand.plain]

/-- Over accepted settings a grounded term is built exactly if it meets all demands, with primal
and consensus at its slice of the global vector, the dual at zero and the kind of its weight and
distance. Any other is refused with the cause that the first missed demand names, which is never
the step size or the length of the initial consensus. -/
theorem build_ok_or_first_fault (accepted : settings.Accepted) (fallback : Fallback Float) :
    (∀ p, (t.build global settings fallback).value = .ok p ↔
      (∀ d ∈ t.demands global settings.stepSize, d.met) ∧
        p = ⟨t.initialBlock global settings.stepSize, t.kind fallback⟩) ∧
    (∀ e, (t.build global settings fallback).value = .error e ↔
      FirstFault (t.demands global settings.stepSize) e) ∧
    (∀ v, (t.build global settings fallback).value ≠ .error (.invalidStepSize v)) ∧
    ∀ m n, (t.build global settings fallback).value ≠
      .error (.dimensionMismatch "initial consensus" m n) := by
  have decided : DecidedBy (t.demands global settings.stepSize)
      (t.build global settings fallback).value
      ⟨t.initialBlock global settings.stepSize, t.kind fallback⟩ := by
    rw [build_value]
    refine .append (block_decided accepted) fun met => ?_
    have weight : (Demand.weight (t.initialBlock global settings.stepSize).weight).met :=
      met (.weight t.weight.value) (by simp)
    exact t.route_decided weight fallback
  refine ⟨fun p => decided.ok_iff, fun e => decided.error_iff, fun v refused => ?_,
    fun m n refused => ?_⟩
  · obtain ⟨d, hd, _, named⟩ := (decided.error_iff.mp refused).exists_named
    exact (unnamed_of_mem_demands hd).1 v named
  · obtain ⟨d, hd, _, named⟩ := (decided.error_iff.mp refused).exists_named
    exact (unnamed_of_mem_demands hd).2 m n named

/-- A soft rule over two variables, with a weight and an index map to choose. -/
def leaning (w : Float) (indices : List Nat) : GroundedTerm :=
  ⟨3, [1.0, -1.0], 0.5, .soft w, .squared, .inequality, indices⟩

theorem build_ok_or_first_fault_leaning :
    ProximalSettings.default.Accepted ∧
      ((leaning 2.0 [2, 0]).build [0.5, 0.0, 1.0] .default .staying).value =
        .ok ⟨(leaning 2.0 [2, 0]).initialBlock [0.5, 0.0, 1.0] 1.0, .squaredHinge .staying⟩ ∧
      ((leaning 1e308 [2, 2]).build [0.5, 0.0, 1.0] .default .staying).value =
        .error (.duplicateIndex 2 0 1) := by
  have accepted := ProximalSettings.accepted_default
  refine ⟨accepted, ((build_ok_or_first_fault accepted _).1 _).mpr ⟨?_, rfl⟩,
    ((build_ok_or_first_fault accepted _).2.1 _).mpr ?_⟩
  · simp only [demands, ruleDemands, softDemands, leaning, List.cons_append, List.nil_append,
      List.forall_mem_cons, Demand.met_plain, Demand.met_each, Demand.met_finite,
      Demand.met_distinct, Demand.met_weight]
    refine ⟨?_, ?_, ?_, ?_, ?_, ?_, ?_, ?_, ?_, ⟨?_, ?_⟩, fun d hd => nomatch hd⟩
    all_goals decide
  · have unmet : ¬(leaning 1e308 [2, 2]).indices.Nodup := by decide
    refine .later ?_ (.later ?_ (.later ?_ (.later ?_ (.later ?_ (.later ?_
      (.here unmet ⟨⟨2, 0, 1⟩, ⟨rfl, rfl, by decide, by decide⟩, rfl⟩))))))
    all_goals
      simp only [Demand.met_plain, Demand.met_each, Demand.met_finite, Demand.met_weight]
      decide +kernel

end GroundedTerm

end RuleConsensus
