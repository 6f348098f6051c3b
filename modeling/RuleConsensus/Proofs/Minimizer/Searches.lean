import RuleConsensus.Minimizer.Lbfgs
import RuleConsensus.Proofs.Binary.Order
import RuleConsensus.Proofs.Term.Accepted

set_option autoImplicit false
set_option relaxedAutoImplicit false

namespace RuleConsensus

section Searches

variable {oracle : Oracle} {ray : Ray} {σ β γ φ : Type} {fault : MinimizeError Float → φ}

/-- A part of a search gives values with a property. Wherever a fault of the objective comes out of
it, a trial on the ray has met it. -/
structure Searches (oracle : Oracle) (ray : Ray) (fault : MinimizeError Float → φ)
    (r : Except φ β) (Q : β → Prop) : Prop where
  gives : ∀ v, r = .ok v → Q v
  blames : ∀ e, r = .error (fault e) → ∃ a, ray.trial oracle a = .error (.objective e)

abbrev reportedFault (e : MinimizeError Float) : Failure (SolverFailure Float) :=
  .reported (.objective e)

theorem searches_ok {v : β} {Q : β → Prop} (holds : Q v) :
    Searches oracle ray fault (.ok v) Q where
  gives _ h := Except.ok.inj h ▸ holds
  blames := nofun

/-- A search may fail by something other than the objective. -/
theorem searches_own {failure : φ} (own : ∀ e, failure ≠ fault e) {Q : β → Prop} :
    Searches oracle ray fault (.error failure) Q where
  gives := nofun
  blames e h := absurd (Except.error.inj h) (own e)

theorem Searches.bind {r : Except φ β} {f : β → Except φ γ} {P : β → Prop} {Q : γ → Prop}
    (first : Searches oracle ray fault r P)
    (rest : ∀ v, P v → Searches oracle ray fault (f v) Q) :
    Searches oracle ray fault (r >>= f) Q where
  gives w h := by
    rcases bind_eq_ok.mp h with ⟨v, found, h⟩
    exact (rest v (first.gives v found)).gives w h
  blames e h := by
    rcases bind_eq_error.mp h with fails | ⟨v, found, fails⟩
    · exact first.blames e fails
    · exact (rest v (first.gives v found)).blames e fails

theorem Searches.ite {c : Prop} [Decidable c] {r r' : Except φ β} {Q : β → Prop}
    (yes : c → Searches oracle ray fault r Q) (no : ¬c → Searches oracle ray fault r' Q) :
    Searches oracle ray fault (if c then r else r') Q := by
  split
  case isTrue h => exact yes h
  case isFalse h => exact no h

theorem Searches.report {r : Except (SolverFailure Float) β} {Q : β → Prop}
    (searches : Searches oracle ray .objective r Q) :
    Searches oracle ray reportedFault (Failure.report r) Q where
  gives v h := searches.gives v (Failure.report_eq_ok_iff.mp h)
  blames e h := by
    obtain ⟨failure, failed, same⟩ := Failure.report_eq_error_iff.mp h
    obtain rfl := Failure.reported.inj same
    exact searches.blames e failed

/-- A loop searches if every pass does that starts from a state with an invariant. -/
theorem Searches.loop {pass : σ → Except (Failure (SolverFailure Float)) (σ ⊕ β)} {I : σ → Prop}
    {Q : β → Prop} (passes : ∀ s, I s → Searches oracle ray reportedFault (pass s) (Sum.elim I Q))
    {s : σ} (start : I s) : Searches oracle ray reportedFault (Failure.loop pass s) Q := by
  refine Failure.loop_induction (I := I) (Q := fun r => Searches oracle ray reportedFault r Q)
    ?_ ?_ ?_ ?_ start
  · refine searches_own fun e => ?_
    nofun
  · intro s e holds failed
    refine ⟨nofun, fun e' same => (passes s holds).blames e' ?_⟩
    rw [failed, Except.error.inj same]
  · intro s v holds ended
    exact searches_ok ((passes s holds).gives _ ended)
  · intro s t holds next
    exact (passes s holds).gives _ next

/-- A trial with the cost of its point. -/
def Ray.Honest (ray : Ray) (oracle : Oracle) (t : Trial) : Prop :=
  oracle.cost (ray.point t.position) = .ok t.cost

theorem searches_trial (a : Float) :
    Searches oracle ray .objective (ray.trial oracle a) (ray.Honest oracle) where
  gives t h := by
    rcases bind_eq_ok.mp h with ⟨cost, found, h⟩
    rcases bind_eq_ok.mp h with ⟨gradient, _, h⟩
    obtain rfl := pure_eq_ok.mp h
    exact found
  blames e h := ⟨a, h⟩

structure Landing.Honest (oracle : Oracle) (ray : Ray) (landing : Landing) : Prop where
  onRay : ∃ a, landing.point = ray.point a
  cost : oracle.cost landing.point = .ok landing.cost

theorem Ray.Honest.landing {t : Trial} (honest : ray.Honest oracle t) (trials : ℕ) :
    Landing.Honest oracle ray ⟨ray.point t.position, t.cost, trials⟩ :=
  ⟨⟨t.position, rfl⟩, honest⟩

namespace Interpolation

theorem searches_greatest (complaint : String) (a b c : Float) :
    Searches oracle ray .objective (greatest complaint a b c) fun _ => True :=
  .ite (fun _ => searches_ok trivial) fun _ => searches_own (by nofun)

theorem searches_propose (best other trial : Trial) (enclosed : Bool) (low high : Float) :
    Searches oracle ray .objective (propose best other trial enclosed low high)
      fun _ => True := by
  -- Only the greatest of three numbers may be refused; the last case without enclosure has none.
  refine .ite (fun _ => ?_) fun _ => .ite (fun _ => ?_) fun _ => .ite (fun _ => ?_) fun _ =>
    .ite (fun _ => ?_) fun _ => searches_ok trivial
  all_goals exact .bind (searches_greatest _ _ _ _) fun _ _ => searches_ok trivial

theorem searches_step (best other trial : Trial) (enclosed : Bool) (low high : Float) :
    Searches oracle ray .objective (step best other trial enclosed low high) fun _ => True :=
  .ite (fun _ => .bind (searches_propose _ _ _ _ _ _) fun _ _ => searches_ok trivial)
    fun _ => searches_ok trivial

end Interpolation

namespace MoreThuente

theorem searches_advance (s : State) (t : Trial) :
    Searches oracle ray .objective (advance ray s t) fun _ => True := by
  refine .bind (P := fun _ => True) (.ite (fun _ => ?_) fun _ => ?_) fun _ _ => searches_ok trivial
  · exact .bind (Interpolation.searches_step _ _ _ _ _ _) fun _ _ => searches_ok trivial
  · exact Interpolation.searches_step _ _ _ _ _ _

theorem searches_pass (s : ℕ × State) :
    Searches oracle ray .objective (pass oracle ray s)
      (Sum.elim (fun _ => True) (Landing.Honest oracle ray)) := by
  refine .bind (searches_trial _) fun t honest => ?_
  refine .ite (fun _ => searches_ok (honest.landing _)) fun _ => ?_
  exact .bind (searches_advance s.2 t) fun after _ => searches_ok trivial

theorem searches_search :
    Searches oracle ray reportedFault (search oracle ray) (Landing.Honest oracle ray) :=
  .ite (fun _ => searches_own (by nofun)) fun _ =>
    .loop (fun s _ => (searches_pass s).report) trivial

theorem search_of_first_fault {failure : SolverFailure Float} (downhill : ¬0.0 ≤ ray.slope)
    (failed : ray.trial oracle (State.initial ray).trialPosition = .error failure) :
    search oracle ray = .error (.reported failure) := by
  rw [search, if_neg downhill, Failure.loop_eq, pass, failed]
  rfl

theorem search_of_first_accepted {t : Trial} (downhill : ¬0.0 ≤ ray.slope)
    (tried : ray.trial oracle (State.initial ray).trialPosition = .ok t)
    (accepted : accepts ray (State.initial ray) t = true) :
    search oracle ray = .ok ⟨ray.point t.position, t.cost, 1⟩ := by
  have landed : pass oracle ray (0, State.initial ray) =
      .ok (.inr ⟨ray.point t.position, t.cost, 1⟩) :=
    bind_eq_ok.mpr ⟨t, tried, if_pos accepted⟩
  rw [search, if_neg downhill, Failure.loop_eq, landed]
  rfl

end MoreThuente

namespace HagerZhang

/-- The ends of an enclosure are trials. -/
def Enclosed (oracle : Oracle) (ray : Ray) (ends : Trial × Trial × ℕ) : Prop :=
  ray.Honest oracle ends.1 ∧ ray.Honest oracle ends.2.1

theorem searches_cutPass {c : ℕ × Cut} (hnear : ray.Honest oracle c.2.near) :
    Searches oracle ray .objective (cutPass oracle ray c)
      (Sum.elim (fun c => ray.Honest oracle c.2.near) (Enclosed oracle ray)) := by
  refine .bind (searches_trial _) fun t ht => .ite (fun _ => searches_ok ⟨hnear, ht⟩) fun _ => ?_
  exact .ite (fun _ => searches_ok ht) fun _ => .ite (fun _ => searches_ok hnear) fun _ =>
    searches_ok hnear

theorem searches_cut {near : Trial} (hnear : ray.Honest oracle near) (far : Float) :
    Searches oracle ray reportedFault (cut oracle ray near far) (Enclosed oracle ray) :=
  .loop (fun _ holds => (searches_cutPass holds).report) hnear

theorem searches_narrow {near far t : Trial} (hnear : ray.Honest oracle near)
    (hfar : ray.Honest oracle far) (ht : ray.Honest oracle t) :
    Searches oracle ray reportedFault (narrow oracle ray near far t) (Enclosed oracle ray) := by
  refine .ite (fun _ => searches_ok ⟨hnear, hfar⟩) fun _ => ?_
  refine .ite (fun _ => searches_ok ⟨hnear, ht⟩) fun _ => ?_
  refine .ite (fun _ => searches_ok ⟨ht, hfar⟩) fun _ => ?_
  exact .ite (fun _ => searches_cut hnear _) fun _ => searches_own (by nofun)

theorem searches_tried {near far : Trial} (hnear : ray.Honest oracle near)
    (hfar : ray.Honest oracle far) (a : Float) (trials : ℕ) :
    Searches oracle ray reportedFault (do
      let t ← Failure.report (ray.trial oracle a)
      let (a, b, more) ← narrow oracle ray near far t
      pure (a, b, trials + 1 + more)) (Enclosed oracle ray) :=
  .bind (searches_trial a).report fun _ ht => .bind (searches_narrow hnear hfar ht) fun _ ends =>
    searches_ok ends

theorem searches_advance {near far : Trial} (hnear : ray.Honest oracle near)
    (hfar : ray.Honest oracle far) :
    Searches oracle ray reportedFault (advance oracle ray near far) (Enclosed oracle ray) := by
  refine .bind (searches_trial _).report fun t ht => .bind (searches_narrow hnear hfar ht) ?_
  rintro ⟨a, b, trials⟩ ⟨ha, hb⟩
  -- The second secant step is made only where the first one moved an end to its trial.
  dsimp only
  split
  case h_1 position _ =>
    refine .bind (searches_trial position).report fun u hu =>
      .bind (searches_narrow ha hb hu) ?_
    rintro ⟨a, b, more⟩ ⟨ha, hb⟩
    exact .ite (fun _ => searches_tried ha hb _ _) fun _ => searches_ok ⟨ha, hb⟩
  case h_2 => exact .ite (fun _ => searches_tried ha hb _ _) fun _ => searches_ok ⟨ha, hb⟩

/-- What a search starts to compare with, before any trial: it is never accepted. -/
def placeholder : Trial := ⟨0.0, Scalar.infinity, 0.0 / 0.0⟩

theorem accepts_placeholder (ray : Ray) : accepts ray placeholder = false := by
  have undefined : placeholder.slope.isNaN = true := by decide
  have below (a : Float) : ¬a ≤ placeholder.slope := fun h =>
    Bool.false_ne_true ((Binary.defined_of_le h).2.symm.trans undefined)
  simp [accepts, below]

/-- A trial with the cost of its point, or the one that stands for none. -/
def Kept (oracle : Oracle) (ray : Ray) (t : Trial) : Prop :=
  t = placeholder ∨ ray.Honest oracle t

theorem kept_leastCost {near far first best : Trial} (hnear : ray.Honest oracle near)
    (hfar : ray.Honest oracle far) (hfirst : ray.Honest oracle first)
    (hbest : Kept oracle ray best) : Kept oracle ray (leastCost near far first best) := by
  have among : leastCost near far first best ∈ [near, far, first, best] := by
    unfold leastCost
    dsimp only
    split_ifs <;> simp
  generalize leastCost near far first best = least at among
  simp only [List.mem_cons, List.not_mem_nil, or_false] at among
  rcases among with rfl | rfl | rfl | rfl
  · exact .inr hnear
  · exact .inr hfar
  · exact .inr hfirst
  · exact hbest

def Tried (oracle : Oracle) (ray : Ray) (s : State) : Prop :=
  ray.Honest oracle s.near ∧ ray.Honest oracle s.far ∧ Kept oracle ray s.best

theorem searches_pass {first : Trial} (hfirst : ray.Honest oracle first) {s : ℕ × State}
    (tried : Tried oracle ray s.2) :
    Searches oracle ray reportedFault (pass oracle ray first s)
      (Sum.elim (fun s => Tried oracle ray s.2) (Landing.Honest oracle ray)) := by
  obtain ⟨hnear, hfar, hbest⟩ := tried
  refine .ite (fun accepted => searches_ok ?_) fun _ => .bind (searches_advance hnear hfar) ?_
  · rcases hbest with same | honest
    · rw [same, accepts_placeholder] at accepted
      cases accepted
    · exact honest.landing _
  · rintro ⟨a, b, more⟩ ⟨ha, hb⟩
    exact searches_ok ⟨ha, hb, kept_leastCost ha hb hfirst hbest⟩

theorem searches_search :
    Searches oracle ray reportedFault (search oracle ray) (Landing.Honest oracle ray) := by
  refine .bind (searches_trial _).report fun near hnear =>
    .bind (searches_trial _).report fun far hfar => ?_
  refine .bind (searches_trial _).report fun first hfirst => ?_
  exact .loop (fun s tried => searches_pass hfirst tried)
    ⟨hnear, hfar, kept_leastCost hnear hfar hfirst (.inl rfl)⟩

end HagerZhang

/-- Either search lands on its ray, and fails by the objective only where a trial does. -/
theorem Lbfgs.searches_search {settings : Settings} :
    Searches oracle ray reportedFault (search settings oracle ray)
      (Landing.Honest oracle ray) := by
  unfold search
  split
  case h_1 => exact MoreThuente.searches_search
  case h_2 => exact HagerZhang.searches_search

end Searches

end RuleConsensus
