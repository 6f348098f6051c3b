import RuleConsensus.Proofs.Json.Records

set_option autoImplicit false
set_option relaxedAutoImplicit false

namespace RuleConsensus.Json

variable {β γ σ : Type}

section Nulls

variable {reader : Reader β}

theorem tokens_append_ne_null {v : Value} (other : v ≠ .null) (rest rest' : List Token) :
    v.tokens ++ rest ≠ .null :: rest' := by
  intro same
  cases v with
  | null => exact other rfl
  | boolean b => cases b <;> cases same
  | _ => cases same

theorem orNull_of_ne_null {v : Value} (other : v ≠ .null) (rest : List Token) :
    Reader.orNull reader (v.tokens ++ rest) = (do
      let (x, rest) ← reader (v.tokens ++ rest)
      pure (some x, rest)) :=
  Reader.orNull.eq_2 reader _ fun rest' same => tokens_append_ne_null other rest rest' same

theorem means_orNull_iff (takes : TakesTree reader) {v : Value} {x : Option β} :
    Means (Reader.orNull reader) v x ↔
      v = .null ∧ x = none ∨ v ≠ .null ∧ ∃ y, Means reader v y ∧ x = some y := by
  by_cases null : v = .null
  · subst null
    have none : Means (Reader.orNull reader) .null none := means_iff.mpr fun _ => rfl
    constructor
    · intro means
      exact .inl ⟨rfl, means.unique none⟩
    · rintro (⟨_, rfl⟩ | ⟨other, _⟩)
      · exact none
      · exact absurd rfl other
  · constructor
    · intro means
      have read := means.read []
      rw [orNull_of_ne_null null] at read
      rcases bind_eq_ok.mp read with ⟨⟨y, ts⟩, given, found⟩
      cases found
      exact .inr ⟨null, y, (takes.of_reads given).2, rfl⟩
    · rintro (⟨same, _⟩ | ⟨_, y, means, rfl⟩)
      · exact absurd same null
      · refine means_iff.mpr fun rest => ?_
        rw [orNull_of_ne_null null, means.read]
        rfl

theorem takesTree_orNull (takes : TakesTree reader) : TakesTree (Reader.orNull reader) := by
  intro ts x rest h
  have read := h
  unfold Reader.orNull at h
  split at h
  case h_1 =>
    cases h
    exact ⟨.null, rfl, (means_orNull_iff takes).mpr (.inl ⟨rfl, rfl⟩)⟩
  case h_2 other =>
    rcases bind_eq_ok.mp h with ⟨⟨y, ts'⟩, given, found⟩
    cases found
    rcases takes _ _ _ given with ⟨v, rfl, means⟩
    have nonnull : v ≠ .null := by
      rintro rfl
      exact other _ rfl
    exact ⟨v, rfl, (means_orNull_iff takes).mpr (.inr ⟨nonnull, y, means, rfl⟩)⟩

end Nulls

section SetDown

variable {form : Form σ β}

/-- The members that a record sets down, as an object or in order as an array. -/
inductive Form.SetsDown (form : Form σ β) : Value → List (Text × Value) → Prop
  | object (ms : List (Text × Value)) : SetsDown form (.object ms) ms
  | array {ms : List (Text × Value)} : NamedInOrder form.members ms →
    SetsDown form (.array (ms.map (·.2))) ms

theorem exists_named_of_fills {entries : List (String × Reader (σ → σ))} {vs : List Value}
    {us : List (String × (σ → σ))} (h : Fills entries vs us) :
    ∃ ms, NamedInOrder entries ms ∧ ms.map (·.2) = vs := by
  induction h with
  | nil entries => exact ⟨[], List.nil_prefix, rfl⟩
  | @cons entry entries v vs update us _ _ ih =>
    rcases ih with ⟨ms, named, rfl⟩
    refine ⟨(Text.ofString entry.1, v) :: ms, ?_, rfl⟩
    exact List.cons_prefix_cons.mpr ⟨Text.toString?_ofString entry.1, named⟩

/-- Whatever is read as a record sets down members, and their object is read as the same. -/
theorem exists_setsDown_of_means (takes : form.TakesTrees) (distinct : form.names.Nodup)
    {v : Value} {x : β} (means : Means form.read v x) :
    ∃ ms, form.SetsDown v ms ∧ Means form.read (.object ms) x := by
  cases v with
  | object ms => exact ⟨ms, .object ms, means⟩
  | array items =>
    rcases (means_array_iff takes).mp means with ⟨us, fills, _⟩
    rcases exists_named_of_fills fills with ⟨ms, named, rfl⟩
    exact ⟨ms, .array named, (means_array_iff_means_object takes distinct named).mp means⟩
  | boolean b => cases b <;> cases means.read []
  | _ => cases means.read []

end SetDown

section Fields

variable {form : Form σ β} {reader : Reader γ} {name : String} {get : σ → γ}

/-- What some members say under a name, with a default where it is missing. -/
inductive Given (tells : Value → γ → Prop) (name : String) (ms : List (Text × Value)) :
    γ → γ → Prop
  | member {m : Text × Value} {default x : γ} : m ∈ ms → m.1.toString? = some name →
    tells m.2 x → Given tells name ms default x
  | missing {default : γ} : (∀ m ∈ ms, m.1.toString? ≠ some name) →
    Given tells name ms default default

theorem Given.cons {tells : Value → γ → Prop} {m : Text × Value} {ms : List (Text × Value)}
    {default x : γ} (other : m.1.toString? ≠ some name) (given : Given tells name ms default x) :
    Given tells name (m :: ms) default x := by
  cases given with
  | member member named said => exact .member (List.mem_cons_of_mem m member) named said
  | missing missing => exact .missing (List.forall_mem_cons.mpr ⟨other, missing⟩)

/-- A field of a record that one member sets and no other member touches. -/
structure Form.Field (form : Form σ β) (name : String) (reader : Reader γ) (get : σ → γ) :
    Prop where
  listed : name ∈ form.names
  sets : ∀ entry, form.members.find? (·.1 == name) = some entry → ∀ v update,
    Means entry.2 v update → ∃ x, Means reader v x ∧ ∀ s, get (update s) = x
  keeps : ∀ entry ∈ form.members, entry.1 ≠ name → ∀ v update,
    Means entry.2 v update → ∀ s, get (update s) = get s

theorem Form.Field.of_set (takes : TakesTree reader) (set : γ → σ → σ)
    (found : form.members.find? (·.1 == name) = some (name, fun ts => do
      let (x, ts) ← reader ts
      pure (set x, ts)))
    (get_set : ∀ x s, get (set x s) = x)
    (keeps : ∀ entry ∈ form.members, entry.1 ≠ name → ∀ v update,
      Means entry.2 v update → ∀ s, get (update s) = get s) :
    form.Field name reader get where
  listed := List.mem_map.mpr ⟨_, List.mem_of_find?_eq_some found, rfl⟩
  sets := by
    intro entry found' v update means
    cases found.symm.trans found'
    rcases (means_map_iff takes).mp means with ⟨x, said, rfl⟩
    exact ⟨x, said, get_set x⟩
  keeps := keeps

theorem Form.Field.updated_eq (field : form.Field name reader get) {ms : List (Text × Value)}
    {us : List (String × (σ → σ))} (updates : form.Updates ms us)
    (other : name ∉ us.map (·.1)) (s : σ) : get (updated us s) = get s := by
  induction updates generalizing s with
  | nil => rfl
  | @listed key v name' entry update ms us named found means updates ih =>
    rcases not_or.mp (mt List.mem_cons.mpr other) with ⟨unlike, others⟩
    have called : entry.1 = name' := by simpa using List.find?_some found
    have kept := field.keeps entry (List.mem_of_find?_eq_some found)
      (called ▸ Ne.symm unlike) v update means s
    exact (ih others (update s)).trans kept
  | skipped _ _ _ _ ih => exact ih other s

theorem Form.Field.given (field : form.Field name reader get) {ms : List (Text × Value)}
    {us : List (String × (σ → σ))} (updates : form.Updates ms us)
    (distinct : (us.map (·.1)).Nodup) (s : σ) :
    Given (Means reader) name ms (get s) (get (updated us s)) := by
  induction updates generalizing s with
  | nil => exact .missing nofun
  | @listed key v name' entry update ms us named found means updates ih =>
    rcases List.nodup_cons.mp distinct with ⟨unlike, distinct⟩
    have called : entry.1 = name' := by simpa using List.find?_some found
    change Given (Means reader) name _ (get s) (get (updated us (update s)))
    by_cases same : name' = name
    · subst same
      rcases field.sets entry found v update means with ⟨x, said, set⟩
      rw [field.updated_eq updates unlike, set]
      exact .member List.mem_cons_self named said
    · have kept := field.keeps entry (List.mem_of_find?_eq_some found) (called ▸ same) v update
        means s
      rw [← kept]
      refine (ih distinct (update s)).cons fun named' => same ?_
      exact Option.some.inj (named.symm.trans named')
  | @skipped key v name' ms us named found _ _ ih =>
    refine (ih distinct s).cons fun named' => ?_
    obtain rfl := Option.some.inj (named.symm.trans named')
    rcases List.mem_map.mp field.listed with ⟨entry, member, same⟩
    exact List.find?_eq_none.mp found entry member (by simpa using same)

theorem Form.Updates.listed_of_closed {ms : List (Text × Value)} {us : List (String × (σ → σ))}
    (updates : form.Updates ms us) (closed : form.closed = true) :
    ∀ m ∈ ms, ∃ name ∈ form.names, m.1.toString? = some name := by
  induction updates with
  | nil => exact nofun
  | @listed key v name entry update ms us named found means _ ih =>
    refine List.forall_mem_cons.mpr ⟨⟨name, ?_, named⟩, ih⟩
    have called : entry.1 = name := by simpa using List.find?_some found
    exact List.mem_map.mpr ⟨entry, List.mem_of_find?_eq_some found, called⟩
  | skipped _ _ isOpen _ _ => cases closed.symm.trans isOpen

/-- What is read under a name may be left open, by null or by no member. -/
inductive GivenOrNull (tells : Value → γ → Prop) (name : String) (ms : List (Text × Value)) :
    Option γ → Prop
  | given {m : Text × Value} {x : γ} : m ∈ ms → m.1.toString? = some name → m.2 ≠ .null →
    tells m.2 x → GivenOrNull tells name ms (some x)
  | null {m : Text × Value} : m ∈ ms → m.1.toString? = some name → m.2 = .null →
    GivenOrNull tells name ms none
  | missing : (∀ m ∈ ms, m.1.toString? ≠ some name) → GivenOrNull tells name ms none

theorem Given.orNull (takes : TakesTree reader) {ms : List (Text × Value)} {x : Option γ}
    (given : Given (Means (Reader.orNull reader)) name ms none x) :
    GivenOrNull (Means reader) name ms x := by
  cases given with
  | missing missing => exact .missing missing
  | member member named said =>
    rcases (means_orNull_iff takes).mp said with ⟨null, rfl⟩ | ⟨other, y, means, rfl⟩
    · exact .null member named null
    · exact .given member named other means

theorem GivenOrNull.imp {tells tells' : Value → γ → Prop} (weaker : ∀ v x, tells v x → tells' v x)
    {ms : List (Text × Value)} {x : Option γ} (given : GivenOrNull tells name ms x) :
    GivenOrNull tells' name ms x := by
  cases given with
  | given member named other said => exact .given member named other (weaker _ _ said)
  | null member named null => exact .null member named null
  | missing missing => exact .missing missing

end Fields

end RuleConsensus.Json
