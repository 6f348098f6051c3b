import Mathlib.Data.List.Nodup
import Mathlib.Data.List.Perm.Basic
import RuleConsensus.Proofs.Json.Trees

/-!
Choices and records read from trees. A record is what the updates of its listed members make of the
blank, no member being listed twice. Where updates of different members commute, nothing depends on
the order of the members, and a record set down as an array means what its object means.
-/

set_option autoImplicit false
set_option relaxedAutoImplicit false

namespace RuleConsensus.Json

variable {β γ σ : Type}

section Choices

variable {names : List String} {bare : String → Except Malformed β} {payload : String → Reader β}

theorem means_bare_iff {t : Text} {x : β} :
    Means (Reader.choice names bare payload) (.text t) x ↔
      ∃ name, variantName names t = .ok name ∧ bare name = .ok x := by
  have opened (rest : List Token) :
      Reader.choice names bare payload ((Value.text t).tokens ++ rest) = (do
        let name ← variantName names t
        let v ← bare name
        pure (v, rest)) := rfl
  rw [means_iff]
  constructor
  · intro h
    have read := h []
    rw [opened] at read
    rcases bind_eq_ok.mp read with ⟨name, named, read⟩
    rcases bind_eq_ok.mp read with ⟨v, chosen, found⟩
    cases found
    exact ⟨name, named, chosen⟩
  · rintro ⟨name, named, chosen⟩ rest
    rw [opened, named, ok_bind, chosen]
    rfl

theorem choice_payload (t : Text) (w : Value) (rest : List Token) :
    Reader.choice names bare payload ((Value.object [(t, w)]).tokens ++ rest) = (do
      let name ← variantName names t
      let (v, rest) ← payload name (w.tokens ++ .closeBrace :: rest)
      let (_, rest) ← Reader.exactly .closeBrace rest
      pure (v, rest)) := by
  change Reader.choice names bare payload (.openBrace :: .text t :: .colon ::
    (w.tokens ++ [.closeBrace] ++ rest)) = _
  rw [List.append_assoc]
  simp only [Reader.choice, exactly_self, ok_bind, List.singleton_append]

theorem means_payload_iff (takes : ∀ name, TakesTree (payload name)) {t : Text} {w : Value}
    {x : β} : Means (Reader.choice names bare payload) (.object [(t, w)]) x ↔
      ∃ name, variantName names t = .ok name ∧ Means (payload name) w x := by
  rw [means_iff]
  constructor
  · intro h
    have read := h []
    rw [choice_payload] at read
    rcases bind_eq_ok.mp read with ⟨name, named, read⟩
    rcases bind_eq_ok.mp read with ⟨⟨v, rest⟩, paid, read⟩
    rcases bind_eq_ok.mp read with ⟨⟨⟨⟩, rest'⟩, _, found⟩
    cases found
    exact ⟨name, named, ((takes name).of_reads paid).2⟩
  · rintro ⟨name, named, paid⟩ rest
    rw [choice_payload, named, ok_bind, paid.read, ok_bind]
    dsimp only
    rw [exactly_self]
    rfl

theorem takesTree_choice (takes : ∀ name, TakesTree (payload name)) :
    TakesTree (Reader.choice names bare payload) := by
  intro ts x rest h
  unfold Reader.choice at h
  split at h
  case h_1 t ts =>
    rcases bind_eq_ok.mp h with ⟨name, named, read⟩
    rcases bind_eq_ok.mp read with ⟨v, chosen, found⟩
    cases found
    exact ⟨.text t, rfl, means_bare_iff.mpr ⟨name, named, chosen⟩⟩
  case h_2 t ts =>
    rcases bind_eq_ok.mp h with ⟨name, named, read⟩
    rcases bind_eq_ok.mp read with ⟨⟨⟨⟩, ts₁⟩, colon, read⟩
    rcases bind_eq_ok.mp read with ⟨⟨v, ts₂⟩, paid, read⟩
    rcases bind_eq_ok.mp read with ⟨⟨⟨⟩, ts₃⟩, brace, found⟩
    cases found
    obtain rfl := exactly_eq_ok_iff.mp colon
    obtain rfl := exactly_eq_ok_iff.mp brace
    rcases takes name _ _ _ paid with ⟨w, rfl, means⟩
    refine ⟨.object [(t, w)], ?_, (means_payload_iff takes).mpr ⟨name, named, means⟩⟩
    change _ = .openBrace :: .text t :: .colon :: (w.tokens ++ [.closeBrace] ++ rest)
    rw [List.append_assoc]
    rfl
  case h_3 => cases h

/-- A name may stand by itself or be the one member of an object with null, where both are read as
the same value. -/
theorem means_bare_iff_means_null (takes : ∀ name, TakesTree (payload name))
    (same : ∀ name x, bare name = .ok x ↔ Means (payload name) .null x) {t : Text} {x : β} :
    Means (Reader.choice names bare payload) (.text t) x ↔
      Means (Reader.choice names bare payload) (.object [(t, .null)]) x := by
  rw [means_bare_iff, means_payload_iff takes]
  constructor
  · rintro ⟨name, named, chosen⟩
    exact ⟨name, named, (same name x).mp chosen⟩
  · rintro ⟨name, named, paid⟩
    exact ⟨name, named, (same name x).mpr paid⟩

variable {ofName : String → β}

theorem takesTree_plainChoice : TakesTree (Reader.plainChoice names ofName) :=
  takesTree_choice fun name => takesTree_nothing.map fun _ => ofName name

theorem means_payload_null_iff {x y : β} : Means (fun ts => do
    let (_, ts) ← Reader.nothing ts
    pure (y, ts)) .null x ↔ y = x := by
  rw [means_map_iff takesTree_nothing (f := fun _ => y)]
  constructor
  · rintro ⟨⟨⟩, _, same⟩
    exact same
  · intro same
    exact ⟨(), means_iff.mpr fun _ => rfl, same⟩

theorem means_plainChoice_iff_means_null {t : Text} {x : β} :
    Means (Reader.plainChoice names ofName) (.text t) x ↔
      Means (Reader.plainChoice names ofName) (.object [(t, .null)]) x := by
  refine means_bare_iff_means_null (fun name => takesTree_nothing.map fun _ => ofName name)
    fun name x => ?_
  rw [means_payload_null_iff]
  exact ⟨Except.ok.inj, congrArg Except.ok⟩

end Choices

section Objects

variable {form : Form σ β}

/-- The updates that the members of an object make, each with the name of its member. Members that
an open form does not list make none. -/
inductive Form.Updates (form : Form σ β) :
    List (Text × Value) → List (String × (σ → σ)) → Prop
  | nil : Updates form [] []
  | listed {key : Text} {v : Value} {name : String} {entry : String × Reader (σ → σ)}
    {update : σ → σ} {ms : List (Text × Value)} {us : List (String × (σ → σ))} :
    key.toString? = some name → form.members.find? (·.1 == name) = some entry →
    Means entry.2 v update → Updates form ms us →
    Updates form ((key, v) :: ms) ((name, update) :: us)
  | skipped {key : Text} {v : Value} {name : String} {ms : List (Text × Value)}
    {us : List (String × (σ → σ))} :
    key.toString? = some name → form.members.find? (·.1 == name) = none → form.closed = false →
    Updates form ms us → Updates form ((key, v) :: ms) us

def updated (us : List (String × (σ → σ))) (s : σ) : σ := us.foldl (fun s u => u.2 s) s

def Form.TakesTrees (form : Form σ β) : Prop := ∀ entry ∈ form.members, TakesTree entry.2

theorem Form.TakesTrees.of_find? (takes : form.TakesTrees) {name : String}
    {entry : String × Reader (σ → σ)} (found : form.members.find? (·.1 == name) = some entry) :
    TakesTree entry.2 :=
  takes entry (List.mem_of_find?_eq_some found)

theorem member_listed {key : Text} {name : String} {entry : String × Reader (σ → σ)}
    (named : key.toString? = some name) (found : form.members.find? (·.1 == name) = some entry)
    (state : σ × List String) (ts : List Token) :
    form.member state key ts =
      if state.2.contains name then .error (.duplicateField name)
      else (do
        let (_, ts) ← Reader.exactly .colon ts
        let (update, ts) ← entry.2 ts
        pure ((update state.1, name :: state.2), ts)) := by
  unfold Form.member
  rw [named]
  dsimp only
  rw [found]
  dsimp only
  split_ifs <;> rfl

theorem member_skipped {key : Text} {name : String} (named : key.toString? = some name)
    (found : form.members.find? (·.1 == name) = none) (isOpen : form.closed = false)
    (state : σ × List String) (ts : List Token) :
    form.member state key ts = (do
      let (_, ts) ← Reader.exactly .colon ts
      let (_, ts) ← Reader.skip ts
      pure (state, ts)) := by
  unfold Form.member
  rw [named]
  dsimp only
  rw [found, isOpen]
  rfl

theorem sets_listed {key : Text} {v : Value} {name : String} {entry : String × Reader (σ → σ)}
    {update : σ → σ} (named : key.toString? = some name)
    (found : form.members.find? (·.1 == name) = some entry) (means : Means entry.2 v update)
    {state : σ × List String} (fresh : name ∉ state.2) :
    Sets form.member state (key, v) (update state.1, name :: state.2) := by
  intro rest
  have unseen : ¬state.2.contains name = true := by simpa using fresh
  rw [member_listed named found, if_neg unseen, exactly_self, ok_bind]
  dsimp only
  rw [means.read]
  rfl

theorem sets_skipped {key : Text} {v : Value} {name : String} (named : key.toString? = some name)
    (found : form.members.find? (·.1 == name) = none) (isOpen : form.closed = false)
    (state : σ × List String) : Sets form.member state (key, v) state := by
  intro rest
  rw [member_skipped named found isOpen, exactly_self, ok_bind]
  dsimp only
  unfold Reader.skip
  rw [value_tokens]
  rfl

theorem member_cases (takes : form.TakesTrees) {state after : σ × List String} {key : Text}
    {ts rest : List Token} (h : form.member state key ts = .ok (after, rest)) :
    ∃ (v : Value) (name : String), ts = .colon :: (v.tokens ++ rest) ∧
      key.toString? = some name ∧
      ((∃ entry update, form.members.find? (·.1 == name) = some entry ∧
          Means entry.2 v update ∧ name ∉ state.2 ∧ after = (update state.1, name :: state.2)) ∨
        form.members.find? (·.1 == name) = none ∧ form.closed = false ∧ after = state) := by
  cases named : key.toString? with
  | none =>
    unfold Form.member at h
    rw [named] at h
    cases h
  | some name =>
    cases found : form.members.find? (·.1 == name) with
    | some entry =>
      rw [member_listed named found] at h
      split_ifs at h with seen
      rcases bind_eq_ok.mp h with ⟨⟨⟨⟩, ts₁⟩, colon, read⟩
      rcases bind_eq_ok.mp read with ⟨⟨update, ts₂⟩, read, set⟩
      cases set
      rcases takes.of_find? found _ _ _ read with ⟨v, rfl, means⟩
      exact ⟨v, name, exactly_eq_ok_iff.mp colon, rfl, .inl ⟨entry, update, found, means,
        by simpa using seen, rfl⟩⟩
    | none =>
      cases closed : form.closed with
      | true =>
        unfold Form.member at h
        rw [named] at h
        dsimp only at h
        rw [found, closed] at h
        cases h
      | false =>
        rw [member_skipped named found closed] at h
        rcases bind_eq_ok.mp h with ⟨⟨⟨⟩, ts₁⟩, colon, read⟩
        rcases bind_eq_ok.mp read with ⟨⟨⟨⟩, ts₂⟩, read, set⟩
        cases set
        rcases takesTree_skip _ _ _ read with ⟨v, rfl, _⟩
        exact ⟨v, name, exactly_eq_ok_iff.mp colon, rfl, .inr ⟨found, rfl, rfl⟩⟩

theorem takesMember_member (takes : form.TakesTrees) : TakesMember form.member := by
  intro state key ts after rest h
  rcases member_cases takes h with ⟨v, name, same, named, listed | skipped⟩
  · rcases listed with ⟨entry, update, found, means, fresh, rfl⟩
    exact ⟨v, same, sets_listed named found means fresh⟩
  · rcases skipped with ⟨found, isOpen, rfl⟩
    exact ⟨v, same, sets_skipped named found isOpen after⟩

theorem setsAll_of_updates {ms : List (Text × Value)} {us : List (String × (σ → σ))}
    (h : form.Updates ms us) (distinct : (us.map (·.1)).Nodup) {s : σ} {seen : List String}
    (fresh : ∀ u ∈ us, u.1 ∉ seen) :
    ∃ seen', SetsAll form.member (s, seen) ms (updated us s, seen') := by
  induction h generalizing s seen with
  | nil => exact ⟨seen, .nil _⟩
  | @listed key v name entry update ms us named found means _ ih =>
    rcases List.nodup_cons.mp distinct with ⟨unlike, distinct⟩
    rcases List.forall_mem_cons.mp fresh with ⟨first, others⟩
    have later : ∀ u ∈ us, u.1 ∉ name :: seen := by
      intro u hu repeated
      rcases List.mem_cons.mp repeated with same | old
      · exact unlike (List.mem_map.mpr ⟨u, hu, same⟩)
      · exact others u hu old
    rcases ih distinct (s := update s) later with ⟨seen', sets⟩
    exact ⟨seen', .cons (sets_listed named found means first) sets⟩
  | skipped named found isOpen _ ih =>
    rcases ih distinct (s := s) fresh with ⟨seen', sets⟩
    exact ⟨seen', .cons (sets_skipped named found isOpen _) sets⟩

theorem exists_updates_of_setsAll (takes : form.TakesTrees) {ms : List (Text × Value)}
    {state after : σ × List String} (h : SetsAll form.member state ms after) :
    ∃ us, form.Updates ms us ∧ (us.map (·.1)).Nodup ∧ (∀ u ∈ us, u.1 ∉ state.2) ∧
      after.1 = updated us state.1 := by
  induction h with
  | nil state => exact ⟨[], .nil, List.nodup_nil, nofun, rfl⟩
  | @cons state next after m ms first _ ih =>
    rcases ih with ⟨us, updates, distinct, fresh, final⟩
    rcases member_cases takes (first []) with ⟨v, name, same, named, listed | skipped⟩
    · rcases listed with ⟨entry, update, found, means, unseen, rfl⟩
      obtain rfl := (tokens_append_inj (List.cons.inj same).2).1
      refine ⟨(name, update) :: us, .listed named found means updates, ?_, ?_, final⟩
      · refine List.nodup_cons.mpr ⟨fun repeated => ?_, distinct⟩
        rcases List.mem_map.mp repeated with ⟨u, hu, rfl⟩
        exact fresh u hu List.mem_cons_self
      · exact List.forall_mem_cons.mpr ⟨unseen, fun u hu old =>
          fresh u hu (List.mem_cons_of_mem name old)⟩
    · rcases skipped with ⟨found, isOpen, rfl⟩
      exact ⟨us, .skipped named found isOpen updates, distinct, fresh, final⟩

theorem read_object (ms : List (Text × Value)) (rest : List Token) :
    form.read ((Value.object ms).tokens ++ rest) = (do
      let (state, rest) ← Reader.members form.member (form.blank, [])
        (Value.commaSeparated (Value.memberTokens ms) ++ .closeBrace :: rest)
      match form.finish state.1 with
      | .ok v => pure (v, rest)
      | .error absent => throw (.missingField absent.name)) := by
  rw [Value.tokens, List.cons_append, List.append_assoc]
  rfl

theorem means_object_of_updates {ms : List (Text × Value)} {us : List (String × (σ → σ))} {x : β}
    (updates : form.Updates ms us) (distinct : (us.map (·.1)).Nodup)
    (finished : form.finish (updated us form.blank) = .ok x) :
    Means form.read (.object ms) x := by
  have unseen : ∀ u ∈ us, u.1 ∉ ([] : List String) := nofun
  rcases setsAll_of_updates updates distinct (s := form.blank) unseen with ⟨seen, sets⟩
  refine means_iff.mpr fun rest => ?_
  rw [read_object, members_of_setsAll sets, ok_bind]
  dsimp only
  rw [finished]
  rfl

/-- An object is read as what its updates make of the blank, if no listed member comes twice. -/
theorem exists_updates_of_read (takes : form.TakesTrees) {ts rest : List Token} {x : β}
    (h : form.read (.openBrace :: ts) = .ok (x, rest)) :
    ∃ ms us, .openBrace :: ts = (Value.object ms).tokens ++ rest ∧ form.Updates ms us ∧
      (us.map (·.1)).Nodup ∧ form.finish (updated us form.blank) = .ok x := by
  unfold Form.read at h
  rcases bind_eq_ok.mp h with ⟨⟨state, ts'⟩, read, ended⟩
  rcases exists_setsAll_of_members (takesMember_member takes) read with ⟨ms, rfl, sets⟩
  rcases exists_updates_of_setsAll takes sets with ⟨us, updates, distinct, _, final⟩
  dsimp only at ended
  split at ended
  case h_1 v finished =>
    cases ended
    rw [final] at finished
    refine ⟨ms, us, ?_, updates, distinct, finished⟩
    rw [Value.tokens, List.cons_append, List.append_assoc]
    rfl
  case h_2 => cases ended

theorem means_object_iff (takes : form.TakesTrees) {ms : List (Text × Value)} {x : β} :
    Means form.read (.object ms) x ↔ ∃ us, form.Updates ms us ∧ (us.map (·.1)).Nodup ∧
      form.finish (updated us form.blank) = .ok x := by
  constructor
  · intro h
    rcases exists_updates_of_read takes (h.read []) with ⟨ms', us, same, updates⟩
    cases (tokens_append_inj (v := .object ms) (w := .object ms') same).1
    exact ⟨us, updates⟩
  · rintro ⟨us, updates, distinct, finished⟩
    exact means_object_of_updates updates distinct finished

/-- A member of a written record, and what reading it does to the state of the record. -/
structure Entry (σ : Type) where
  name : String
  value : Value
  update : σ → σ

/-- The form lists a member under this name, and reads it as the update. -/
def Form.Reads (form : Form σ β) (e : Entry σ) : Prop :=
  ∃ reader, form.members.find? (·.1 == e.name) = some (e.name, reader) ∧
    Json.Reads reader e.value.tokens e.update

def Entry.applyAll (entries : List (Entry σ)) (s : σ) : σ :=
  entries.foldl (fun s e => e.update s) s

theorem updates_of_entries {entries : List (Entry σ)} (known : ∀ e ∈ entries, form.Reads e) :
    form.Updates (entries.map fun e => (Text.ofString e.name, e.value))
      (entries.map fun e => (e.name, e.update)) := by
  induction entries with
  | nil => exact .nil
  | cons e entries ih =>
    rcases List.forall_mem_cons.mp known with ⟨⟨reader, found, reads⟩, others⟩
    exact .listed (Text.toString?_ofString e.name) found reads (ih others)

theorem reads_record {entries : List (Entry σ)} {v : β} (known : ∀ e ∈ entries, form.Reads e)
    (distinct : (entries.map (·.name)).Nodup)
    (finished : form.finish (Entry.applyAll entries form.blank) = .ok v) :
    Json.Reads form.read (Value.record (entries.map fun e => (e.name, e.value))).tokens v := by
  have updates := updates_of_entries known
  have once : ((entries.map fun e => (e.name, e.update)).map (·.1)).Nodup := by
    rwa [List.map_map]
  have final : updated (entries.map fun e => (e.name, e.update)) form.blank =
      Entry.applyAll entries form.blank := by
    rw [updated, List.foldl_map]
    rfl
  have means : Means form.read (.object _) v :=
    means_object_of_updates updates once (by rwa [final])
  unfold Value.record
  rwa [List.map_map]

end Objects

section Arrays

variable {form : Form σ β}

/-- Items set down in the order of a form, and the updates that they make. -/
inductive Fills : List (String × Reader (σ → σ)) → List Value → List (String × (σ → σ)) → Prop
  | nil (entries : List (String × Reader (σ → σ))) : Fills entries [] []
  | cons {entry : String × Reader (σ → σ)} {entries : List (String × Reader (σ → σ))} {v : Value}
    {vs : List Value} {update : σ → σ} {us : List (String × (σ → σ))} :
    Means entry.2 v update → Fills entries vs us →
    Fills (entry :: entries) (v :: vs) ((entry.1, update) :: us)

/-- The tokens of items, the first with a comma before it or without one. -/
private def itemsFrom (first : Bool) (vs : List Value) : List Token :=
  if first then Value.commaSeparated (Value.itemTokens vs)
  else (Value.itemTokens vs).flatMap (.comma :: ·)

private theorem itemsFrom_nil (first : Bool) : itemsFrom first [] = [] := by
  cases first <;> rfl

theorem inOrder_of_fills {entries : List (String × Reader (σ → σ))} {vs : List Value}
    {us : List (String × (σ → σ))} (h : Fills entries vs us) (first : Bool) (s : σ)
    (rest : List Token) :
    Form.inOrder entries first s (itemsFrom first vs ++ .closeBracket :: rest) =
      .ok (updated us s, .closeBracket :: rest) := by
  induction h generalizing first s with
  | nil entries => cases entries <;> cases first <;> rfl
  | @cons entry entries v vs update us means _ ih =>
    have later := ih false (update s)
    cases first with
    | false =>
      change Form.inOrder (entry :: entries) false s
        (.comma :: (v.tokens ++ itemsFrom false vs) ++ .closeBracket :: rest) = _
      rw [List.cons_append, List.append_assoc, Form.inOrder, means.read, ok_bind]
      exact later
    | true =>
      rcases means.opens with ⟨t, more, opens, other⟩
      have closed : ∀ rest', v.tokens ++ (itemsFrom false vs ++ .closeBracket :: rest) =
          Token.closeBracket :: rest' → False := by
        intro rest' same
        rw [opens] at same
        exact other (List.cons.inj same).1
      change Form.inOrder (entry :: entries) true s
        (Value.commaSeparated (v.tokens :: Value.itemTokens vs) ++ .closeBracket :: rest) = _
      rw [commaSeparated_cons, List.append_assoc]
      refine (Form.inOrder.eq_3 s _ entry entries closed).trans ?_
      rw [means.read, ok_bind]
      exact later

theorem exists_fills_of_inOrder {entries : List (String × Reader (σ → σ))}
    (takes : ∀ entry ∈ entries, TakesTree entry.2) {first : Bool} {s s' : σ}
    {ts rest : List Token} (h : Form.inOrder entries first s ts = .ok (s', rest)) :
    ∃ vs us, ts = itemsFrom first vs ++ rest ∧ Fills entries vs us ∧ s' = updated us s := by
  induction entries generalizing first s ts with
  | nil =>
    cases h
    exact ⟨[], [], by rw [itemsFrom_nil, List.nil_append], .nil [], rfl⟩
  | cons entry entries ih =>
    rcases List.forall_mem_cons.mp takes with ⟨now, later⟩
    unfold Form.inOrder at h
    split at h
    case h_1 same => cases same
    case h_2 =>
      cases h
      exact ⟨[], [], by rw [itemsFrom_nil, List.nil_append], .nil _, rfl⟩
    case h_3 same _ =>
      cases same
      rcases bind_eq_ok.mp h with ⟨⟨update, ts'⟩, read, more⟩
      rcases now _ _ _ read with ⟨v, rfl, means⟩
      rcases ih later more with ⟨vs, us, rfl, fills, rfl⟩
      refine ⟨v :: vs, _ :: us, ?_, .cons means fills, rfl⟩
      change _ = Value.commaSeparated (v.tokens :: Value.itemTokens vs) ++ rest
      rw [commaSeparated_cons, List.append_assoc]
      rfl
    case h_4 same =>
      cases same
      rcases bind_eq_ok.mp h with ⟨⟨update, ts'⟩, read, more⟩
      rcases now _ _ _ read with ⟨v, rfl, means⟩
      rcases ih later more with ⟨vs, us, rfl, fills, rfl⟩
      refine ⟨v :: vs, _ :: us, ?_, .cons means fills, rfl⟩
      change _ = .comma :: (v.tokens ++ itemsFrom false vs) ++ rest
      rw [List.cons_append, List.append_assoc]
    case h_5 => cases h

theorem read_array (items : List Value) (rest : List Token) :
    form.read ((Value.array items).tokens ++ rest) = (do
      let (s, rest) ← Form.inOrder form.members true form.blank
        (itemsFrom true items ++ .closeBracket :: rest)
      match form.finish s with
      | .ok v =>
        let (_, rest) ← Reader.exactly .closeBracket rest
        pure (v, rest)
      | .error absent => throw (.invalidLength absent.index
        s!"struct {form.name} with {form.members.length} elements")) := by
  rw [Value.tokens, List.cons_append, List.append_assoc]
  rfl

theorem means_array_of_fills {items : List Value} {us : List (String × (σ → σ))} {x : β}
    (fills : Fills form.members items us)
    (finished : form.finish (updated us form.blank) = .ok x) :
    Means form.read (.array items) x := by
  refine means_iff.mpr fun rest => ?_
  rw [read_array, inOrder_of_fills fills, ok_bind]
  dsimp only
  rw [finished]
  dsimp only
  rw [exactly_self]
  rfl

theorem exists_fills_of_read (takes : form.TakesTrees) {ts rest : List Token} {x : β}
    (h : form.read (.openBracket :: ts) = .ok (x, rest)) :
    ∃ items us, .openBracket :: ts = (Value.array items).tokens ++ rest ∧
      Fills form.members items us ∧ form.finish (updated us form.blank) = .ok x := by
  unfold Form.read at h
  rcases bind_eq_ok.mp h with ⟨⟨s, ts'⟩, read, ended⟩
  rcases exists_fills_of_inOrder takes read with ⟨items, us, rfl, fills, rfl⟩
  dsimp only at ended
  split at ended
  case h_1 v finished =>
    rcases bind_eq_ok.mp ended with ⟨⟨⟨⟩, ts''⟩, closed, found⟩
    cases found
    obtain rfl := exactly_eq_ok_iff.mp closed
    refine ⟨items, us, ?_, fills, finished⟩
    rw [Value.tokens, List.cons_append, List.append_assoc]
    rfl
  case h_2 => cases ended

theorem means_array_iff (takes : form.TakesTrees) {items : List Value} {x : β} :
    Means form.read (.array items) x ↔ ∃ us, Fills form.members items us ∧
      form.finish (updated us form.blank) = .ok x := by
  constructor
  · intro h
    rcases exists_fills_of_read takes (h.read []) with ⟨items', us, same, fills⟩
    cases (tokens_append_inj (v := .array items) (w := .array items') same).1
    exact ⟨us, fills⟩
  · rintro ⟨us, fills, finished⟩
    exact means_array_of_fills fills finished

theorem takesTree_record (takes : form.TakesTrees) : TakesTree form.read := by
  intro ts x rest h
  have read := h
  unfold Form.read at h
  split at h
  case h_1 ts =>
    rcases exists_updates_of_read takes read with ⟨ms, us, same, updates, distinct, finished⟩
    exact ⟨.object ms, same, means_object_of_updates updates distinct finished⟩
  case h_2 ts =>
    rcases exists_fills_of_read takes read with ⟨items, us, same, fills, finished⟩
    exact ⟨.array items, same, means_array_of_fills fills finished⟩
  case h_3 => cases h

/-- Members of an object in the order of a form, as far as they go. -/
def NamedInOrder (entries : List (String × Reader (σ → σ))) (ms : List (Text × Value)) : Prop :=
  ms.map (·.1.toString?) <+: entries.map (some ·.1)

theorem find?_of_mem {entries : List (String × Reader (σ → σ))}
    (distinct : (entries.map (·.1)).Nodup) {entry : String × Reader (σ → σ)}
    (h : entry ∈ entries) : entries.find? (·.1 == entry.1) = some entry := by
  induction entries with
  | nil => cases h
  | cons other entries ih =>
    rcases List.nodup_cons.mp distinct with ⟨unlike, distinct⟩
    rcases List.mem_cons.mp h with rfl | later
    · exact List.find?_cons_of_pos (beq_self_eq_true _)
    · have different : ¬(other.1 == entry.1) = true := by
        intro same
        exact unlike (List.mem_map.mpr ⟨entry, later, (eq_of_beq same).symm⟩)
      rw [List.find?_cons_of_neg (by exact different)]
      exact ih distinct later

theorem updates_iff_fills (distinct : form.names.Nodup)
    {entries : List (String × Reader (σ → σ))} (listed : entries ⊆ form.members)
    {ms : List (Text × Value)} (named : NamedInOrder entries ms)
    {us : List (String × (σ → σ))} :
    form.Updates ms us ↔ Fills entries (ms.map (·.2)) us := by
  induction ms generalizing entries us with
  | nil =>
    constructor
    · rintro ⟨⟩
      exact .nil entries
    · rintro ⟨⟩
      exact .nil
  | cons m ms ih =>
    cases entries with
    | nil => exact absurd (List.prefix_nil.mp named) (List.cons_ne_nil _ _)
    | cons entry entries =>
      rcases List.cons_prefix_cons.mp named with ⟨key, later⟩
      rcases List.cons_subset.mp listed with ⟨here, others⟩
      have found := find?_of_mem distinct here
      constructor
      · intro updates
        cases updates with
        | listed named' found' means updates =>
          cases key.symm.trans named'
          cases found.symm.trans found'
          exact .cons means ((ih others later).mp updates)
        | skipped named' found' isOpen updates =>
          cases key.symm.trans named'
          cases found.symm.trans found'
      · intro fills
        cases fills with
        | cons means fills => exact .listed key found means ((ih others later).mpr fills)

theorem names_of_fills {entries : List (String × Reader (σ → σ))} {vs : List Value}
    {us : List (String × (σ → σ))} (h : Fills entries vs us) :
    us.map (·.1) <+: entries.map (·.1) := by
  induction h with
  | nil entries => exact List.nil_prefix
  | cons _ _ ih => exact List.cons_prefix_cons.mpr ⟨rfl, ih⟩

/-- A record set down as an array means what the object with its first members means. -/
theorem means_array_iff_means_object (takes : form.TakesTrees) (distinct : form.names.Nodup)
    {ms : List (Text × Value)} (named : NamedInOrder form.members ms) {x : β} :
    Means form.read (.array (ms.map (·.2))) x ↔ Means form.read (.object ms) x := by
  rw [means_array_iff takes, means_object_iff takes]
  constructor
  · rintro ⟨us, fills, finished⟩
    have once : (us.map (·.1)).Nodup := distinct.sublist (names_of_fills fills).sublist
    exact ⟨us, (updates_iff_fills distinct (List.Subset.refl _) named).mpr fills, once, finished⟩
  · rintro ⟨us, updates, _, finished⟩
    exact ⟨us, (updates_iff_fills distinct (List.Subset.refl _) named).mp updates, finished⟩

end Arrays

section Rewriting

variable {form : Form σ β}

/-- Updates of different members may be made in either order. -/
def Form.Commutes (form : Form σ β) : Prop :=
  ∀ entry ∈ form.members, ∀ entry' ∈ form.members, entry.1 ≠ entry'.1 →
    ∀ v v' update update', Means entry.2 v update → Means entry'.2 v' update' →
      ∀ s, update (update' s) = update' (update s)

theorem Form.Updates.perm {ms ms' : List (Text × Value)} (order : ms.Perm ms')
    {us : List (String × (σ → σ))} (h : form.Updates ms us) :
    ∃ us', us.Perm us' ∧ form.Updates ms' us' := by
  induction order generalizing us with
  | nil => exact ⟨us, .refl us, h⟩
  | cons m _ ih =>
    cases h with
    | listed named found means updates =>
      rcases ih updates with ⟨us', order, updates'⟩
      exact ⟨_, order.cons _, .listed named found means updates'⟩
    | skipped named found isOpen updates =>
      rcases ih updates with ⟨us', order, updates'⟩
      exact ⟨us', order, .skipped named found isOpen updates'⟩
  | swap m m' ms =>
    cases h with
    | listed named found means updates =>
      cases updates with
      | listed named' found' means' updates =>
        exact ⟨_, .swap _ _ _, .listed named' found' means' (.listed named found means updates)⟩
      | skipped named' found' isOpen' updates =>
        exact ⟨_, .refl _, .skipped named' found' isOpen' (.listed named found means updates)⟩
    | skipped named found isOpen updates =>
      cases updates with
      | listed named' found' means' updates =>
        exact ⟨_, .refl _, .listed named' found' means' (.skipped named found isOpen updates)⟩
      | skipped named' found' isOpen' updates =>
        exact ⟨_, .refl _, .skipped named' found' isOpen' (.skipped named found isOpen updates)⟩
  | trans _ _ ih ih' =>
    rcases ih h with ⟨us₁, order₁, updates₁⟩
    rcases ih' updates₁ with ⟨us₂, order₂, updates₂⟩
    exact ⟨us₂, order₁.trans order₂, updates₂⟩

theorem Form.Updates.exists_entry {ms : List (Text × Value)} {us : List (String × (σ → σ))}
    (h : form.Updates ms us) {u : String × (σ → σ)} (hu : u ∈ us) :
    ∃ m ∈ ms, ∃ entry, m.1.toString? = some u.1 ∧
      form.members.find? (·.1 == u.1) = some entry ∧ Means entry.2 m.2 u.2 := by
  induction h with
  | nil => cases hu
  | @listed key v name entry update ms us named found means _ ih =>
    rcases List.mem_cons.mp hu with rfl | later
    · exact ⟨(key, v), List.mem_cons_self, entry, named, found, means⟩
    · rcases ih later with ⟨m, hm, entry, rest⟩
      exact ⟨m, List.mem_cons_of_mem _ hm, entry, rest⟩
  | skipped _ _ _ _ ih =>
    rcases ih hu with ⟨m, hm, entry, rest⟩
    exact ⟨m, List.mem_cons_of_mem _ hm, entry, rest⟩

theorem Form.Commutes.updated_comm (commutes : form.Commutes) {ms : List (Text × Value)}
    {us : List (String × (σ → σ))} (h : form.Updates ms us) {u u' : String × (σ → σ)}
    (hu : u ∈ us) (hu' : u' ∈ us) (different : u.1 ≠ u'.1) (s : σ) :
    u.2 (u'.2 s) = u'.2 (u.2 s) := by
  rcases h.exists_entry hu with ⟨m, _, entry, _, found, means⟩
  rcases h.exists_entry hu' with ⟨m', _, entry', _, found', means'⟩
  have name : entry.1 = u.1 := by simpa using List.find?_some found
  have name' : entry'.1 = u'.1 := by simpa using List.find?_some found'
  refine commutes entry (List.mem_of_find?_eq_some found) entry'
    (List.mem_of_find?_eq_some found') ?_ _ _ _ _ means means' s
  rwa [name, name']

theorem Form.Commutes.updated_perm (commutes : form.Commutes) {ms : List (Text × Value)}
    {us us' : List (String × (σ → σ))} (h : form.Updates ms us) (distinct : (us.map (·.1)).Nodup)
    (order : us.Perm us') (s : σ) : updated us s = updated us' s := by
  refine order.foldl_eq' (fun u hu u' hu' s => ?_) s
  by_cases same : u.1 = u'.1
  · rw [List.inj_on_of_nodup_map distinct hu hu' same]
  · exact commutes.updated_comm h hu' hu (Ne.symm same) s

theorem means_object_perm (takes : form.TakesTrees) (commutes : form.Commutes)
    {ms ms' : List (Text × Value)} (order : ms.Perm ms') {x : β}
    (h : Means form.read (.object ms) x) : Means form.read (.object ms') x := by
  rcases (means_object_iff takes).mp h with ⟨us, updates, distinct, finished⟩
  rcases updates.perm order with ⟨us', order', updates'⟩
  refine means_object_of_updates updates' ((order'.map _).nodup_iff.mp distinct) ?_
  rwa [← commutes.updated_perm updates distinct order']

theorem means_object_cons_iff_of_unlisted (takes : form.TakesTrees) (isOpen : form.closed = false)
    {key : Text} {name : String} (named : key.toString? = some name) (unlisted : name ∉ form.names)
    {v : Value} {ms : List (Text × Value)} {x : β} :
    Means form.read (.object ((key, v) :: ms)) x ↔ Means form.read (.object ms) x := by
  have found : form.members.find? (·.1 == name) = none := by
    refine List.find?_eq_none.mpr fun entry member same => unlisted ?_
    exact List.mem_map.mpr ⟨entry, member, eq_of_beq same⟩
  rw [means_object_iff takes, means_object_iff takes]
  constructor
  · rintro ⟨us, updates, rest⟩
    cases updates with
    | listed named' found' _ _ =>
      cases named.symm.trans named'
      cases found.symm.trans found'
    | skipped _ _ _ updates => exact ⟨us, updates, rest⟩
  · rintro ⟨us, updates, rest⟩
    exact ⟨us, .skipped named found isOpen updates, rest⟩

theorem means_object_cons_iff_of_default (takes : form.TakesTrees) {key : Text} {name : String}
    (named : key.toString? = some name) {entry : String × Reader (σ → σ)}
    (found : form.members.find? (·.1 == name) = some entry) {v : Value} {update : σ → σ}
    (means : Means entry.2 v update) (default : update form.blank = form.blank)
    {ms : List (Text × Value)} (missing : ∀ m ∈ ms, m.1.toString? ≠ some name) {x : β} :
    Means form.read (.object ((key, v) :: ms)) x ↔ Means form.read (.object ms) x := by
  rw [means_object_iff takes, means_object_iff takes]
  constructor
  · rintro ⟨us, updates, distinct, finished⟩
    cases updates with
    | @listed _ _ _ _ update' _ us named' found' means' updates =>
      cases named.symm.trans named'
      cases found.symm.trans found'
      obtain rfl := means.unique means'
      refine ⟨us, updates, (List.nodup_cons.mp distinct).2, ?_⟩
      rw [← default]
      exact finished
    | skipped named' found' _ _ =>
      cases named.symm.trans named'
      cases found.symm.trans found'
  · rintro ⟨us, updates, distinct, finished⟩
    refine ⟨(name, update) :: us, .listed named found means updates, ?_, ?_⟩
    · refine List.nodup_cons.mpr ⟨fun repeated => ?_, distinct⟩
      rcases List.mem_map.mp repeated with ⟨u, hu, rfl⟩
      rcases updates.exists_entry hu with ⟨m, hm, _, named', _⟩
      exact missing m hm named'
    · change form.finish (updated us (update form.blank)) = .ok x
      rw [default]
      exact finished

theorem means_object_cons_congr (takes : form.TakesTrees) {key : Text} {name : String}
    (named : key.toString? = some name) {entry : String × Reader (σ → σ)}
    (found : form.members.find? (·.1 == name) = some entry) {v v' : Value}
    (same : ∀ update, Means entry.2 v update ↔ Means entry.2 v' update)
    {ms : List (Text × Value)} {x : β} :
    Means form.read (.object ((key, v) :: ms)) x ↔
      Means form.read (.object ((key, v') :: ms)) x := by
  have forward {v v' : Value} (same : ∀ update, Means entry.2 v update → Means entry.2 v' update)
      (h : Means form.read (.object ((key, v) :: ms)) x) :
      Means form.read (.object ((key, v') :: ms)) x := by
    rcases (means_object_iff takes).mp h with ⟨us, updates, distinct, finished⟩
    cases updates with
    | @listed _ _ _ _ update _ us named' found' means updates =>
      cases named.symm.trans named'
      cases found.symm.trans found'
      exact means_object_of_updates (.listed named found (same update means) updates) distinct
        finished
    | skipped named' found' _ _ =>
      cases named.symm.trans named'
      cases found.symm.trans found'
  exact ⟨forward fun update => (same update).mp, forward fun update => (same update).mpr⟩

end Rewriting

end RuleConsensus.Json
