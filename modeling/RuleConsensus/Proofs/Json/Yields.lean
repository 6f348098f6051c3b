import RuleConsensus.Json.Form
import RuleConsensus.Proofs.Decimal.Written
import RuleConsensus.Proofs.Term.Accepted

set_option autoImplicit false
set_option relaxedAutoImplicit false

namespace RuleConsensus.Json

variable {β γ σ : Type}

/-- Whatever tokens a reader is given, its value has a property. -/
def Yields (reader : Reader β) (P : β → Prop) : Prop :=
  ∀ ts v rest, reader ts = .ok (v, rest) → P v

theorem value_eq_of_ok {v w : β} {ts rest : List Token}
    (h : (.ok (v, ts) : Except Malformed (β × List Token)) = .ok (w, rest)) : v = w :=
  (Prod.mk.inj (Except.ok.inj h)).1

theorem yields_any (reader : Reader β) : Yields reader fun _ => True :=
  fun _ _ _ _ => trivial

theorem Yields.update {reader : Reader β} {P : β → Prop} (h : Yields reader P)
    {I : σ → Prop} (f : β → σ → σ) (keeps : ∀ v s, P v → I s → I (f v s)) :
    Yields (fun ts => do
      let (v, ts) ← reader ts
      pure (f v, ts)) fun update => ∀ s, I s → I (update s) := by
  intro ts update rest read s hs
  obtain ⟨⟨v, ts'⟩, hv, read⟩ := bind_eq_ok.mp read
  obtain rfl := value_eq_of_ok read
  exact keeps v s (h ts v ts' hv) hs

section Values

theorem yields_float : Yields Reader.float fun x => x.isFinite = true := by
  intro ts x rest h
  unfold Reader.float at h
  split at h
  case h_1 n rest' =>
    split at h
    case h_1 y hy =>
      obtain rfl := value_eq_of_ok h
      exact Numeral.isFinite_of_read? hy
    case h_2 => cases h
  case h_2 => cases h

theorem lt_of_ofNumeral? {n : Numeral} {size : ℕ} (h : Number.ofNumeral? n = some (.natural size)) :
    size < UInt64.size := by
  unfold Number.ofNumeral? at h
  dsimp only at h
  split at h
  case isTrue small =>
    obtain rfl := Number.natural.inj (Option.some.inj h)
    simp only [Bool.and_eq_true, decide_eq_true_eq] at small
    exact small.2
  case isFalse =>
    split at h
    case isTrue => cases h
    case isFalse =>
      obtain ⟨_, _, same⟩ := Option.map_eq_some_iff.mp h
      cases same

theorem yields_natural (expected : String) :
    Yields (Reader.natural expected) (· < UInt64.size) := by
  intro ts n rest h
  unfold Reader.natural at h
  split at h
  case h_1 m rest' =>
    split at h
    case h_1 size hs =>
      obtain rfl := value_eq_of_ok h
      exact lt_of_ofNumeral? hs
    all_goals cases h
  case h_2 => cases h

end Values

section Lists

theorem yields_elementsAfter {element : Reader β} {P : β → Prop} (h : Yields element P) (n : ℕ) :
    Yields (Reader.elementsAfter element n) fun vs => ∀ v ∈ vs, P v := by
  induction n with
  | zero => exact nofun
  | succ n ih =>
    intro ts vs rest read
    unfold Reader.elementsAfter at read
    split at read
    case h_1 same => cases same
    case h_2 =>
      obtain rfl := value_eq_of_ok read
      exact nofun
    case h_3 m rest' same =>
      cases same
      obtain ⟨⟨x, ts'⟩, hx, read⟩ := bind_eq_ok.mp read
      obtain ⟨⟨xs, ts''⟩, hxs, read⟩ := bind_eq_ok.mp read
      obtain rfl := value_eq_of_ok read
      exact List.forall_mem_cons.mpr ⟨h _ _ _ hx, ih _ _ _ hxs⟩
    case h_4 => cases read

theorem yields_list {element : Reader β} {P : β → Prop} (h : Yields element P) :
    Yields (Reader.list element) fun vs => ∀ v ∈ vs, P v := by
  intro ts vs rest read
  unfold Reader.list at read
  split at read
  case h_1 ts =>
    unfold Reader.elements at read
    split at read
    case h_1 =>
      obtain rfl := value_eq_of_ok read
      exact nofun
    case h_2 =>
      obtain ⟨⟨x, ts'⟩, hx, read⟩ := bind_eq_ok.mp read
      obtain ⟨⟨xs, ts''⟩, hxs, read⟩ := bind_eq_ok.mp read
      obtain rfl := value_eq_of_ok read
      exact List.forall_mem_cons.mpr ⟨h _ _ _ hx, yields_elementsAfter h _ _ _ _ hxs⟩
  case h_2 => cases read

end Lists

theorem yields_choice {names : List String} {bare : String → Except Malformed β}
    {payload : String → Reader β} {P : β → Prop} (hb : ∀ name v, bare name = .ok v → P v)
    (hp : ∀ name, Yields (payload name) P) : Yields (Reader.choice names bare payload) P := by
  intro ts v rest read
  unfold Reader.choice at read
  split at read
  case h_1 =>
    obtain ⟨name, _, read⟩ := bind_eq_ok.mp read
    obtain ⟨w, hw, read⟩ := bind_eq_ok.mp read
    obtain rfl := value_eq_of_ok read
    exact hb name w hw
  case h_2 =>
    obtain ⟨name, _, read⟩ := bind_eq_ok.mp read
    obtain ⟨_, _, read⟩ := bind_eq_ok.mp read
    obtain ⟨⟨w, ts'⟩, hw, read⟩ := bind_eq_ok.mp read
    obtain ⟨_, _, read⟩ := bind_eq_ok.mp read
    obtain rfl := value_eq_of_ok read
    exact hp name _ _ _ hw
  case h_3 => cases read

section Records

variable {form : Form σ β} {I : σ → Prop}

/-- No member of the form breaks a property of the state of a record. -/
def Form.Keeps (form : Form σ β) (I : σ → Prop) : Prop :=
  ∀ m ∈ form.members, Yields m.2 fun update => ∀ s, I s → I (update s)

theorem yields_member (keeps : form.Keeps I) {state : σ × List String} (hs : I state.1)
    (key : Text) : Yields (form.member state key) fun state => I state.1 := by
  intro ts after rest read
  unfold Form.member at read
  split at read
  case h_2 => cases read
  case h_1 name _ =>
    dsimp only at read
    split at read
    case h_1 m value found =>
      split at read
      case isTrue => cases read
      case isFalse =>
        obtain ⟨_, _, read⟩ := bind_eq_ok.mp read
        obtain ⟨⟨update, ts'⟩, hu, read⟩ := bind_eq_ok.mp read
        obtain rfl := value_eq_of_ok read
        exact keeps _ (List.mem_of_find?_eq_some found) _ _ _ hu _ hs
    case h_2 =>
      split at read
      case isTrue => cases read
      case isFalse =>
        obtain ⟨_, _, read⟩ := bind_eq_ok.mp read
        obtain ⟨_, _, read⟩ := bind_eq_ok.mp read
        obtain rfl := value_eq_of_ok read
        exact hs

theorem yields_membersAfter (keeps : form.Keeps I) (n : ℕ) {state : σ × List String}
    (hs : I state.1) : Yields (Reader.membersAfter form.member n state) fun state => I state.1 := by
  induction n generalizing state with
  | zero => exact nofun
  | succ n ih =>
    intro ts after rest read
    unfold Reader.membersAfter at read
    split at read
    case h_1 same => cases same
    case h_2 =>
      obtain rfl := value_eq_of_ok read
      exact hs
    case h_3 m state key ts' same =>
      cases same
      obtain ⟨⟨next, ts''⟩, hn, read⟩ := bind_eq_ok.mp read
      exact ih (yields_member keeps hs key _ _ _ hn) _ _ _ read
    case h_4 => cases read

theorem yields_members (keeps : form.Keeps I) {state : σ × List String} (hs : I state.1) :
    Yields (Reader.members form.member state) fun state => I state.1 := by
  intro ts after rest read
  unfold Reader.members at read
  split at read
  case h_1 =>
    obtain rfl := value_eq_of_ok read
    exact hs
  case h_2 key ts' =>
    obtain ⟨⟨next, ts''⟩, hn, read⟩ := bind_eq_ok.mp read
    exact yields_membersAfter keeps _ (yields_member keeps hs key _ _ _ hn) _ _ _ read
  case h_3 => cases read

theorem yields_inOrder {ms : List (String × Reader (σ → σ))}
    (keeps : ∀ m ∈ ms, Yields m.2 fun update => ∀ s, I s → I (update s)) (first : Bool) {s : σ}
    (hs : I s) : Yields (Form.inOrder ms first s) I := by
  induction ms generalizing first s with
  | nil =>
    intro ts after rest read
    obtain rfl := value_eq_of_ok read
    exact hs
  | cons m ms ih =>
    obtain ⟨now, later⟩ := List.forall_mem_cons.mp keeps
    intro ts after rest read
    unfold Form.inOrder at read
    split at read
    case h_1 same => cases same
    case h_2 =>
      obtain rfl := value_eq_of_ok read
      exact hs
    case h_3 same _ =>
      cases same
      obtain ⟨⟨update, ts'⟩, hu, read⟩ := bind_eq_ok.mp read
      exact ih later _ (now _ _ _ hu _ hs) _ _ _ read
    case h_4 same =>
      cases same
      obtain ⟨⟨update, ts'⟩, hu, read⟩ := bind_eq_ok.mp read
      exact ih later _ (now _ _ _ hu _ hs) _ _ _ read
    case h_5 => cases read

/-- What holds of the blank, is kept by every member and is enough at the end of a record holds of
whatever the record is read as, written in either form. -/
theorem yields_record {P : β → Prop} (keeps : form.Keeps I) (blank : I form.blank)
    (finish : ∀ s v, I s → form.finish s = .ok v → P v) : Yields form.read P := by
  intro ts v rest read
  unfold Form.read at read
  split at read
  case h_1 =>
    have start : I (form.blank, ([] : List String)).1 := blank
    obtain ⟨⟨state, ts'⟩, hs, read⟩ := bind_eq_ok.mp read
    dsimp only at read
    split at read
    case h_1 w hw =>
      obtain rfl := value_eq_of_ok read
      exact finish _ _ (yields_members keeps start _ _ _ hs) hw
    case h_2 => cases read
  case h_2 =>
    obtain ⟨⟨s, ts'⟩, hs, read⟩ := bind_eq_ok.mp read
    dsimp only at read
    split at read
    case h_1 w hw =>
      obtain ⟨_, _, read⟩ := bind_eq_ok.mp read
      obtain rfl := value_eq_of_ok read
      exact finish _ _ (yields_inOrder keeps true blank _ _ _ hs) hw
    case h_2 => cases read
  case h_3 => cases read

end Records

theorem of_read {reader : Reader β} {P : β → Prop} (h : Yields reader P) {text : String} {v : β}
    (parsed : read reader text = .ok v) : P v := by
  unfold read at parsed
  split at parsed
  case h_1 w hw =>
    obtain rfl := Except.ok.inj parsed
    exact h _ _ _ hw
  all_goals cases parsed

end RuleConsensus.Json
