import RuleConsensus.Proofs.Json.Reads
import RuleConsensus.Proofs.Term.Accepted

/-!
Readers and trees. Whatever a reader accepts is one whole tree, and it would accept the tree with
anything behind it. The tokens of a tree determine the tree, so that what a reader makes of a
document can be said of the tree alone.
-/

set_option autoImplicit false
set_option relaxedAutoImplicit false

namespace RuleConsensus.Json

variable {β γ σ : Type}

theorem exists_tokens_eq_cons (v : Value) :
    ∃ t more, v.tokens = t :: more ∧ t ≠ .closeBracket := by
  cases v with
  | boolean b => cases b <;> exact ⟨_, _, rfl, nofun⟩
  | _ => exact ⟨_, _, rfl, nofun⟩

/-- A tree is read as a value. -/
abbrev Means (reader : Reader β) (v : Value) (x : β) : Prop := Reads reader v.tokens x

theorem means_iff {reader : Reader β} {v : Value} {x : β} :
    Means reader v x ↔ ∀ rest, reader (v.tokens ++ rest) = .ok (x, rest) :=
  ⟨Reads.read, fun read => ⟨read, exists_tokens_eq_cons v⟩⟩

theorem Means.unique {reader : Reader β} {v : Value} {x y : β} (h : Means reader v x)
    (h' : Means reader v y) : x = y := by
  have same := h.read []
  rw [h'.read []] at same
  cases same
  rfl

/-- Whatever a reader accepts is a tree, and it accepts the tree with anything behind it. -/
def TakesTree (reader : Reader β) : Prop :=
  ∀ ts x rest, reader ts = .ok (x, rest) → ∃ v : Value, ts = v.tokens ++ rest ∧
    Means reader v x

section Members

variable {member : σ → Text → Reader σ}

def Sets (member : σ → Text → Reader σ) (s : σ) (m : Text × Value) (s' : σ) : Prop :=
  ∀ rest, member s m.1 (.colon :: (m.2.tokens ++ rest)) = .ok (s', rest)

inductive SetsAll (member : σ → Text → Reader σ) : σ → List (Text × Value) → σ → Prop
  | nil (s : σ) : SetsAll member s [] s
  | cons {s next final : σ} {m : Text × Value} {ms : List (Text × Value)} :
    Sets member s m next → SetsAll member next ms final → SetsAll member s (m :: ms) final

/-- A member is read from a colon and a tree, and nothing behind them is looked at. -/
def TakesMember (member : σ → Text → Reader σ) : Prop :=
  ∀ s key ts s' rest, member s key ts = .ok (s', rest) → ∃ v : Value,
    ts = .colon :: (v.tokens ++ rest) ∧ Sets member s (key, v) s'

theorem membersAfter_of_setsAll {s s' : σ} {ms : List (Text × Value)}
    (h : SetsAll member s ms s') (rest : List Token) {n : ℕ} (hn : ms.length < n) :
    Reader.membersAfter member n s
      ((Value.memberTokens ms).flatMap (.comma :: ·) ++ .closeBrace :: rest) = .ok (s', rest) := by
  induction h generalizing n with
  | nil s =>
    obtain ⟨k, rfl⟩ : ∃ k, n = k + 1 := ⟨n - 1, by omega⟩
    rfl
  | @cons s next final m ms first _ ih =>
    rw [List.length_cons] at hn
    obtain ⟨k, rfl⟩ : ∃ k, n = k + 1 := ⟨n - 1, by omega⟩
    rw [Value.memberTokens, List.flatMap_cons, List.append_assoc]
    change Reader.membersAfter member (k + 1) s
      (.comma :: .text m.1 :: .colon :: (m.2.tokens ++ _)) = _
    rw [Reader.membersAfter, first, ok_bind]
    exact ih (by omega)

theorem members_of_setsAll {s s' : σ} {ms : List (Text × Value)} (h : SetsAll member s ms s')
    (rest : List Token) :
    Reader.members member s
      (Value.commaSeparated (Value.memberTokens ms) ++ .closeBrace :: rest) = .ok (s', rest) := by
  cases h with
  | nil s => rfl
  | @cons s next final m ms first others =>
    have fuel : ms.length ≤ ((Value.memberTokens ms).flatMap (.comma :: ·)).length := by
      have tokens := length_le_length_flatMap .comma id (Value.memberTokens ms)
      rwa [memberTokens_eq_map, List.length_map, ← memberTokens_eq_map] at tokens
    rw [Value.memberTokens, commaSeparated_cons, List.append_assoc]
    change Reader.members member s (.text m.1 :: .colon :: (m.2.tokens ++ _)) = _
    rw [Reader.members, first, ok_bind]
    refine membersAfter_of_setsAll others rest ?_
    rw [List.length_append, List.length_cons]
    omega

theorem exists_setsAll_of_membersAfter (takes : TakesMember member) {n : ℕ} {s s' : σ}
    {ts rest : List Token} (h : Reader.membersAfter member n s ts = .ok (s', rest)) :
    ∃ ms, ts = (Value.memberTokens ms).flatMap (.comma :: ·) ++ .closeBrace :: rest ∧
      SetsAll member s ms s' := by
  induction n generalizing s ts with
  | zero => cases h
  | succ n ih =>
    unfold Reader.membersAfter at h
    split at h
    case h_1 same => cases same
    case h_2 =>
      cases h
      exact ⟨[], rfl, .nil _⟩
    case h_3 key ts same =>
      cases same
      rcases bind_eq_ok.mp h with ⟨⟨next, ts'⟩, read, more⟩
      rcases takes _ _ _ _ _ read with ⟨v, rfl, first⟩
      rcases ih more with ⟨ms, rfl, others⟩
      refine ⟨(key, v) :: ms, ?_, .cons first others⟩
      rw [Value.memberTokens, List.flatMap_cons, List.append_assoc]
      rfl
    case h_4 => cases h

theorem exists_setsAll_of_members (takes : TakesMember member) {s s' : σ}
    {ts rest : List Token} (h : Reader.members member s ts = .ok (s', rest)) :
    ∃ ms, ts = Value.commaSeparated (Value.memberTokens ms) ++ .closeBrace :: rest ∧
      SetsAll member s ms s' := by
  unfold Reader.members at h
  split at h
  case h_1 =>
    cases h
    exact ⟨[], rfl, .nil s⟩
  case h_2 key ts =>
    rcases bind_eq_ok.mp h with ⟨⟨next, ts'⟩, read, more⟩
    rcases takes _ _ _ _ _ read with ⟨v, rfl, first⟩
    rcases exists_setsAll_of_membersAfter takes more with ⟨ms, rfl, others⟩
    refine ⟨(key, v) :: ms, ?_, .cons first others⟩
    rw [Value.memberTokens, commaSeparated_cons, List.append_assoc]
    rfl
  case h_3 => cases h

end Members

section Elements

variable {element : Reader β}

theorem exists_means_of_elementsAfter (takes : TakesTree element) {n : ℕ} {xs : List β}
    {ts rest : List Token} (h : Reader.elementsAfter element n ts = .ok (xs, rest)) :
    ∃ vs, ts = (Value.itemTokens vs).flatMap (.comma :: ·) ++ .closeBracket :: rest ∧
      List.Forall₂ (Means element) vs xs := by
  induction n generalizing ts xs with
  | zero => cases h
  | succ n ih =>
    unfold Reader.elementsAfter at h
    split at h
    case h_1 same => cases same
    case h_2 =>
      cases h
      exact ⟨[], rfl, .nil⟩
    case h_3 k ts same =>
      cases same
      rcases bind_eq_ok.mp h with ⟨⟨x, ts'⟩, read, h⟩
      rcases bind_eq_ok.mp h with ⟨⟨xs', ts''⟩, more, h⟩
      cases h
      rcases takes _ _ _ read with ⟨v, rfl, first⟩
      rcases ih more with ⟨vs, rfl, others⟩
      refine ⟨v :: vs, ?_, .cons first others⟩
      rw [Value.itemTokens, List.flatMap_cons, List.append_assoc]
      rfl
    case h_4 => cases h

theorem exists_means_of_elements (takes : TakesTree element) {xs : List β}
    {ts rest : List Token} (h : Reader.elements element ts = .ok (xs, rest)) :
    ∃ vs, ts = Value.commaSeparated (Value.itemTokens vs) ++ .closeBracket :: rest ∧
      List.Forall₂ (Means element) vs xs := by
  unfold Reader.elements at h
  split at h
  case h_1 =>
    cases h
    exact ⟨[], rfl, .nil⟩
  case h_2 =>
    rcases bind_eq_ok.mp h with ⟨⟨x, ts'⟩, read, h⟩
    rcases bind_eq_ok.mp h with ⟨⟨xs', ts''⟩, more, h⟩
    cases h
    rcases takes _ _ _ read with ⟨v, rfl, first⟩
    rcases exists_means_of_elementsAfter takes more with ⟨vs, rfl, others⟩
    refine ⟨v :: vs, ?_, .cons first others⟩
    rw [Value.itemTokens, commaSeparated_cons, List.append_assoc]

theorem means_array {items : List Value} {xs : List β}
    (h : List.Forall₂ (Means element) items xs) :
    Means (Reader.list element) (.array items) xs := by
  refine reads_list ?_
  rw [itemTokens_eq_map]
  exact List.forall₂_map_left_iff.mpr h

theorem exists_items_of_list (takes : TakesTree element) {xs : List β} {ts rest : List Token}
    (h : Reader.list element ts = .ok (xs, rest)) :
    ∃ items, ts = (Value.array items).tokens ++ rest ∧
      List.Forall₂ (Means element) items xs := by
  unfold Reader.list at h
  split at h
  case h_1 ts =>
    rcases exists_means_of_elements takes h with ⟨vs, rfl, means⟩
    refine ⟨vs, ?_, means⟩
    rw [Value.tokens, List.cons_append, List.append_assoc]
    rfl
  case h_2 => cases h

theorem takesTree_list (takes : TakesTree element) : TakesTree (Reader.list element) := by
  intro ts xs rest h
  rcases exists_items_of_list takes h with ⟨items, rfl, means⟩
  exact ⟨.array items, rfl, means_array means⟩

end Elements

section Trees

/-- A member of a tree is kept as it is. -/
private def keepMember (d : ℕ) (ms : List (Text × Value)) (key : Text) :
    Reader (List (Text × Value)) := fun ts => do
  let (_, ts) ← Reader.exactly .colon ts
  let (v, ts) ← Reader.valueUpTo d ts
  pure (ms ++ [(key, v)], ts)

private theorem valueUpTo_openBrace (d : ℕ) (ts : List Token) :
    Reader.valueUpTo (d + 1) (.openBrace :: ts) = (do
      let (ms, rest) ← Reader.members (keepMember d) [] ts
      pure (.object ms, rest)) := by
  rw [Reader.valueUpTo]
  rfl

private theorem length_le_of_mem_parts {part : List Token} {parts : List (List Token)}
    (h : part ∈ parts) : part.length ≤ (Value.commaSeparated parts).length := by
  cases parts with
  | nil => cases h
  | cons first others =>
    rw [commaSeparated_cons, List.length_append]
    rcases List.mem_cons.mp h with rfl | later
    · omega
    · have inside := (List.sublist_flatten_of_mem (List.mem_map_of_mem (f := (Token.comma :: ·))
        later)).length_le
      rw [List.length_cons] at inside
      rw [List.flatMap]
      omega

private theorem sets_keepMember {d : ℕ} {v : Value} (read : Means (Reader.valueUpTo d) v v)
    (ms : List (Text × Value)) (key : Text) :
    Sets (keepMember d) ms (key, v) (ms ++ [(key, v)]) := by
  intro rest
  unfold keepMember
  rw [exactly_self, ok_bind]
  dsimp only
  rw [read.read]
  rfl

private theorem valueUpTo_array {d : ℕ} {items : List Value}
    (read : List.Forall₂ (Means (Reader.valueUpTo d)) items items) :
    Means (Reader.valueUpTo (d + 1)) (.array items) (.array items) := by
  refine means_iff.mpr fun rest => ?_
  change (Reader.list (Reader.valueUpTo d) ((Value.array items).tokens ++ rest) >>=
    fun r => pure (Value.array r.1, r.2)) = _
  rw [(means_array read).read]
  rfl

private theorem valueUpTo_object {d : ℕ} {ms : List (Text × Value)}
    (read : SetsAll (keepMember d) [] ms ms) :
    Means (Reader.valueUpTo (d + 1)) (.object ms) (.object ms) := by
  refine means_iff.mpr fun rest => ?_
  rw [Value.tokens, List.cons_append, List.append_assoc, List.singleton_append,
    valueUpTo_openBrace, members_of_setsAll read]
  rfl

mutual

/-- The tokens of a tree are read back as the tree. -/
theorem valueUpTo_tokens : (v : Value) → {d : ℕ} → v.tokens.length ≤ d →
    Means (Reader.valueUpTo d) v v
  | .null, d + 1, _ => means_iff.mpr fun _ => rfl
  | .boolean true, d + 1, _ => means_iff.mpr fun _ => rfl
  | .boolean false, d + 1, _ => means_iff.mpr fun _ => rfl
  | .number _, d + 1, _ => means_iff.mpr fun _ => rfl
  | .text _, d + 1, _ => means_iff.mpr fun _ => rfl
  | .array items, d + 1, hd => by
    have fits : ∀ part ∈ Value.itemTokens items, part.length ≤ d := by
      intro part hp
      have inside := length_le_of_mem_parts hp
      rw [Value.tokens, List.length_cons, List.length_append] at hd
      omega
    exact valueUpTo_array (valueUpTo_items items fits)
  | .object ms, d + 1, hd => by
    have fits : ∀ part ∈ Value.memberTokens ms, part.length ≤ d := by
      intro part hp
      have inside := length_le_of_mem_parts hp
      rw [Value.tokens, List.length_cons, List.length_append] at hd
      omega
    exact valueUpTo_object (valueUpTo_members ms fits [])

theorem valueUpTo_items : (vs : List Value) → {d : ℕ} →
    (∀ part ∈ Value.itemTokens vs, part.length ≤ d) →
    List.Forall₂ (Means (Reader.valueUpTo d)) vs vs
  | [], _, _ => .nil
  | v :: vs, _, fits =>
    have ⟨first, others⟩ := List.forall_mem_cons.mp fits
    .cons (valueUpTo_tokens v first) (valueUpTo_items vs others)

private theorem valueUpTo_members : (ms : List (Text × Value)) → {d : ℕ} →
    (∀ part ∈ Value.memberTokens ms, part.length ≤ d) → (before : List (Text × Value)) →
    SetsAll (keepMember d) before ms (before ++ ms)
  | [], _, _, before => by
    rw [List.append_nil]
    exact .nil before
  | (key, v) :: ms, d, fits, before => by
    have ⟨first, others⟩ := List.forall_mem_cons.mp fits
    have short : v.tokens.length ≤ d := by
      rw [List.length_cons, List.length_cons] at first
      omega
    have after := valueUpTo_members ms others (before ++ [(key, v)])
    rw [List.append_assoc, List.singleton_append] at after
    exact .cons (sets_keepMember (valueUpTo_tokens v short) before key) after

end

theorem value_tokens (v : Value) (rest : List Token) :
    Reader.value (v.tokens ++ rest) = .ok (v, rest) := by
  unfold Reader.value
  refine (valueUpTo_tokens v ?_).read rest
  rw [List.length_append]
  omega

theorem tokens_append_inj {v w : Value} {rest rest' : List Token}
    (h : v.tokens ++ rest = w.tokens ++ rest') : v = w ∧ rest = rest' := by
  have read := value_tokens v rest
  rw [h, value_tokens w rest'] at read
  cases read
  exact ⟨rfl, rfl⟩

theorem means_list_iff {element : Reader β} (takes : TakesTree element) {items : List Value}
    {xs : List β} : Means (Reader.list element) (.array items) xs ↔
      List.Forall₂ (Means element) items xs := by
  constructor
  · intro means
    rcases exists_items_of_list takes (means.read []) with ⟨items', same, each⟩
    cases (tokens_append_inj (v := .array items) (w := .array items') same).1
    exact each
  · exact means_array

theorem TakesTree.of_reads {reader : Reader β} (takes : TakesTree reader) {v : Value} {x : β}
    {rest rest' : List Token} (h : reader (v.tokens ++ rest) = .ok (x, rest')) :
    rest = rest' ∧ Means reader v x := by
  rcases takes _ _ _ h with ⟨w, same, means⟩
  rcases tokens_append_inj same with ⟨rfl, rfl⟩
  exact ⟨rfl, means⟩

theorem exactly_eq_ok_iff {t : Token} {ts rest : List Token} :
    Reader.exactly t ts = .ok ((), rest) ↔ ts = t :: rest := by
  cases ts with
  | nil => simp [Reader.exactly]
  | cons s ts =>
    unfold Reader.exactly
    by_cases h : s = t <;> simp [h]

/-- A reader of trees that gives the tree it has taken. -/
private def GivesTree (reader : Reader Value) : Prop :=
  ∀ ts v rest, reader ts = .ok (v, rest) → ts = v.tokens ++ rest ∧ Means reader v v

private theorem GivesTree.takesTree {reader : Reader Value} (gives : GivesTree reader) :
    TakesTree reader :=
  fun ts v rest h => ⟨v, gives ts v rest h⟩

private theorem GivesTree.eq_of_means {reader : Reader Value} (gives : GivesTree reader)
    {v w : Value} (h : Means reader v w) : v = w :=
  (tokens_append_inj (gives _ _ _ (h.read [])).1).1

private theorem GivesTree.eq_of_items {reader : Reader Value} (gives : GivesTree reader)
    {vs ws : List Value} (h : List.Forall₂ (Means reader) vs ws) : vs = ws := by
  induction h with
  | nil => rfl
  | cons first _ ih => rw [gives.eq_of_means first, ih]

private theorem GivesTree.takesMember {d : ℕ} (gives : GivesTree (Reader.valueUpTo d)) :
    TakesMember (keepMember d) := by
  intro ms key ts ms' rest h
  rcases bind_eq_ok.mp h with ⟨⟨⟨⟩, ts'⟩, colon, more⟩
  rcases bind_eq_ok.mp more with ⟨⟨v, ts''⟩, read, kept⟩
  cases kept
  rcases gives _ _ _ read with ⟨rfl, means⟩
  exact ⟨v, exactly_eq_ok_iff.mp colon, sets_keepMember means ms key⟩

private theorem GivesTree.eq_of_setsAll {d : ℕ} (gives : GivesTree (Reader.valueUpTo d))
    {before after ms : List (Text × Value)} (h : SetsAll (keepMember d) before ms after) :
    after = before ++ ms := by
  induction h with
  | nil before => rw [List.append_nil]
  | @cons before next after m ms first _ ih =>
    have read := first []
    unfold keepMember at read
    rw [exactly_self, ok_bind] at read
    rcases bind_eq_ok.mp read with ⟨⟨v, ts⟩, read, kept⟩
    cases kept
    rcases tokens_append_inj (gives _ _ _ read).1 with ⟨rfl, _⟩
    rw [ih, List.append_assoc]
    rfl

private theorem givesTree_valueUpTo (d : ℕ) : GivesTree (Reader.valueUpTo d) := by
  induction d with
  | zero => exact fun _ _ _ h => nomatch h
  | succ d ih =>
    intro ts v rest h
    unfold Reader.valueUpTo at h
    split at h
    case h_1 same => cases same
    case h_2 | h_3 | h_4 | h_5 | h_6 =>
      cases h
      exact ⟨rfl, means_iff.mpr fun _ => rfl⟩
    case h_7 k ts same =>
      cases same
      rcases bind_eq_ok.mp h with ⟨⟨items, ts'⟩, read, found⟩
      cases found
      have listed : Reader.list (Reader.valueUpTo d) (.openBracket :: ts) = .ok (items, rest) :=
        read
      rcases exists_items_of_list ih.takesTree listed with ⟨vs, same, means⟩
      obtain rfl : vs = items := ih.eq_of_items means
      exact ⟨same, valueUpTo_array means⟩
    case h_8 k ts same =>
      cases same
      rcases bind_eq_ok.mp h with ⟨⟨ms, ts'⟩, read, found⟩
      cases found
      have collected : Reader.members (keepMember d) [] ts = .ok (ms, rest) := read
      rcases exists_setsAll_of_members ih.takesMember collected with ⟨ms', rfl, sets⟩
      obtain rfl : ms = ms' := ih.eq_of_setsAll sets
      refine ⟨?_, valueUpTo_object sets⟩
      rw [Value.tokens, List.cons_append, List.append_assoc]
      rfl
    case h_9 => cases h

theorem takesTree_skip : TakesTree Reader.skip := by
  intro ts x rest h
  rcases bind_eq_ok.mp h with ⟨⟨v, ts'⟩, read, found⟩
  cases found
  rcases givesTree_valueUpTo _ _ _ _ read with ⟨rfl, _⟩
  refine ⟨v, rfl, means_iff.mpr fun rest' => ?_⟩
  unfold Reader.skip
  rw [value_tokens]
  rfl

end Trees

section Leaves

theorem takesTree_float : TakesTree Reader.float := by
  intro ts x rest h
  unfold Reader.float at h
  split at h
  case h_1 n ts =>
    split at h
    case h_1 y hy =>
      cases h
      refine ⟨.number n, rfl, means_iff.mpr fun rest' => ?_⟩
      change Reader.float (.number n :: rest') = _
      simp only [Reader.float, hy]
    case h_2 => cases h
  case h_2 => cases h

theorem takesTree_natural (expected : String) : TakesTree (Reader.natural expected) := by
  intro ts x rest h
  unfold Reader.natural at h
  split at h
  case h_1 n ts =>
    split at h
    case h_1 size hn =>
      cases h
      refine ⟨.number n, rfl, means_iff.mpr fun rest' => ?_⟩
      change Reader.natural expected (.number n :: rest') = _
      simp only [Reader.natural, hn]
    all_goals cases h
  case h_2 => cases h

theorem takesTree_boolean : TakesTree Reader.boolean := by
  intro ts x rest h
  unfold Reader.boolean at h
  split at h
  case h_1 =>
    cases h
    exact ⟨.boolean true, rfl, means_iff.mpr fun _ => rfl⟩
  case h_2 =>
    cases h
    exact ⟨.boolean false, rfl, means_iff.mpr fun _ => rfl⟩
  case h_3 => cases h

theorem takesTree_string : TakesTree Reader.string := by
  intro ts x rest h
  unfold Reader.string at h
  split at h
  case h_1 t ts =>
    split at h
    case h_1 s hs =>
      cases h
      refine ⟨.text t, rfl, means_iff.mpr fun rest' => ?_⟩
      change Reader.string (.text t :: rest') = _
      simp only [Reader.string, hs]
    case h_2 => cases h
  case h_2 => cases h

theorem takesTree_nothing : TakesTree Reader.nothing := by
  intro ts x rest h
  unfold Reader.nothing at h
  split at h
  case h_1 =>
    cases h
    exact ⟨.null, rfl, means_iff.mpr fun _ => rfl⟩
  case h_2 => cases h

variable {reader : Reader β}

theorem TakesTree.map (takes : TakesTree reader) (f : β → γ) : TakesTree (fun ts => do
    let (v, ts) ← reader ts
    pure (f v, ts)) := by
  intro ts y rest h
  rcases bind_eq_ok.mp h with ⟨⟨x, ts'⟩, read, found⟩
  cases found
  rcases takes _ _ _ read with ⟨v, rfl, means⟩
  exact ⟨v, rfl, means.map f⟩

theorem means_map_iff (takes : TakesTree reader) {f : β → γ} {v : Value} {y : γ} :
    Means (fun ts => do
      let (x, ts) ← reader ts
      pure (f x, ts)) v y ↔ ∃ x, Means reader v x ∧ f x = y := by
  constructor
  · intro h
    rcases bind_eq_ok.mp (h.read []) with ⟨⟨x, ts⟩, read, found⟩
    cases found
    exact ⟨x, (takes.of_reads read).2, rfl⟩
  · rintro ⟨x, means, rfl⟩
    exact means.map f

theorem means_map_congr (takes : TakesTree reader) (f : β → γ) {v w : Value}
    (same : ∀ x, Means reader v x ↔ Means reader w x) (y : γ) :
    Means (fun ts => do
      let (x, ts) ← reader ts
      pure (f x, ts)) v y ↔
    Means (fun ts => do
      let (x, ts) ← reader ts
      pure (f x, ts)) w y := by
  rw [means_map_iff takes, means_map_iff takes]
  exact exists_congr fun x => and_congr_left fun _ => same x

end Leaves

end RuleConsensus.Json
