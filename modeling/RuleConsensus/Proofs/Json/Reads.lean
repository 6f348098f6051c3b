import Mathlib.Data.List.Forall2
import RuleConsensus.Json.Form
import RuleConsensus.Proofs.Json.Scanned

set_option autoImplicit false
set_option relaxedAutoImplicit false

namespace RuleConsensus.Json

variable {β γ : Type}

deriving instance DecidableEq for Found, Malformed

theorem ok_bind (v : β) (f : β → Except Malformed γ) : ((.ok v : Except Malformed β) >>= f) = f v :=
  rfl

theorem exactly_self (t : Token) (rest : List Token) :
    Reader.exactly t (t :: rest) = .ok ((), rest) := if_pos rfl

/-- A reader takes some tokens, whatever comes after them, and gives a value. The first token closes
no list, so that the tokens may be one of its elements. -/
structure Reads (reader : Reader β) (ts : List Token) (v : β) : Prop where
  read : ∀ rest, reader (ts ++ rest) = .ok (v, rest)
  opens : ∃ t more, ts = t :: more ∧ t ≠ .closeBracket

theorem Reads.map {reader : Reader β} {ts : List Token} {v : β} (h : Reads reader ts v)
    (f : β → γ) : Reads (fun ts => do
      let (v, ts) ← reader ts
      pure (f v, ts)) ts (f v) where
  read rest := by
    rw [h.read]
    rfl
  opens := h.opens

section Values

theorem Text.toString?_ofString (s : String) : (Text.ofString s).toString? = some s := by
  have chars (cs : List Char) : Text.chars? (cs.map .char) = some cs := by
    induction cs with
    | nil => rfl
    | cons c cs ih =>
      rw [List.map_cons, Text.chars?, ih]
      rfl
  unfold Text.toString? Text.ofString
  rw [chars, Option.map_some, String.ofList_toList]

theorem reads_float {x : Float} (h : (Layout.document.numeral x).read? = some x) :
    Reads Reader.float (Value.ofFloat x).tokens x where
  read rest := by
    change Reader.float (.number (Layout.document.numeral x) :: rest) = _
    simp only [Reader.float, h]
  opens := ⟨_, _, rfl, nofun⟩

theorem ofNumeral?_ofNat {n : ℕ} (hn : n < UInt64.size) :
    Number.ofNumeral? (Numeral.ofNat n) = some (.natural n) := by
  unfold Number.ofNumeral?
  rw [Numeral.magnitude_ofNat]
  exact if_pos (by simp [Numeral.isWhole, Numeral.ofNat, hn])

theorem reads_natural {n : ℕ} (hn : n < UInt64.size) (expected : String) :
    Reads (Reader.natural expected) (Value.ofNat n).tokens n where
  read rest := by
    change Reader.natural expected (.number (Numeral.ofNat n) :: rest) = _
    simp only [Reader.natural, ofNumeral?_ofNat hn]
  opens := ⟨_, _, rfl, nofun⟩

end Values

section Lists

theorem commaSeparated_cons (part : List Token) (parts : List (List Token)) :
    Value.commaSeparated (part :: parts) = part ++ parts.flatMap (.comma :: ·) := by
  induction parts generalizing part with
  | nil => simp [Value.commaSeparated]
  | cons next more ih =>
    rw [Value.commaSeparated, ih, List.flatMap_cons]
    · rfl
    · nofun

/-- Every part takes a token of its own, so that there is fuel for all of them. -/
theorem length_le_length_flatMap (t : Token) (f : β → List Token) (parts : List β) :
    parts.length ≤ (parts.flatMap fun part => t :: f part).length := by
  induction parts with
  | nil => exact Nat.le_refl 0
  | cons part parts ih =>
    rw [List.flatMap_cons, List.length_append, List.length_cons, List.length_cons]
    omega

theorem elementsAfter_of_reads {element : Reader β} {parts : List (List Token)} {vs : List β}
    (h : List.Forall₂ (Reads element) parts vs) (rest : List Token) {n : ℕ}
    (hn : parts.length < n) :
    Reader.elementsAfter element n (parts.flatMap (.comma :: ·) ++ .closeBracket :: rest) =
      .ok (vs, rest) := by
  induction h generalizing n with
  | nil =>
    obtain ⟨n, rfl⟩ := Nat.exists_eq_add_of_lt hn
    rw [List.length_nil, Nat.zero_add]
    rfl
  | @cons part v parts vs first _ ih =>
    obtain ⟨m, rfl⟩ : ∃ m, n = m + 1 := ⟨n - 1, by omega⟩
    have more : parts.length < m := Nat.lt_of_succ_lt_succ hn
    rw [List.flatMap_cons, List.cons_append, List.cons_append, List.append_assoc]
    simp only [Reader.elementsAfter]
    rw [first.read, ok_bind, ih more]
    rfl

theorem elements_of_other {element : Reader β} {t : Token} (other : t ≠ .closeBracket)
    (ts : List Token) : Reader.elements element (t :: ts) = (do
      let (x, rest) ← element (t :: ts)
      let (xs, rest) ← Reader.elementsAfter element rest.length rest
      pure (x :: xs, rest)) := by
  unfold Reader.elements
  split
  case h_1 h => exact absurd (List.cons.inj h).1 other
  case h_2 => rfl

theorem reads_list {element : Reader β} {parts : List (List Token)} {vs : List β}
    (h : List.Forall₂ (Reads element) parts vs) :
    Reads (Reader.list element) (.openBracket :: (Value.commaSeparated parts ++ [.closeBracket]))
      vs where
  read rest := by
    change Reader.elements element (Value.commaSeparated parts ++ [.closeBracket] ++ rest) = _
    rw [List.append_assoc, List.singleton_append]
    cases h with
    | nil => rfl
    | @cons part v parts vs first others =>
      obtain ⟨t, more, opens, other⟩ := first.opens
      have read := first.read (parts.flatMap (.comma :: ·) ++ .closeBracket :: rest)
      rw [commaSeparated_cons, List.append_assoc]
      rw [opens, List.cons_append] at read ⊢
      rw [elements_of_other other, read, ok_bind]
      dsimp only
      have fuel := length_le_length_flatMap .comma id parts
      rw [elementsAfter_of_reads others rest]
      · rfl
      · rw [List.length_append, List.length_cons]
        exact Nat.lt_of_le_of_lt fuel (Nat.lt_add_of_pos_right (Nat.succ_pos _))
  opens := ⟨_, _, rfl, nofun⟩

theorem reads_array {element : Reader β} {toJson : β → Value} {xs : List β}
    (h : ∀ x ∈ xs, Reads element (toJson x).tokens x) :
    Reads (Reader.list element) (Value.array (xs.map toJson)).tokens xs := by
  unfold Value.tokens
  rw [itemTokens_eq_map, List.map_map]
  refine reads_list ?_
  induction xs with
  | nil => exact .nil
  | cons x xs ih =>
    obtain ⟨first, others⟩ := List.forall_mem_cons.mp h
    exact .cons first (ih others)

end Lists

section Choices

variable {names : List String} {bare : String → Except Malformed β} {payload : String → Reader β}

theorem variantName_ofString {name : String} (listed : name ∈ names) :
    variantName names (Text.ofString name) = .ok name := by
  unfold variantName
  rw [Text.toString?_ofString]
  exact if_pos (List.contains_iff_mem.mpr listed)

theorem reads_bare {name : String} {v : β} (listed : name ∈ names) (h : bare name = .ok v) :
    Reads (Reader.choice names bare payload) (Value.ofString name).tokens v where
  read rest := by
    change Reader.choice names bare payload (.text (Text.ofString name) :: rest) = _
    simp only [Reader.choice, variantName_ofString listed, ok_bind, h]
    rfl
  opens := ⟨_, _, rfl, nofun⟩

theorem reads_payload {name : String} {value : Value} {v : β} (listed : name ∈ names)
    (h : Reads (payload name) value.tokens v) :
    Reads (Reader.choice names bare payload) (Value.record [(name, value)]).tokens v where
  read rest := by
    change Reader.choice names bare payload (.openBrace :: .text (Text.ofString name) :: .colon ::
      (value.tokens ++ [.closeBrace] ++ rest)) = _
    rw [List.append_assoc]
    simp only [Reader.choice, variantName_ofString listed, ok_bind, exactly_self, h.read]
    rfl
  opens := ⟨_, _, rfl, nofun⟩

end Choices

/-- A document that was written from a tree is read as the tokens of the tree are. -/
theorem read_render {reader : Reader β} {value : Value} {v : β}
    (written : value.Written) (h : Reads reader value.tokens v) :
    read reader value.render = .ok v := by
  have whole := h.read []
  rw [List.append_nil] at whole
  unfold read
  rw [scan_render written, whole]

end RuleConsensus.Json
