import Mathlib.Data.List.Nodup
import Mathlib.Order.Bounds.Basic
import RuleConsensus.Proofs.Term.Accepted

set_option autoImplicit false
set_option relaxedAutoImplicit false

namespace RuleConsensus

section Search

variable {l seen rest : List Nat}

theorem aliasAfter?_eq_none_iff (distinct : seen.Nodup) :
    aliasAfter? seen rest = none ↔ (seen ++ rest).Nodup := by
  induction rest generalizing seen with
  | nil => simpa [aliasAfter?] using distinct
  | cons i rest ih =>
    unfold aliasAfter?
    cases hi : seen.idxOf? i with
    | some first =>
      have repeated : i ∈ seen := List.isSome_idxOf?.mp (by rw [hi, Option.isSome_some])
      simp only [reduceCtorEq, false_iff]
      intro all
      exact (List.nodup_append.mp all).2.2 i repeated i List.mem_cons_self rfl
    | none =>
      have fresh : i ∉ seen := List.idxOf?_eq_none_iff.mp hi
      have longer : (seen ++ [i]).Nodup := List.concat_eq_append ▸ distinct.concat fresh
      rw [ih longer, List.append_assoc, List.singleton_append]

theorem firstAlias?_eq_none_iff : firstAlias? l = none ↔ l.Nodup := by
  rw [firstAlias?, aliasAfter?_eq_none_iff List.nodup_nil, List.nil_append]

/-- The first entry that repeats an earlier one, with the positions of both. -/
structure FirstRepeat (l : List Nat) (a : Alias) : Prop where
  earlier : l[a.first]? = some a.index
  later : l[a.second]? = some a.index
  first_lt : a.first < a.second
  nodup_before : (l.take a.second).Nodup

private theorem eq_of_nodup_take {i j k n : Nat} (distinct : (l.take n).Nodup)
    (hi : i < n) (hj : j < n) (h : l[i]? = some k) (h' : l[j]? = some k) : i = j := by
  have here : (l.take n)[i]? = some k := by rw [List.getElem?_take_of_lt hi, h]
  have there : (l.take n)[j]? = some k := by rw [List.getElem?_take_of_lt hj, h']
  obtain ⟨inside, _⟩ := List.getElem?_eq_some_iff.mp here
  exact (List.getElem?_inj inside distinct).mp (here.trans there.symm)

theorem FirstRepeat.not_nodup {a : Alias} (h : FirstRepeat l a) : ¬l.Nodup := by
  intro distinct
  obtain ⟨inside, _⟩ := List.getElem?_eq_some_iff.mp h.earlier
  have same := (List.getElem?_inj inside distinct).mp (h.earlier.trans h.later.symm)
  exact h.first_lt.ne same

theorem FirstRepeat.unique {a b : Alias} (h : FirstRepeat l a) (h' : FirstRepeat l b) : a = b := by
  have least {a b : Alias} (h : FirstRepeat l a) (h' : FirstRepeat l b) :
      b.second ≤ a.second := by
    refine Nat.le_of_not_lt fun earlier => ?_
    have lt := h.first_lt
    have same := eq_of_nodup_take h'.nodup_before (by omega) (by omega) h.earlier h.later
    omega
  have seconds : a.second = b.second := Nat.le_antisymm (least h' h) (least h h')
  have indices : a.index = b.index := by
    have later := h.later
    rw [seconds, h'.later] at later
    exact (Option.some.inj later).symm
  have firsts : a.first = b.first :=
    eq_of_nodup_take h'.nodup_before (seconds ▸ h.first_lt) h'.first_lt h.earlier
      (indices ▸ h'.earlier)
  cases a
  cases b
  simp_all

theorem firstRepeat_of_aliasAfter? (distinct : seen.Nodup) {a : Alias}
    (h : aliasAfter? seen rest = some a) : FirstRepeat (seen ++ rest) a := by
  induction rest generalizing seen with
  | nil => cases h
  | cons i rest ih =>
    unfold aliasAfter? at h
    cases hi : seen.idxOf? i with
    | some first =>
      rw [hi] at h
      obtain rfl := Option.some.inj h
      obtain ⟨inside, here, _⟩ := List.findIdx?_eq_some_iff_getElem.mp hi
      have entry : seen[first]? = some i := by
        rw [List.getElem?_eq_getElem inside, eq_of_beq here]
      exact ⟨by rw [List.getElem?_append_left inside, entry], by simp, inside,
        by simpa using distinct⟩
    | none =>
      rw [hi] at h
      have fresh : i ∉ seen := List.idxOf?_eq_none_iff.mp hi
      have longer : (seen ++ [i]).Nodup := List.concat_eq_append ▸ distinct.concat fresh
      have next := ih longer h
      rwa [List.append_assoc, List.singleton_append] at next

theorem firstAlias?_eq_some_iff {a : Alias} : firstAlias? l = some a ↔ FirstRepeat l a := by
  constructor
  · exact firstRepeat_of_aliasAfter? List.nodup_nil
  · intro h
    cases found : firstAlias? l with
    | none => exact absurd (firstAlias?_eq_none_iff.mp found) h.not_nodup
    | some b =>
      have found : FirstRepeat l b := firstRepeat_of_aliasAfter? List.nodup_nil found
      rw [found.unique h]

end Search

section Positions

variable {l : List Nat}

/-- A position whose entry stands at an earlier position, too. -/
def Repeats (l : List Nat) (j : Nat) : Prop := ∃ i < j, ∃ k, l[i]? = some k ∧ l[j]? = some k

theorem nodup_take_iff {n : Nat} : (l.take n).Nodup ↔ ∀ j < n, ¬Repeats l j := by
  constructor
  · rintro distinct j hj ⟨i, hi, k, earlier, later⟩
    exact hi.ne (eq_of_nodup_take distinct (hi.trans hj) hj earlier later)
  · intro fresh
    refine List.nodup_iff_getElem?_ne_getElem?.mpr fun i j hi hj same => ?_
    have short : j < n := hj.trans_le (List.length_take_le n l)
    rw [List.getElem?_take_of_lt (hi.trans short), List.getElem?_take_of_lt short] at same
    have later := List.getElem?_eq_getElem (hj.trans_le (List.length_take_le' n l))
    exact fresh j short ⟨i, hi, _, same.trans later, later⟩

/-- The first entry that repeats an earlier one stands at the least position that repeats, and at
one position before it. -/
theorem firstRepeat_iff {a : Alias} :
    FirstRepeat l a ↔ IsLeast {j | Repeats l j} a.second ∧
      (∀ i, i < a.second ∧ l[i]? = some a.index ↔ i = a.first) ∧ l[a.second]? = some a.index := by
  constructor
  · rintro ⟨earlier, later, lt, distinct⟩
    refine ⟨⟨⟨a.first, lt, a.index, earlier, later⟩, fun j hj => ?_⟩, fun i => ⟨?_, ?_⟩, later⟩
    · exact Nat.le_of_not_lt fun before => nodup_take_iff.mp distinct j before hj
    · rintro ⟨before, here⟩
      exact eq_of_nodup_take distinct before lt here earlier
    · rintro rfl
      exact ⟨lt, earlier⟩
  · rintro ⟨⟨_, least⟩, only, later⟩
    obtain ⟨lt, earlier⟩ := (only a.first).mpr rfl
    refine ⟨earlier, later, lt, nodup_take_iff.mpr fun j before hj => ?_⟩
    exact absurd (least hj) before.not_ge

end Positions

variable {α : Type}

theorem checkIndices_of_length_ne {indices : List Nat} {arity : Nat}
    (h : indices.length ≠ arity) :
    (checkIndices indices arity : Except (TermError α) Unit) =
      .error (.dimensionMismatch "z_indices" arity indices.length) := by
  rw [checkIndices, checkLength, if_pos h.symm]
  rfl

theorem checkIndices_of_length_eq {indices : List Nat} {arity : Nat}
    (h : indices.length = arity) :
    (checkIndices indices arity : Except (TermError α) Unit) =
      match firstAlias? indices with
      | some a => .error (.duplicateIndex a.index a.first a.second)
      | none => .ok () := by
  rw [checkIndices, checkLength_eq_ok_iff.mpr h.symm]
  rfl

/-- An index map is accepted exactly if it has the right length and no entry twice. The length is
looked at first. In a map of the right length, the alias that is named is the first one: its second
position is the least that repeats an earlier entry, its first position is the only earlier one with
that entry, and its index is the entry. If an entry is there twice, an alias is named. -/
theorem checkIndices_finds_first_alias (indices : List Nat) (arity : Nat) :
    ((checkIndices indices arity : Except (TermError α) Unit) = .ok () ↔
      indices.length = arity ∧ indices.Nodup) ∧
    (indices.length ≠ arity → (checkIndices indices arity : Except (TermError α) Unit) =
      .error (.dimensionMismatch "z_indices" arity indices.length)) ∧
    (∀ index first second,
      (checkIndices indices arity : Except (TermError α) Unit) =
          .error (.duplicateIndex index first second) ↔
        indices.length = arity ∧ IsLeast {j | Repeats indices j} second ∧
          (∀ i, i < second ∧ indices[i]? = some index ↔ i = first) ∧
          indices[second]? = some index) ∧
    (indices.length = arity → ¬indices.Nodup → ∃ index first second,
      (checkIndices indices arity : Except (TermError α) Unit) =
        .error (.duplicateIndex index first second)) := by
  refine ⟨?_, checkIndices_of_length_ne, fun index first second => ?_, fun fits repeated => ?_⟩
  · rw [checkIndices_eq_ok_iff, firstAlias?_eq_none_iff]
  · by_cases fits : indices.length = arity
    · have described := firstRepeat_iff (l := indices) (a := ⟨index, first, second⟩)
      rw [← firstAlias?_eq_some_iff] at described
      rw [and_iff_right fits, ← described, checkIndices_of_length_eq fits]
      cases firstAlias? indices with
      | none => simp
      | some a =>
        cases a
        simp
    · rw [checkIndices_of_length_ne fits]
      simp [fits]
  · rw [checkIndices_of_length_eq fits]
    cases found : firstAlias? indices with
    | none => exact absurd (firstAlias?_eq_none_iff.mp found) repeated
    | some a => exact ⟨a.index, a.first, a.second, rfl⟩

/-- Of several entries that repeat, the one that repeats first is named, not the one that stands
first. -/
example : (checkIndices [5, 3, 4, 3, 5] 5 : Except (TermError α) Unit) =
    .error (.duplicateIndex 3 1 3) := rfl

end RuleConsensus
