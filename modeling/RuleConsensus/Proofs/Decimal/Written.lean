import RuleConsensus.Proofs.Binary.Finite

set_option autoImplicit false
set_option relaxedAutoImplicit false

namespace RuleConsensus

/-- One zero, or digits that start with another one. -/
inductive WholePart : List Char → Prop
  | zero : WholePart ['0']
  | leading {c : Char} {cs : List Char} (nonzero : c ≠ '0') (digits : ∀ d ∈ c :: cs, d.isDigit) :
      WholePart (c :: cs)

theorem WholePart.isDigit {cs : List Char} (h : WholePart cs) : ∀ c ∈ cs, c.isDigit = true := by
  cases h with
  | zero => exact List.forall_mem_singleton.mpr rfl
  | leading _ digits => exact digits

theorem WholePart.exists_eq_cons {whole : List Char} (written : WholePart whole) :
    ∃ c cs, whole = c :: cs ∧ c.isDigit = true := by
  cases written with
  | zero => exact ⟨'0', [], rfl, rfl⟩
  | @leading c cs _ digits => exact ⟨c, cs, rfl, digits c List.mem_cons_self⟩

theorem WholePart.append {cs ds : List Char} (h : ∃ c rest, cs = c :: rest ∧ c ≠ '0')
    (hcs : ∀ c ∈ cs, c.isDigit = true) (hds : ∀ c ∈ ds, c.isDigit = true) :
    WholePart (cs ++ ds) := by
  obtain ⟨c, rest, rfl, nonzero⟩ := h
  exact .leading nonzero (List.forall_mem_append.mpr ⟨hcs, hds⟩)

structure Numeral.Written (n : Numeral) : Prop where
  whole : WholePart n.whole
  fraction : ∀ c ∈ n.fraction, c.isDigit = true
  exponent : ∀ sign digits, n.exponent = some (sign, digits) →
    digits ≠ [] ∧ ∀ c ∈ digits, c.isDigit = true

section Digits

theorem isDigit_of_mem_decimal {n : ℕ} : ∀ c ∈ Nat.toDigits 10 n, c.isDigit = true :=
  fun _ hc => Nat.isDigit_of_mem_toDigits (by decide) (by decide) hc

theorem isDigit_of_mem_zeros {n : ℕ} : ∀ c ∈ List.replicate n '0', c.isDigit = true := by
  intro c hc
  rw [List.eq_of_mem_replicate hc]
  rfl

theorem exists_toDigits_eq_cons {n : ℕ} (hn : n ≠ 0) :
    ∃ c rest, Nat.toDigits 10 n = c :: rest ∧ c ≠ '0' := by
  induction n using Nat.strongRecOn with
  | ind n ih =>
    rw [Nat.toDigits_eq_if (by decide)]
    by_cases small : n < 10
    · rw [if_pos small]
      have nonzero : ∀ m < 10, m ≠ 0 → m.digitChar ≠ '0' := by decide
      exact ⟨n.digitChar, [], rfl, nonzero n small hn⟩
    · obtain ⟨c, rest, h, nonzero⟩ := ih (n / 10) (by omega) (by omega)
      rw [if_neg small, h]
      exact ⟨c, _, rfl, nonzero⟩

theorem wholePart_toDigits (n : ℕ) : WholePart (Nat.toDigits 10 n) := by
  by_cases zero : n = 0
  · rw [zero, Nat.toDigits_zero]
    exact .zero
  · obtain ⟨c, rest, h, nonzero⟩ := exists_toDigits_eq_cons zero
    rw [h]
    exact .leading nonzero (h ▸ isDigit_of_mem_decimal)

end Digits

namespace Numeral

theorem written_ofNat (n : ℕ) : (ofNat n).Written :=
  ⟨wholePart_toDigits n, by simp [ofNat], by simp [ofNat]⟩

/-- Digits filled up with zeros, without the last places. Zeros fill up to one digit that is left;
where more are left, none was needed. -/
theorem wholePart_filled {n places : ℕ} {digits : List Char} (hd : Nat.toDigits 10 n = digits)
    (hp : 0 < places) :
    WholePart ((List.replicate (places + 1 - digits.length) '0' ++ digits).take
      ((List.replicate (places + 1 - digits.length) '0' ++ digits).length - places)) := by
  rw [List.length_append, List.length_replicate]
  by_cases short : digits.length ≤ places
  · have one : places + 1 - digits.length + digits.length - places = 1 := by omega
    have zeros : places + 1 - digits.length = places - digits.length + 1 := by omega
    rw [one, zeros, List.replicate_succ]
    exact .zero
  · have none : places + 1 - digits.length = 0 := by omega
    have nonzero : n ≠ 0 := by
      rintro rfl
      rw [← hd, Nat.toDigits_zero, List.length_singleton] at short
      omega
    obtain ⟨c, rest, h, leading⟩ := exists_toDigits_eq_cons nonzero
    obtain ⟨kept, hk⟩ : ∃ kept, digits.length - places = kept + 1 :=
      ⟨digits.length - places - 1, by omega⟩
    have all : ∀ d ∈ c :: rest, d.isDigit = true := h ▸ isDigit_of_mem_decimal
    rw [none, List.replicate_zero, List.nil_append, Nat.zero_add, hk, ← hd, h,
      List.take_succ_cons]
    exact .leading leading fun d hm => all d (List.mem_of_mem_take (i := kept + 1) hm)

theorem written_positional (negative : Bool) (d : Decimal) : (positional negative d).Written := by
  unfold positional
  dsimp only
  split
  case isTrue =>
    refine ⟨?_, by simp, by simp⟩
    dsimp only
    split
    case isTrue => exact .zero
    case isFalse nonzero =>
      exact .append (exists_toDigits_eq_cons nonzero) isDigit_of_mem_decimal isDigit_of_mem_zeros
  case isFalse below =>
    refine ⟨wholePart_filled rfl (by omega), fun c hc => ?_, by simp⟩
    exact List.forall_mem_append.mpr ⟨isDigit_of_mem_zeros, isDigit_of_mem_decimal⟩ c
      (List.mem_of_mem_drop hc)

theorem written_scientific (negative signed : Bool) (d : Decimal) :
    (scientific negative signed d).Written := by
  unfold scientific
  dsimp only
  refine ⟨?_, fun c hc => isDigit_of_mem_decimal c (List.mem_of_mem_drop hc), ?_⟩
  · dsimp only
    obtain ⟨c, rest, h⟩ := List.exists_cons_of_ne_nil (Nat.toDigits_ne_nil (b := 10)
      (n := d.coefficient))
    have digit : c.isDigit = true := isDigit_of_mem_decimal c (h ▸ List.mem_cons_self)
    rw [h, List.take_succ_cons, List.take_zero]
    by_cases zero : c = '0'
    · rw [zero]
      exact .zero
    · exact .leading zero (by simpa using digit)
  · rintro sign digits h
    obtain ⟨_, rfl⟩ := Prod.mk.inj (Option.some.inj h)
    exact ⟨Nat.toDigits_ne_nil, isDigit_of_mem_decimal⟩

theorem Written.withPoint {n : Numeral} (written : n.Written) : n.withPoint.Written := by
  unfold Numeral.withPoint
  split
  case isTrue =>
    exact { written with fraction := WholePart.zero.isDigit }
  case isFalse => exact written

end Numeral

theorem Layout.written_numeral (layout : Layout) (x : Float) : (layout.numeral x).Written := by
  unfold numeral setDown
  dsimp only
  generalize (if (Dyadic.ofFloat x).coefficient = 0 then _ else _ : Decimal) = d
  split
  case isTrue =>
    split
    case isTrue => exact (Numeral.written_positional _ d).withPoint
    case isFalse => exact Numeral.written_positional _ d
  case isFalse => exact Numeral.written_scientific _ _ d

section Reading

theorem Numeral.magnitude_ofNat (n : ℕ) : (Numeral.ofNat n).magnitude = ⟨n, 0⟩ := by
  simp [Numeral.magnitude, Numeral.ofNat, Numeral.exponentValue]

theorem appendDigits_lt {n : ℕ} (hn : n < UInt64.size) (cs : List Char) :
    (appendDigits n cs).1 < UInt64.size := by
  induction cs generalizing n with
  | nil => exact hn
  | cons c cs ih =>
    unfold appendDigits
    dsimp only
    split
    case isTrue more => exact ih more
    case isFalse => exact hn

theorem Numeral.leading_lt (n : Numeral) : n.leading.coefficient < UInt64.size :=
  appendDigits_lt (appendDigits_lt (by decide) n.whole) n.fraction

theorem isFinite_of_timesPowerOfTen? {x y : Float} {e : Int} (hx : x.isFinite = true)
    (h : timesPowerOfTen? x e = some y) : y.isFinite = true := by
  fun_induction timesPowerOfTen? x e with
  | case1 x e nonneg small y finite =>
    obtain rfl := Option.some.inj h
    exact finite
  | case2 => cases h
  | case3 x e nonneg large zero =>
    obtain rfl := Option.some.inj h
    exact hx
  | case4 => cases h
  | case5 x e negative small =>
    obtain rfl := Option.some.inj h
    exact Binary.isFinite_div hx (Binary.atLeastTwo_powerOfTen (by omega) (by omega))
  | case6 x e negative large zero =>
    obtain rfl := Option.some.inj h
    exact hx
  | case7 x e negative large nonzero ih =>
    have divisor := Binary.atLeastTwo_powerOfTen (e := 308) (by decide) (by decide)
    exact ih (Binary.isFinite_div hx divisor) h

theorem Numeral.isFinite_of_read? {n : Numeral} {x : Float} (h : n.read? = some x) :
    x.isFinite = true := by
  obtain ⟨y, hy, rfl⟩ := Option.map_eq_some_iff.mp h
  have finite := isFinite_of_timesPowerOfTen? (Binary.isFinite_ofNat n.leading_lt) hy
  cases n.negative with
  | true => exact Binary.isFinite_neg finite
  | false => exact finite

end Reading

end RuleConsensus
