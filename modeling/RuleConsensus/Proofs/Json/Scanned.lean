import RuleConsensus.Json.Value
import RuleConsensus.Proofs.Decimal.Written

/-!
Scanning what was written. The characters of a token are read back as that token, whatever comes
next; only a number needs the next character to be none that could belong to it. In the tokens of a
tree no number follows another one, so that its text scans to the tokens it was written from.
-/

set_option autoImplicit false
set_option relaxedAutoImplicit false

namespace RuleConsensus.Json

section Numbers

/-- Characters before which a number ends. -/
def EndsNumber (cs : List Char) : Prop :=
  ∀ c ∈ cs.head?, c.isDigit = false ∧ c ≠ '.' ∧ c ≠ 'e' ∧ c ≠ 'E'

def EndsDigits (cs : List Char) : Prop := ∀ c ∈ cs.head?, c.isDigit = false

theorem EndsNumber.endsDigits {cs : List Char} (ends : EndsNumber cs) : EndsDigits cs :=
  fun c hc => (ends c hc).1

theorem digits_of_append {ds rest : List Char} (hd : ∀ c ∈ ds, c.isDigit = true)
    (ends : EndsDigits rest) : digits (ds ++ rest) = (ds, rest) := by
  unfold digits
  rw [List.takeWhile_append_of_pos hd, List.dropWhile_append_of_pos hd]
  cases rest with
  | nil => simp
  | cons c cs =>
    have stop : ¬c.isDigit = true := Bool.not_eq_true _ ▸ ends c rfl
    rw [List.takeWhile_cons_of_neg stop, List.dropWhile_cons_of_neg stop, List.append_nil]

theorem digits?_of_append {ds rest : List Char} (nonempty : ds ≠ [])
    (hd : ∀ c ∈ ds, c.isDigit = true) (ends : EndsDigits rest) :
    digits? (ds ++ rest) = some (ds, rest) := by
  unfold digits?
  rw [digits_of_append hd ends]
  simp [nonempty]

theorem whole?_of_append {whole rest : List Char} (written : WholePart whole)
    (ends : EndsDigits rest) : whole? (whole ++ rest) = some (whole, rest) := by
  cases written with
  | zero =>
    have single : digits ([] ++ rest) = ([], rest) := digits_of_append (by simp) ends
    rw [List.nil_append] at single
    change (if (digits rest).1.isEmpty then some (['0'], rest) else none) = some (['0'], rest)
    rw [single]
    rfl
  | @leading c cs nonzero hd =>
    rw [← digits?_of_append (List.cons_ne_nil c cs) hd ends, List.cons_append]
    unfold whole?
    split
    case h_1 h => exact absurd (List.cons.inj h).1 nonzero
    case h_2 => rfl

theorem fraction?_of_append {fraction rest : List Char}
    (hf : ∀ c ∈ fraction, c.isDigit = true) (ends : EndsDigits rest)
    (pointless : '.' ∉ rest.head?) :
    fraction? ((if fraction.isEmpty then [] else '.' :: fraction) ++ rest) =
      some (fraction, rest) := by
  cases fraction with
  | nil =>
    change fraction? rest = some ([], rest)
    unfold fraction?
    split
    case h_1 => exact absurd rfl pointless
    case h_2 => rfl
  | cons c cs => exact digits?_of_append (List.cons_ne_nil c cs) hf ends

inductive SpellsExponent : Option (ExponentSign × List Char) → List Char → Prop
  | missing : SpellsExponent none []
  | written {letter : Char} {sign : ExponentSign} {ds : List Char} :
    letter = 'e' ∨ letter = 'E' → ds ≠ [] → (∀ c ∈ ds, c.isDigit = true) →
    SpellsExponent (some (sign, ds)) (letter :: (sign.chars ++ ds))

theorem exponentSign_of_append {sign : ExponentSign} {ds rest : List Char} (nonempty : ds ≠ [])
    (hd : ∀ c ∈ ds, c.isDigit = true) :
    exponentSign (sign.chars ++ (ds ++ rest)) = (sign, ds ++ rest) := by
  cases sign with
  | plus => rfl
  | minus => rfl
  | none =>
    obtain ⟨c, cs, rfl⟩ := List.exists_cons_of_ne_nil nonempty
    have digit := hd c List.mem_cons_self
    change exponentSign (c :: (cs ++ rest)) = (.none, c :: (cs ++ rest))
    unfold exponentSign
    split
    case h_1 h =>
      rw [(List.cons.inj h).1] at digit
      exact absurd digit (by decide)
    case h_2 h =>
      rw [(List.cons.inj h).1] at digit
      exact absurd digit (by decide)
    case h_3 => rfl

theorem exponent?_of_append {exponent : Option (ExponentSign × List Char)}
    {l rest : List Char} (spelled : SpellsExponent exponent l) (ends : EndsNumber rest) :
    exponent? (l ++ rest) = some (exponent, rest) := by
  cases spelled with
  | missing =>
    change exponent? rest = some (none, rest)
    unfold exponent?
    split
    case h_1 => exact absurd rfl (ends 'e' rfl).2.2.1
    case h_2 => exact absurd rfl (ends 'E' rfl).2.2.2
    case h_3 => rfl
  | @written letter sign ds case nonempty hd =>
    have opened : exponent? (letter :: (sign.chars ++ ds) ++ rest) =
        (digits? (exponentSign (sign.chars ++ ds ++ rest)).2 >>= fun (read : _ × _) =>
          pure (some ((exponentSign (sign.chars ++ ds ++ rest)).1, read.1), read.2)) := by
      rcases case with rfl | rfl <;> rfl
    rw [opened, List.append_assoc, exponentSign_of_append nonempty hd,
      digits?_of_append nonempty hd ends.endsDigits]
    rfl

/-- The characters of a number, whose exponent may have a letter of either case. -/
structure SpellsNumber (n : Numeral) (l : List Char) : Prop where
  whole : WholePart n.whole
  fraction : ∀ c ∈ n.fraction, c.isDigit = true
  spelled : ∃ e, SpellsExponent n.exponent e ∧ l = (if n.negative then ['-'] else []) ++
    (n.whole ++ ((if n.fraction.isEmpty then [] else '.' :: n.fraction) ++ e))

def exponentChars : Option (ExponentSign × List Char) → List Char
  | some (sign, digits) => 'e' :: (sign.chars ++ digits)
  | none => []

theorem spellsNumber_chars {n : Numeral} (written : n.Written) : SpellsNumber n n.chars := by
  have spelled : SpellsExponent n.exponent (exponentChars n.exponent) := by
    cases h : n.exponent with
    | none => exact .missing
    | some p =>
      obtain ⟨nonempty, hd⟩ := written.exponent p.1 p.2 h
      exact .written (.inl rfl) nonempty hd
  refine ⟨written.whole, written.fraction, _, spelled, ?_⟩
  change (if n.negative then ['-'] else []) ++ n.whole ++
    (if n.fraction.isEmpty then [] else '.' :: n.fraction) ++ exponentChars n.exponent = _
  rw [List.append_assoc, List.append_assoc]

theorem unsigned?_of_append {n : Numeral} (whole : WholePart n.whole)
    (fraction : ∀ c ∈ n.fraction, c.isDigit = true) {e : List Char}
    (spelled : SpellsExponent n.exponent e) {rest : List Char} (ends : EndsNumber rest) :
    unsigned? n.negative (n.whole ++ ((if n.fraction.isEmpty then [] else '.' :: n.fraction) ++
      (e ++ rest))) = some (n, rest) := by
  have exponent := exponent?_of_append spelled ends
  have exponent_ends : ∀ c ∈ (e ++ rest).head?, c.isDigit = false ∧ c ≠ '.' := by
    generalize n.exponent = exponent at spelled
    cases spelled with
    | missing => exact fun c hc => ⟨(ends c hc).1, (ends c hc).2.1⟩
    | written case _ _ =>
      rintro c ⟨⟩
      rcases case with rfl | rfl <;> decide
  have fraction_ends : EndsDigits ((if n.fraction.isEmpty then [] else '.' :: n.fraction) ++
      (e ++ rest)) := by
    cases n.fraction with
    | nil => exact fun c hc => (exponent_ends c hc).1
    | cons c cs =>
      rintro d ⟨⟩
      decide
  unfold unsigned?
  rw [whole?_of_append whole fraction_ends]
  simp only [Option.bind_eq_bind, Option.bind_some]
  rw [fraction?_of_append fraction (fun c hc => (exponent_ends c hc).1)
    fun h => (exponent_ends _ h).2 rfl]
  simp only [Option.bind_some]
  rw [exponent]
  rfl

theorem number?_of_digit {c : Char} (digit : c.isDigit = true) (cs : List Char) :
    number? (c :: cs) = unsigned? false (c :: cs) := by
  unfold number?
  split
  case h_1 h =>
    rw [(List.cons.inj h).1] at digit
    exact absurd digit (by decide)
  case h_2 => rfl

theorem number?_of_append {n : Numeral} {l : List Char} (spells : SpellsNumber n l)
    {rest : List Char} (ends : EndsNumber rest) : number? (l ++ rest) = some (n, rest) := by
  obtain ⟨e, exponent, rfl⟩ := spells.spelled
  have unsigned := unsigned?_of_append spells.whole spells.fraction exponent ends
  rw [List.append_assoc, List.append_assoc, List.append_assoc]
  cases sign : n.negative with
  | true =>
    rw [sign] at unsigned
    exact unsigned
  | false =>
    obtain ⟨c, cs, h, digit⟩ := spells.whole.exists_eq_cons
    rw [sign, h] at unsigned
    rw [h]
    exact (number?_of_digit digit _).trans unsigned

theorem SpellsNumber.exists_eq_cons {n : Numeral} {l : List Char} (spells : SpellsNumber n l) :
    ∃ c cs, l = c :: cs ∧ (c = '-' ∨ c.isDigit = true) := by
  obtain ⟨e, _, rfl⟩ := spells.spelled
  cases n.negative with
  | true => exact ⟨'-', _, rfl, .inl rfl⟩
  | false =>
    obtain ⟨c, cs, h, digit⟩ := spells.whole.exists_eq_cons
    rw [h]
    exact ⟨c, _, rfl, .inr digit⟩

theorem token?_of_number {c : Char} (start : c = '-' ∨ c.isDigit = true) (cs : List Char) :
    token? (c :: cs) = (number? (c :: cs)).map fun (n, rest) => (.number n, rest) := by
  unfold token?
  split
  case h_11 => rfl
  all_goals
    next h =>
      obtain rfl := (List.cons.inj h).1
      exact absurd start (by decide)

end Numbers

section Texts

/-- Halves of surrogate pairs lie in a range of their own. -/
def TextUnit.Written : TextUnit → Prop
  | .char _ => True
  | .half code => 0xD800 ≤ code ∧ code < 0xE000

/-- The unit that the digits of an escape name. -/
def hexText? : List Char → Option TextUnit
  | [a, b, c, d] => hexUnit? a b c d
  | _ => none

theorem text?_of_hexText? {ds rest : List Char} {u : TextUnit} (h : hexText? ds = some u) :
    text? ('\\' :: 'u' :: (ds ++ rest)) = (text? rest).map fun (t, rest) => (u :: t, rest) := by
  unfold hexText? at h
  split at h
  case h_1 a b c d =>
    change (do let unit ← hexUnit? a b c d; let (t, rest) ← text? rest; pure (unit :: t, rest)) = _
    rw [h]
    cases text? rest <;> rfl
  case h_2 => cases h

theorem hexText?_control : ∀ code < 0x20,
    hexText? (hexDigits code) = some (.char (Char.ofNat code)) := by
  decide

theorem hexValue?_digitChar : ∀ d < 16, hexValue? d.digitChar = some d := by
  decide

theorem hexDigits_eq {code : ℕ} (lower : 0x1000 ≤ code) (upper : code < 0x10000) :
    hexDigits code = [(code / 0x1000).digitChar, (code / 0x100 % 16).digitChar,
      (code / 16 % 16).digitChar, (code % 16).digitChar] := by
  have split (n : ℕ) (hn : 16 ≤ n) : Nat.toDigits 16 n =
      Nat.toDigits 16 (n / 16) ++ [(n % 16).digitChar] := Nat.toDigits_of_base_le (by decide) hn
  have digits : Nat.toDigits 16 code = [(code / 0x1000).digitChar, (code / 0x100 % 16).digitChar,
      (code / 16 % 16).digitChar, (code % 16).digitChar] := by
    have second : code / 16 / 16 = code / 0x100 := by omega
    have first : code / 0x100 / 16 = code / 0x1000 := by omega
    rw [split code (by omega), split (code / 16) (by omega), second,
      split (code / 0x100) (by omega), first, Nat.toDigits_of_lt_base (by omega)]
    rfl
  unfold hexDigits
  rw [digits]
  rfl

theorem hexText?_half {code : ℕ} (lower : 0xD800 ≤ code) (upper : code < 0xE000) :
    hexText? (hexDigits code) = some (.half code) := by
  rw [hexDigits_eq (by omega) (by omega)]
  unfold hexText? hexUnit?
  simp only [hexValue?_digitChar _ (by omega : code / 0x1000 < 16),
    hexValue?_digitChar _ (by omega : code / 0x100 % 16 < 16),
    hexValue?_digitChar _ (by omega : code / 16 % 16 < 16),
    hexValue?_digitChar _ (by omega : code % 16 < 16), Option.bind_eq_bind, Option.bind_some]
  have same : 4096 * (code / 0x1000) + 256 * (code / 0x100 % 16) + 16 * (code / 16 % 16) +
      code % 16 = code := by omega
  rw [same]
  simp [lower, upper]

theorem text?_of_escaped {c e : Char} (plain : e ≠ 'u') (h : escaped? e = some c)
    (rest : List Char) :
    text? ('\\' :: e :: rest) = (text? rest).map fun (t, rest) => (.char c :: t, rest) := by
  rw [text?.eq_def]
  split
  case h_1 same => cases same
  case h_2 same => cases same
  case h_3 same => exact absurd (List.cons.inj (List.cons.inj same).2).1 plain
  case h_4 same =>
    obtain ⟨rfl, rfl⟩ := List.cons.inj (List.cons.inj same).2
    rw [h]
    cases text? rest <;> rfl
  case h_5 unescaped same =>
    obtain ⟨rfl, rfl⟩ := List.cons.inj same
    exact (unescaped e rest rfl rfl).elim

theorem text?_of_printed {c : Char} (printed : ¬c.toNat < 0x20) (quote : c ≠ '"')
    (backslash : c ≠ '\\') (rest : List Char) :
    text? (c :: rest) = (text? rest).map fun (t, rest) => (.char c :: t, rest) := by
  rw [text?.eq_def]
  split
  case h_1 same => cases same
  case h_2 same => exact absurd (List.cons.inj same).1 quote
  case h_3 same => exact absurd (List.cons.inj same).1 backslash
  case h_4 same => exact absurd (List.cons.inj same).1 backslash
  case h_5 same =>
    obtain ⟨rfl, rfl⟩ := List.cons.inj same
    have plain : (decide (c.toNat < 32) || c == '\\') = false := by simp [printed, backslash]
    simp only [plain]
    cases text? rest <;> rfl

theorem text?_of_unit {u : TextUnit} (written : u.Written) (rest : List Char) :
    text? (u.chars ++ rest) = (text? rest).map fun (t, rest) => (u :: t, rest) := by
  unfold TextUnit.chars
  split
  case h_1 code => exact text?_of_hexText? (hexText?_half written.1 written.2)
  case h_7 c quote backslash newline carriage tab =>
    split
    case isTrue control =>
      have unit := hexText?_control c.toNat control
      rw [Char.ofNat_toNat] at unit
      exact text?_of_hexText? unit
    case isFalse printed =>
      exact text?_of_printed printed quote backslash rest
  all_goals exact text?_of_escaped (by decide) rfl rest

def Text.Written (t : Text) : Prop := ∀ u ∈ t, TextUnit.Written u

theorem text?_of_append {t : Text} (written : t.Written) (rest : List Char) :
    text? (t.flatMap TextUnit.chars ++ '"' :: rest) = some (t, rest) := by
  induction t with
  | nil =>
    rw [List.flatMap_nil, List.nil_append, text?.eq_def]
    rfl
  | cons u t ih =>
    obtain ⟨unit, units⟩ := List.forall_mem_cons.mp written
    rw [List.flatMap_cons, List.append_assoc, text?_of_unit unit, ih units]
    rfl

theorem Text.written_ofString (s : String) : (Text.ofString s).Written := by
  intro u hu
  obtain ⟨c, _, rfl⟩ := List.mem_map.mp hu
  trivial

end Texts

section Tokens

def Token.isNumber : Token → Bool
  | .number _ => true
  | _ => false

def Token.Written : Token → Prop
  | .number n => n.Written
  | .text t => t.Written
  | .broken => False
  | _ => True

theorem token?_of_append {t : Token} (written : t.Written) {rest : List Char}
    (ends : t.isNumber = true → EndsNumber rest) : token? (t.chars ++ rest) = some (t, rest) := by
  cases t with
  | number n =>
    have spells := spellsNumber_chars written
    obtain ⟨c, cs, h, start⟩ := spells.exists_eq_cons
    have read := number?_of_append spells (ends rfl)
    change token? (n.chars ++ rest) = _
    rw [h] at read ⊢
    rw [List.cons_append, token?_of_number start, ← List.cons_append, read]
    rfl
  | text t =>
    change (text? (t.flatMap TextUnit.chars ++ ['"'] ++ rest)).map _ = _
    rw [List.append_assoc, List.singleton_append, text?_of_append written]
    rfl
  | broken => cases written
  | _ => rfl

theorem isBlank_of_number {c : Char} (start : c = '-' ∨ c.isDigit = true) : isBlank c = false := by
  rw [Bool.eq_false_iff]
  intro blank
  have which : ((c = ' ' ∨ c = '\t') ∨ c = '\n') ∨ c = '\r' := by simpa [isBlank] using blank
  obtain ((rfl | rfl) | rfl) | rfl := which <;> exact absurd start (by decide)

theorem exists_token_chars_eq_cons {t : Token} (written : t.Written) :
    ∃ c cs, t.chars = c :: cs ∧ isBlank c = false ∧
      (t.isNumber = false → ∀ rest, EndsNumber (c :: rest)) := by
  have ends {c : Char} (h : c.isDigit = false ∧ c ≠ '.' ∧ c ≠ 'e' ∧ c ≠ 'E') (rest : List Char) :
      EndsNumber (c :: rest) := by
    rintro _ ⟨⟩
    exact h
  cases t with
  | number n =>
    obtain ⟨c, cs, h, start⟩ := (spellsNumber_chars written).exists_eq_cons
    exact ⟨c, cs, h, isBlank_of_number start, nofun⟩
  | broken => cases written
  | _ => exact ⟨_, _, rfl, rfl, fun _ => ends (by decide)⟩

/-- Tokens of which no number follows another one. -/
def Separated : List Token → Prop
  | [] => True
  | t :: ts => (t.isNumber = true → ∀ s ∈ ts.head?, s.isNumber = false) ∧ Separated ts

theorem endsNumber_of_head {ts : List Token} (written : ∀ t ∈ ts, t.Written)
    (first : ∀ t ∈ ts.head?, t.isNumber = false) : EndsNumber (ts.flatMap Token.chars) := by
  cases ts with
  | nil => exact nofun
  | cons t ts =>
    obtain ⟨c, cs, h, _, ends⟩ := exists_token_chars_eq_cons (written t List.mem_cons_self)
    rw [List.flatMap_cons, h]
    exact ends (first t rfl) _

theorem scanUpTo_of_written {ts : List Token} (written : ∀ t ∈ ts, t.Written)
    (separated : Separated ts) {n : ℕ} (hn : (ts.flatMap Token.chars).length ≤ n) :
    scanUpTo n (ts.flatMap Token.chars) = ts := by
  induction ts generalizing n with
  | nil => exact scanUpTo.eq_1 n
  | cons t ts ih =>
    obtain ⟨first, rest⟩ := List.forall_mem_cons.mp written
    have read : token? (t.chars ++ ts.flatMap Token.chars) = some (t, ts.flatMap Token.chars) :=
      token?_of_append first fun number => endsNumber_of_head rest (separated.1 number)
    obtain ⟨c, cs, h, visible, _⟩ := exists_token_chars_eq_cons first
    rw [List.flatMap_cons, h, List.length_append, List.length_cons] at hn
    rw [List.flatMap_cons, h, List.cons_append]
    rw [h, List.cons_append] at read
    obtain ⟨m, rfl⟩ : ∃ m, n = m + 1 := ⟨n - 1, by omega⟩
    unfold scanUpTo
    rw [visible, read]
    exact congrArg (t :: ·) (ih rest separated.2 (by omega))

end Tokens

section Trees

/-- Tokens that may stand between others: they stay apart from what comes after them. -/
def Follows (part : List Token) : Prop :=
  ∀ rest, Separated rest → (∀ t ∈ rest.head?, t.isNumber = false) → Separated (part ++ rest)

theorem Separated.cons {t : Token} (other : t.isNumber = false) {ts : List Token}
    (separated : Separated ts) : Separated (t :: ts) :=
  ⟨fun number => absurd number (by rw [other]; decide), separated⟩

theorem follows_single (t : Token) : Follows [t] :=
  fun _ separated first => ⟨fun _ => first, separated⟩

theorem Follows.cons {t : Token} (other : t.isNumber = false) {part : List Token}
    (follows : Follows part) : Follows (t :: part) :=
  fun rest separated first => (follows rest separated first).cons other

theorem follows_commaSeparated {parts : List (List Token)} (each : ∀ part ∈ parts, Follows part) :
    Follows (Value.commaSeparated parts) := by
  induction parts using Value.commaSeparated.induct with
  | case1 => exact fun rest separated _ => separated
  | case2 part => exact each part List.mem_cons_self
  | case3 part parts nonempty ih =>
    obtain ⟨first, others⟩ := List.forall_mem_cons.mp each
    intro rest separated head
    obtain ⟨next, more, rfl⟩ := List.exists_cons_of_ne_nil nonempty
    change Separated (part ++ .comma :: Value.commaSeparated (next :: more) ++ rest)
    rw [List.append_assoc]
    exact first _ ((ih others rest separated head).cons rfl) (by rintro _ ⟨⟩; rfl)

theorem follows_enclosed {opening closing : Token} (hopen : opening.isNumber = false)
    (hclose : closing.isNumber = false) {parts : List (List Token)}
    (each : ∀ part ∈ parts, Follows part) :
    Follows (opening :: (Value.commaSeparated parts ++ [closing])) := by
  refine Follows.cons hopen fun rest separated head => ?_
  rw [List.append_assoc]
  refine follows_commaSeparated each _ (separated.cons hclose) ?_
  rintro _ ⟨⟩
  exact hclose

mutual

theorem follows_tokens : (v : Value) → Follows v.tokens
  | .null => follows_single _
  | .boolean _ => follows_single _
  | .number _ => follows_single _
  | .text _ => follows_single _
  | .array items => follows_enclosed rfl rfl (follows_items items)
  | .object members => follows_enclosed rfl rfl (follows_members members)

theorem follows_items : (vs : List Value) → ∀ part ∈ Value.itemTokens vs, Follows part
  | [] => nofun
  | v :: vs => List.forall_mem_cons.mpr ⟨follows_tokens v, follows_items vs⟩

theorem follows_members :
    (ms : List (Text × Value)) → ∀ part ∈ Value.memberTokens ms, Follows part
  | [] => nofun
  | (_, v) :: ms =>
    List.forall_mem_cons.mpr ⟨((follows_tokens v).cons rfl).cons rfl, follows_members ms⟩

end

theorem itemTokens_eq_map (vs : List Value) : Value.itemTokens vs = vs.map Value.tokens := by
  induction vs with
  | nil => rfl
  | cons v vs ih => rw [Value.itemTokens, ih, List.map_cons]

theorem memberTokens_eq_map (ms : List (Text × Value)) :
    Value.memberTokens ms = ms.map fun m => .text m.1 :: .colon :: m.2.tokens := by
  induction ms with
  | nil => rfl
  | cons m ms ih => rw [Value.memberTokens, ih, List.map_cons]

/-- A tree whose numbers and texts can be written. -/
def Value.Written (v : Value) : Prop := ∀ t ∈ v.tokens, t.Written

theorem forall_mem_commaSeparated {P : Token → Prop} (comma : P .comma)
    {parts : List (List Token)} (each : ∀ part ∈ parts, ∀ t ∈ part, P t) :
    ∀ t ∈ Value.commaSeparated parts, P t := by
  induction parts using Value.commaSeparated.induct with
  | case1 => exact nofun
  | case2 part => exact each part List.mem_cons_self
  | case3 part parts nonempty ih =>
    obtain ⟨first, others⟩ := List.forall_mem_cons.mp each
    obtain ⟨next, more, rfl⟩ := List.exists_cons_of_ne_nil nonempty
    exact List.forall_mem_append.mpr ⟨first, List.forall_mem_cons.mpr ⟨comma, ih others⟩⟩

theorem Value.written_ofFloat (x : Float) : (Value.ofFloat x).Written :=
  List.forall_mem_singleton.mpr (Layout.document.written_numeral x)

theorem Value.written_ofNat (n : ℕ) : (Value.ofNat n).Written :=
  List.forall_mem_singleton.mpr (Numeral.written_ofNat n)

theorem Value.written_ofString (s : String) : (Value.ofString s).Written :=
  List.forall_mem_singleton.mpr (Text.written_ofString s)

theorem Value.written_array {items : List Value} (each : ∀ v ∈ items, v.Written) :
    (Value.array items).Written := by
  unfold Value.Written Value.tokens
  rw [itemTokens_eq_map]
  refine List.forall_mem_cons.mpr ⟨trivial, List.forall_mem_append.mpr
    ⟨forall_mem_commaSeparated trivial (List.forall_mem_map.mpr each), ?_⟩⟩
  exact List.forall_mem_singleton.mpr trivial

theorem Value.written_record {members : List (String × Value)}
    (each : ∀ m ∈ members, m.2.Written) : (Value.record members).Written := by
  unfold Value.Written Value.record Value.tokens
  rw [memberTokens_eq_map, List.map_map]
  refine List.forall_mem_cons.mpr ⟨trivial, List.forall_mem_append.mpr
    ⟨forall_mem_commaSeparated trivial (List.forall_mem_map.mpr fun m hm => ?_), ?_⟩⟩
  · exact List.forall_mem_cons.mpr ⟨Text.written_ofString m.1,
      List.forall_mem_cons.mpr ⟨trivial, each m hm⟩⟩
  · exact List.forall_mem_singleton.mpr trivial

/-- The text of a tree scans to the tokens of the tree. -/
theorem scan_render {v : Value} (written : v.Written) : scan v.render.toList = v.tokens := by
  have separated := follows_tokens v [] trivial nofun
  rw [List.append_nil] at separated
  unfold scan Value.render
  rw [String.toList_ofList]
  exact scanUpTo_of_written written separated (Nat.le_refl _)

end Trees

end RuleConsensus.Json
