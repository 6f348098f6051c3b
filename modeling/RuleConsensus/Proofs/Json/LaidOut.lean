import RuleConsensus.Proofs.Json.Trees

/-!
Documents laid out with blanks. A text lays out tokens if it spells them in order, with any blanks
before, between and behind them. A text of which no token is broken lays out the tokens that it
scans to, and whatever lays out the tokens of a tree scans to them, so that blanks and the spelling
of a token have no say in what a document means.
-/

set_option autoImplicit false
set_option relaxedAutoImplicit false

namespace RuleConsensus.Json

section Spelling

theorem of_digits? {cs ds rest : List Char} (h : digits? cs = some (ds, rest)) :
    cs = ds ++ rest ∧ ds ≠ [] ∧ ∀ c ∈ ds, c.isDigit = true := by
  unfold digits? at h
  split_ifs at h with empty
  have same : digits cs = (ds, rest) := Option.some.inj h
  have first : (digits cs).1 = ds := by rw [same]
  have whole := digits_append cs
  rw [same] at whole
  refine ⟨whole.symm, ?_, ?_⟩
  · rintro rfl
    rw [first] at empty
    exact empty rfl
  · rw [← first]
    exact fun c hc => isDigit_of_mem_digits hc

theorem of_whole? {cs w rest : List Char} (h : whole? cs = some (w, rest)) :
    cs = w ++ rest ∧ WholePart w := by
  unfold whole? at h
  split at h
  case h_1 =>
    split_ifs at h
    cases h
    exact ⟨rfl, .zero⟩
  case h_2 other =>
    rcases of_digits? h with ⟨rfl, nonempty, hd⟩
    rcases List.exists_cons_of_ne_nil nonempty with ⟨c, ds, rfl⟩
    refine ⟨rfl, .leading ?_ hd⟩
    rintro rfl
    exact other _ rfl

theorem of_fraction? {cs f rest : List Char} (h : fraction? cs = some (f, rest)) :
    cs = (if f.isEmpty then [] else '.' :: f) ++ rest ∧ ∀ c ∈ f, c.isDigit = true := by
  unfold fraction? at h
  split at h
  case h_1 =>
    rcases of_digits? h with ⟨rfl, nonempty, hd⟩
    rcases List.exists_cons_of_ne_nil nonempty with ⟨c, ds, rfl⟩
    exact ⟨rfl, hd⟩
  case h_2 =>
    cases h
    exact ⟨rfl, nofun⟩

theorem exponentSign_append (cs : List Char) :
    (exponentSign cs).1.chars ++ (exponentSign cs).2 = cs := by
  unfold exponentSign
  split <;> rfl

theorem of_exponent? {cs rest : List Char} {exponent : Option (ExponentSign × List Char)}
    (h : exponent? cs = some (exponent, rest)) :
    ∃ l, cs = l ++ rest ∧ SpellsExponent exponent l := by
  have lettered {letter : Char} (case : letter = 'e' ∨ letter = 'E') {cs : List Char}
      (read : (digits? (exponentSign cs).2 >>= fun (read : _ × _) =>
        pure (some ((exponentSign cs).1, read.1), read.2)) = some (exponent, rest)) :
      ∃ l, letter :: cs = l ++ rest ∧ SpellsExponent exponent l := by
    rcases Option.bind_eq_some_iff.mp read with ⟨⟨ds, after⟩, size, found⟩
    cases found
    rcases of_digits? size with ⟨whole, nonempty, hd⟩
    refine ⟨_, ?_, .written case nonempty hd⟩
    rw [List.cons_append, List.append_assoc, ← whole, exponentSign_append]
  unfold exponent? at h
  split at h
  case h_1 => exact lettered (.inl rfl) h
  case h_2 => exact lettered (.inr rfl) h
  case h_3 =>
    cases h
    exact ⟨[], rfl, .missing⟩

theorem of_unsigned? {negative : Bool} {cs rest : List Char} {n : Numeral}
    (h : unsigned? negative cs = some (n, rest)) :
    ∃ l, (if negative then ['-'] else []) ++ cs = l ++ rest ∧ SpellsNumber n l := by
  rcases Option.bind_eq_some_iff.mp h with ⟨⟨w, cs₁⟩, readWhole, h₁⟩
  rcases Option.bind_eq_some_iff.mp h₁ with ⟨⟨f, cs₂⟩, readFraction, h₂⟩
  rcases Option.bind_eq_some_iff.mp h₂ with ⟨⟨exponent, cs₃⟩, readExponent, found⟩
  cases found
  rcases of_whole? readWhole with ⟨rfl, whole⟩
  rcases of_fraction? readFraction with ⟨rfl, fraction⟩
  rcases of_exponent? readExponent with ⟨e, rfl, spelled⟩
  refine ⟨_, ?_, whole, fraction, e, spelled, rfl⟩
  rw [List.append_assoc, List.append_assoc, List.append_assoc]

theorem of_number? {cs rest : List Char} {n : Numeral} (h : number? cs = some (n, rest)) :
    ∃ l, cs = l ++ rest ∧ SpellsNumber n l := by
  unfold number? at h
  split at h
  case h_1 => exact of_unsigned? h
  case h_2 => exact of_unsigned? h

/-- A text is read up to its closing quote, and nothing behind the quote is looked at. -/
theorem of_text? {cs rest : List Char} {t : Text} (h : text? cs = some (t, rest)) :
    ∃ l, cs = l ++ rest ∧ ∀ rest', text? (l ++ rest') = some (t, rest') := by
  induction cs using text?.induct generalizing t with
  | case1 => cases h
  | case2 cs =>
    rw [text?] at h
    cases h
    exact ⟨['"'], rfl, fun _ => by rw [List.singleton_append, text?]⟩
  | case3 a b c d cs ih =>
    rw [text?] at h
    rcases Option.bind_eq_some_iff.mp h with ⟨u, unit, h₁⟩
    rcases Option.bind_eq_some_iff.mp h₁ with ⟨⟨t', cs'⟩, read, found⟩
    cases found
    rcases ih read with ⟨l, rfl, again⟩
    refine ⟨'\\' :: 'u' :: a :: b :: c :: d :: l, rfl, fun rest' => ?_⟩
    change text? ('\\' :: 'u' :: a :: b :: c :: d :: (l ++ rest')) = _
    rw [text?, unit, again]
    rfl
  | case4 e cs notHex ih =>
    rw [text?.eq_4 e cs notHex] at h
    rcases Option.bind_eq_some_iff.mp h with ⟨c, escape, h₁⟩
    rcases Option.bind_eq_some_iff.mp h₁ with ⟨⟨t', cs'⟩, read, found⟩
    cases found
    rcases ih read with ⟨l, rfl, again⟩
    have plain : e ≠ 'u' := by
      rintro rfl
      cases escape
    refine ⟨'\\' :: e :: l, rfl, fun rest' => ?_⟩
    rw [List.cons_append, List.cons_append, text?_of_escaped plain escape, again]
    rfl
  | case5 c cs quote hex escape control =>
    rw [text?.eq_5 c cs quote hex escape, if_pos control] at h
    cases h
  | case6 c cs quote hex escape control ih =>
    have printed : ¬c.toNat < 0x20 ∧ c ≠ '\\' := by simpa using control
    have opened := text?_of_printed printed.1 quote printed.2
    rw [opened] at h
    rcases Option.map_eq_some_iff.mp h with ⟨⟨t', cs'⟩, read, found⟩
    cases found
    rcases ih read with ⟨l, rfl, again⟩
    refine ⟨c :: l, rfl, fun rest' => ?_⟩
    rw [List.cons_append, opened, again]
    rfl

end Spelling

section Layouts

/-- The characters of one token. -/
def Token.Spells (t : Token) (l : List Char) : Prop := token? l = some (t, [])

theorem of_token? {cs rest : List Char} {t : Token} (h : token? cs = some (t, rest)) :
    ∃ l, cs = l ++ rest ∧ ∀ rest', (t.isNumber = true → EndsNumber rest') →
      token? (l ++ rest') = some (t, rest') := by
  unfold token? at h
  split at h
  case h_10 cs =>
    rcases Option.map_eq_some_iff.mp h with ⟨⟨u, cs'⟩, read, found⟩
    cases found
    rcases of_text? read with ⟨l, rfl, again⟩
    refine ⟨'"' :: l, rfl, fun rest' _ => ?_⟩
    change (text? (l ++ rest')).map _ = _
    rw [again]
    rfl
  case h_11 =>
    rcases Option.map_eq_some_iff.mp h with ⟨⟨n, cs'⟩, read, found⟩
    cases found
    rcases of_number? read with ⟨l, rfl, spells⟩
    refine ⟨l, rfl, fun rest' ends => ?_⟩
    have again := number?_of_append spells (ends rfl)
    rcases spells.exists_eq_cons with ⟨c, l, rfl, start⟩
    rw [List.cons_append] at again ⊢
    rw [token?_of_number start, again]
    rfl
  all_goals
    refine ⟨t.chars, ?_, ?_⟩ <;> cases h
    · rfl
    · exact fun _ _ => rfl

theorem token?_of_blank {c : Char} (blank : isBlank c = true) (cs : List Char) :
    token? (c :: cs) = none := by
  have which : ((c = ' ' ∨ c = '\t') ∨ c = '\n') ∨ c = '\r' := by simpa [isBlank] using blank
  rcases which with ((rfl | rfl) | rfl) | rfl <;> rfl

theorem Token.Spells.exists_eq_cons {t : Token} {l : List Char} (spells : t.Spells l) :
    ∃ c cs, l = c :: cs ∧ isBlank c = false := by
  cases l with
  | nil => cases spells
  | cons c cs =>
    refine ⟨c, cs, rfl, ?_⟩
    by_contra blank
    have unread := token?_of_blank (Bool.eq_true_of_not_eq_false blank) cs
    cases unread.symm.trans spells

theorem Token.Spells.endsNumber {t : Token} {l : List Char} (spells : t.Spells l)
    (other : t.isNumber = false) (rest : List Char) : EndsNumber (l ++ rest) := by
  rcases spells.exists_eq_cons with ⟨c, cs, rfl, _⟩
  rintro _ ⟨⟩
  refine ⟨?_, ?_, ?_, ?_⟩
  · by_contra digit
    have number := token?_of_number (.inr (Bool.eq_true_of_not_eq_false digit)) cs
    rw [show token? (c :: cs) = some (t, []) from spells] at number
    rcases Option.map_eq_some_iff.mp number.symm with ⟨⟨n, after⟩, _, same⟩
    cases same
    cases other
  all_goals
    rintro rfl
    cases spells

/-- The text of some tokens, with any blanks before, between and behind them. -/
inductive LaidOut : List Token → List Char → Prop
  | nil : LaidOut [] []
  | blank {c : Char} {ts : List Token} {text : List Char} :
    isBlank c = true → LaidOut ts text → LaidOut ts (c :: text)
  | token {t : Token} {l : List Char} {ts : List Token} {text : List Char} :
    t.Spells l → LaidOut ts text → LaidOut (t :: ts) (l ++ text)

theorem LaidOut.endsNumber {ts : List Token} {text : List Char} (laid : LaidOut ts text)
    (first : ∀ t ∈ ts.head?, t.isNumber = false) : EndsNumber text := by
  cases laid with
  | nil => exact nofun
  | @blank c _ _ blank _ =>
    have which : ((c = ' ' ∨ c = '\t') ∨ c = '\n') ∨ c = '\r' := by simpa [isBlank] using blank
    rintro _ ⟨⟩
    rcases which with ((rfl | rfl) | rfl) | rfl <;> decide
  | token spells _ => exact spells.endsNumber (first _ rfl) _

/-- Tokens of which no number follows another one are what their text scans to. -/
theorem scanUpTo_of_laidOut {ts : List Token} {text : List Char} (laid : LaidOut ts text)
    (separated : Separated ts) {n : ℕ} (hn : text.length ≤ n) : scanUpTo n text = ts := by
  induction laid generalizing n with
  | nil => exact scanUpTo.eq_1 n
  | blank visible _ ih =>
    rw [List.length_cons] at hn
    obtain ⟨m, rfl⟩ : ∃ m, n = m + 1 := ⟨n - 1, by omega⟩
    unfold scanUpTo
    rw [visible]
    exact ih separated (by omega)
  | @token t l ts text spells laid ih =>
    rcases of_token? spells with ⟨l', same, again⟩
    obtain rfl : l = l' := by rw [same, List.append_nil]
    have read := again text fun number => laid.endsNumber (separated.1 number)
    rcases spells.exists_eq_cons with ⟨c, cs, rfl, visible⟩
    rw [List.length_append, List.length_cons] at hn
    rw [List.cons_append] at read ⊢
    obtain ⟨m, rfl⟩ : ∃ m, n = m + 1 := ⟨n - 1, by omega⟩
    unfold scanUpTo
    rw [visible, read]
    exact congrArg (t :: ·) (ih separated.2 (by omega))

/-- A text that scans without a broken token lays out the tokens that it scans to. -/
theorem laidOut_of_scanUpTo {n : ℕ} {text : List Char} (whole : .broken ∉ scanUpTo n text) :
    LaidOut (scanUpTo n text) text := by
  induction n generalizing text with
  | zero =>
    cases text with
    | nil => exact .nil
    | cons c cs => exact absurd List.mem_cons_self whole
  | succ n ih =>
    cases text with
    | nil => exact .nil
    | cons c cs =>
      unfold scanUpTo at whole ⊢
      split_ifs at whole ⊢ with blank
      · exact .blank blank (ih whole)
      · cases read : token? (c :: cs) with
        | none =>
          rw [read] at whole
          exact absurd List.mem_cons_self whole
        | some p =>
          rcases p with ⟨t, rest⟩
          rw [read] at whole
          rcases of_token? read with ⟨l, same, again⟩
          have spells := again [] fun _ _ first => absurd first (Option.not_mem_none _)
          rw [List.append_nil] at spells
          rw [same]
          exact .token spells (ih fun later => whole (List.mem_cons_of_mem t later))

def Whole (part : List Token) : Prop := ∀ t ∈ part, t ≠ .broken

theorem whole_enclosed {opening closing : Token} (hopen : opening ≠ .broken)
    (hclose : closing ≠ .broken) {parts : List (List Token)} (each : ∀ part ∈ parts, Whole part) :
    Whole (opening :: (Value.commaSeparated parts ++ [closing])) :=
  List.forall_mem_cons.mpr ⟨hopen, List.forall_mem_append.mpr
    ⟨forall_mem_commaSeparated nofun each, List.forall_mem_singleton.mpr hclose⟩⟩

mutual

theorem whole_tokens : (v : Value) → Whole v.tokens
  | .null => List.forall_mem_singleton.mpr nofun
  | .boolean b => List.forall_mem_singleton.mpr (by cases b <;> exact nofun)
  | .number _ => List.forall_mem_singleton.mpr nofun
  | .text _ => List.forall_mem_singleton.mpr nofun
  | .array items => whole_enclosed (by decide) (by decide) (whole_items items)
  | .object members => whole_enclosed (by decide) (by decide) (whole_members members)

theorem whole_items : (vs : List Value) → ∀ part ∈ Value.itemTokens vs, Whole part
  | [] => nofun
  | v :: vs => List.forall_mem_cons.mpr ⟨whole_tokens v, whole_items vs⟩

theorem whole_members : (ms : List (Text × Value)) → ∀ part ∈ Value.memberTokens ms, Whole part
  | [] => nofun
  | (_, v) :: ms => List.forall_mem_cons.mpr ⟨List.forall_mem_cons.mpr
    ⟨nofun, List.forall_mem_cons.mpr ⟨nofun, whole_tokens v⟩⟩, whole_members ms⟩

end

/-- A text sets out a tree if it lays out the tokens of the tree. -/
def Value.SetOut (v : Value) (text : String) : Prop := LaidOut v.tokens text.toList

theorem setOut_iff {v : Value} {text : String} : v.SetOut text ↔ scan text.toList = v.tokens := by
  constructor
  · intro laid
    have separated := follows_tokens v [] trivial nofun
    rw [List.append_nil] at separated
    exact scanUpTo_of_laidOut laid separated (Nat.le_refl _)
  · intro scanned
    have whole : .broken ∉ scan text.toList := by
      rw [scanned]
      exact fun broken => whole_tokens v .broken broken rfl
    unfold Value.SetOut
    rw [← scanned]
    exact laidOut_of_scanUpTo whole

theorem Value.SetOut.unique {v w : Value} {text : String} (h : v.SetOut text)
    (h' : w.SetOut text) : v = w := by
  have same : v.tokens ++ [] = w.tokens ++ [] := by rw [← setOut_iff.mp h, ← setOut_iff.mp h']
  exact (tokens_append_inj same).1

variable {β : Type} {reader : Reader β}

/-- A reader gives the same for all texts that set out one tree. -/
theorem read_eq_ok_of_setOut {v : Value} {x : β} (means : Means reader v x) {text : String}
    (set : v.SetOut text) : read reader text = .ok x := by
  have taken := means.read []
  rw [List.append_nil] at taken
  unfold read
  rw [setOut_iff.mp set, taken]

theorem exists_setOut_of_read (takes : TakesTree reader) {text : String} {x : β}
    (h : read reader text = .ok x) : ∃ v, Value.SetOut v text ∧ Means reader v x := by
  unfold read at h
  split at h
  case h_1 taken =>
    cases h
    rcases takes _ _ _ taken with ⟨v, same, means⟩
    rw [List.append_nil] at same
    exact ⟨v, setOut_iff.mpr same, means⟩
  all_goals cases h

end Layouts

end RuleConsensus.Json
