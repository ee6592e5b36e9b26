/-
RangedIR.Proofs.Source.Spelling — texts that are read as given tokens.

A written text is a list of atoms: tokens, each with its own spelling, and the
white space between them. `Spells` follows the reader piece by piece; the main
result, `spells_of_spaced`, says that atoms read back as their tokens as long as
no token runs into the next. Only names, words and numbers can run on, and only
into something that starts with a character of a name.
-/
import Mathlib.Data.List.Chain
import Mathlib.Data.List.TakeWhile
import Mathlib.Tactic.Common
import RangedIR.Source.Lexer

namespace RangedIR.Source

open Text Number Numeral Token

-- powers of the core library
attribute [local instance (high)] instPowNat

/-! ## 1. Where a run of characters ends -/

/-- The text does not go on with a character of the class. -/
def Stops (p : Char → Bool) (rest : List Char) : Prop := ∀ c ∈ rest.head?, p c = false

variable {p : Char → Bool} {c : Char} {cs rest : List Char} {n : Nat} {t : Token} {ok : Float → Prop}

@[simp] theorem stops_nil : Stops p [] := by simp [Stops]

@[simp] theorem stops_cons : Stops p (c :: rest) ↔ p c = false := by simp [Stops]

theorem takeWhile_of_stops (h : ∀ c ∈ cs, p c) (hs : Stops p rest) :
    (cs ++ rest).takeWhile p = cs := by
  have hrest : rest.takeWhile p = [] := by
    cases rest with
    | nil => rfl
    | cons c rest => simp [stops_cons.1 hs]
  rw [List.takeWhile_append_of_pos h, hrest, List.append_nil]

/-- A digit is one of ten characters. -/
theorem isDigit_cases (h : c.isDigit) : c ∈ ['0', '1', '2', '3', '4', '5', '6', '7', '8', '9'] := by
  obtain ⟨h₀, h₉⟩ : 48 ≤ c.toNat ∧ c.toNat ≤ 57 := by
    simpa [Char.isDigit, UInt32.le_iff_toNat_le] using h
  have hc : c = Char.ofNat c.toNat := (Char.ofNat_toNat c).symm
  rw [hc]
  generalize c.toNat = n at h₀ h₉
  obtain rfl | rfl | rfl | rfl | rfl | rfl | rfl | rfl | rfl | rfl :
    n = 48 ∨ n = 49 ∨ n = 50 ∨ n = 51 ∨ n = 52 ∨ n = 53 ∨ n = 54 ∨ n = 55 ∨ n = 56 ∨ n = 57 := by
    omega
  all_goals decide

theorem isNameChar_of_isDigit (h : c.isDigit) : isNameChar c = true := by
  simp [isNameChar, Char.isAlphanum, h]

theorem Stops.isDigit (h : Stops isNameChar rest) : Stops Char.isDigit rest := by
  intro c hc
  by_contra hd
  have := isNameChar_of_isDigit (by simpa using hd)
  simp [h c hc] at this

/-! ## 2. Numerals -/

namespace Numeral

/-- The parts of a numeral are what reading takes them for. -/
structure WellFormed (n : Numeral) : Prop where
  whole : n.whole ≠ [] ∧ ∀ c ∈ n.whole, c.isDigit
  fraction : n.fraction = [] ∨
    ∃ ds, n.fraction = '.' :: ds ∧ ds ≠ [] ∧ ∀ c ∈ ds, c.isDigit
  exponent : n.exponent = [] ∨
    ∃ mark sign ds, n.exponent = mark :: (sign ++ ds) ∧ (mark = 'e' ∨ mark = 'E') ∧
      sign ∈ [[], ['+'], ['-']] ∧ ds ≠ [] ∧ ∀ c ∈ ds, c.isDigit

variable {n : Numeral}

/-- The exponent and what follows it do not go on with a digit or a point. -/
theorem WellFormed.stops_exponent (h : n.WellFormed) (hs : Stops isNameChar rest) :
    Stops Char.isDigit (n.exponent ++ rest) ∧ Stops (· == '.') (n.exponent ++ rest) := by
  obtain he | ⟨mark, sign, ds, he, hmark, -⟩ := h.exponent
  · rw [he, List.nil_append]
    refine ⟨hs.isDigit, fun c hc => ?_⟩
    have hn := hs c hc
    by_contra hd
    obtain rfl : c = '.' := by simpa using hd
    exact absurd hn (by decide)
  · rw [he]
    rcases hmark with rfl | rfl <;> exact ⟨by simp, by simp⟩

theorem WellFormed.readFraction_eq (h : n.WellFormed) (hs : Stops isNameChar rest) :
    readFraction (n.fraction ++ (n.exponent ++ rest)) = n.fraction := by
  obtain ⟨hd, hp⟩ := h.stops_exponent hs
  obtain hf | ⟨ds, hf, hne, hds⟩ := h.fraction
  · rw [hf, List.nil_append, readFraction.eq_def]
    split
    case h_1 rest' heq => simp [heq] at hp
    case h_2 => rfl
  · rw [hf, List.cons_append, readFraction]
    simp [takeWhile_of_stops hds hd, hne]

theorem readExponentDigits_unsigned (hplus : cs.head? ≠ some '+') (hminus : cs.head? ≠ some '-') :
    readExponentDigits cs = cs.takeWhile Char.isDigit := by
  unfold readExponentDigits
  split <;> simp_all

theorem readExponentDigits_eq {sign ds : List Char} (hsign : sign ∈ [[], ['+'], ['-']])
    (hne : ds ≠ []) (hds : ∀ c ∈ ds, c.isDigit) (hs : Stops Char.isDigit rest) :
    readExponentDigits (sign ++ ds ++ rest) = sign ++ ds := by
  have htake := takeWhile_of_stops hds hs
  simp only [List.mem_cons, List.not_mem_nil, or_false] at hsign
  obtain rfl | rfl | rfl := hsign
  · obtain ⟨d, ds', rfl⟩ := List.exists_cons_of_ne_nil hne
    have hd := hds d (by simp)
    rw [List.nil_append, readExponentDigits_unsigned, htake]
    · rintro h
      obtain rfl : d = '+' := by simpa using h
      exact absurd hd (by decide)
    · rintro h
      obtain rfl : d = '-' := by simpa using h
      exact absurd hd (by decide)
  · simp [readExponentDigits, htake, hne]
  · simp [readExponentDigits, htake, hne]

theorem WellFormed.readExponent_eq (h : n.WellFormed) (hs : Stops isNameChar rest) :
    readExponent (n.exponent ++ rest) = n.exponent := by
  obtain he | ⟨mark, sign, ds, he, hmark, hsign, hne, hds⟩ := h.exponent
  · rw [he, List.nil_append]
    cases rest with
    | nil => rfl
    | cons c rest =>
      have hc : isNameChar c = false := stops_cons.1 hs
      have h₁ : ¬ (c = 'e' ∨ c = 'E') := by
        rintro (rfl | rfl) <;> exact absurd hc (by decide)
      simp [readExponent, h₁]
  · have hdigits := readExponentDigits_eq hsign hne hds hs.isDigit
    have hmark : (mark == 'e' || mark == 'E') = true := by simpa using hmark
    rw [he]
    simp only [List.cons_append, readExponent, hdigits, hmark, if_true]
    simp [hne]

/-- A numeral is read whole where nothing carries it on. -/
theorem WellFormed.read?_eq (h : n.WellFormed) (hs : Stops isNameChar rest) :
    read? (n.chars ++ rest) = some n := by
  obtain ⟨hne, hdigits⟩ := h.whole
  obtain ⟨d, ds, hw⟩ := List.exists_cons_of_ne_nil hne
  have hd : d ≠ '-' := by
    rintro rfl
    exact absurd (hdigits '-' (by simp [hw])) (by decide)
  have hbody : (n.whole ++ (n.fraction ++ (n.exponent ++ rest))).takeWhile Char.isDigit = n.whole := by
    refine takeWhile_of_stops hdigits ?_
    obtain hf | ⟨fs, hf, -⟩ := h.fraction
    · simpa [hf] using (h.stops_exponent hs).1
    · simp only [hf, List.cons_append, stops_cons]; decide
  have hsplit : n.chars ++ rest =
      (if n.negative then ['-'] else []) ++ (n.whole ++ (n.fraction ++ (n.exponent ++ rest))) := by
    simp [chars]
  have hfraction := h.readFraction_eq hs
  have hexponent := h.readExponent_eq hs
  rw [hsplit, read?.eq_def]
  cases hn : n.negative with
  | false =>
    have hhead : ((n.whole ++ (n.fraction ++ (n.exponent ++ rest))).head? == some '-') = false := by
      simp [hw, hd]
    simp only [Bool.false_eq_true, if_false, List.nil_append, hhead, hbody, List.drop_left,
      hfraction, hexponent, List.isEmpty_iff, hne]
    rw [← hn]
  | true =>
    simp only [if_true, List.cons_append, List.nil_append, List.head?_cons, beq_self_eq_true,
      List.drop_one, List.tail_cons, hbody, List.drop_left, hfraction, hexponent,
      List.isEmpty_iff, hne, if_false]
    rw [← hn]

end Numeral

/-! ## 3. Numbers as written -/

/-- The numeral that writes an integer. -/
def Numeral.ofInt (v : Int) : Numeral := ⟨v < 0, Nat.toDigits 10 v.natAbs, [], []⟩

theorem isDigit_toDigits (h : c ∈ Nat.toDigits 10 n) : c.isDigit :=
  Nat.isDigit_of_mem_toDigits (by decide) (by decide) h

theorem natOfDigits_toDigits (n : Nat) : natOfDigits (Nat.toDigits 10 n) = n :=
  Nat.ofDigitChars_ten_toDigits

theorem toList_intRepr (v : Int) : (Int.repr v).toList = (Numeral.ofInt v).chars := by
  cases v with
  | ofNat n => simp [Int.repr, Numeral.ofInt, Numeral.chars]
  | negSucc n => simp [Int.repr, Numeral.ofInt, Numeral.chars, Int.negSucc_lt_zero]

theorem wellFormed_ofInt (v : Int) : (Numeral.ofInt v).WellFormed where
  whole := ⟨Nat.toDigits_ne_nil, fun _ h => isDigit_toDigits h⟩
  fraction := .inl rfl
  exponent := .inl rfl

theorem token?_ofInt {v : Int} (h : -9223372036854775808 ≤ v ∧ v ≤ 9223372036854775807) :
    (Numeral.ofInt v).token? = some (.int v) := by
  have hv : (Numeral.ofInt v).toInt = v := by
    simp only [Numeral.toInt, Numeral.ofInt, natOfDigits_toDigits, decide_eq_true_eq]
    split <;> omega
  have hrange : (-2 ^ (63 : Nat) ≤ v && v < 2 ^ (63 : Nat)) = true := by
    simp only [Bool.and_eq_true, decide_eq_true_eq]
    omega
  simp only [token?, hv, hrange, if_true]
  rfl

/-- A positional decimal with a point in it is a numeral with a fraction. -/
theorem numeral_positionalText {digits : List Char} (point : Int) (hne : digits ≠ [])
    (hd : ∀ c ∈ digits, c.isDigit) :
    ∃ n : Numeral, n.WellFormed ∧ n.negative = false ∧ n.fraction ≠ [] ∧
      n.chars = positionalText true digits point := by
  have hzeros (k : Nat) : ∀ c ∈ List.replicate k '0', c.isDigit := by
    intro c hc
    rw [List.eq_of_mem_replicate hc]
    decide
  simp only [positionalText, if_true]
  split_ifs with hpoint hlong
  · refine ⟨⟨false, ['0'], '.' :: (List.replicate (-point).toNat '0' ++ digits), []⟩,
      ⟨by simp, .inr ⟨_, rfl, by simp [hne], ?_⟩, .inl rfl⟩, rfl, by simp,
      by simp [chars]⟩
    intro c hc
    obtain hc | hc := List.mem_append.1 hc
    · exact hzeros _ c hc
    · exact hd c hc
  · refine ⟨⟨false, digits ++ List.replicate (point.toNat - digits.length) '0', ['.', '0'], []⟩,
      ⟨⟨by simp [hne], ?_⟩, .inr ⟨['0'], rfl, by simp⟩, .inl rfl⟩, rfl, by simp,
      by simp [chars]⟩
    intro c hc
    obtain hc | hc := List.mem_append.1 hc
    · exact hd c hc
    · exact hzeros _ c hc
  · refine ⟨⟨false, digits.take point.toNat, '.' :: digits.drop point.toNat, []⟩,
      ⟨⟨?_, fun c hc => hd c (List.mem_of_mem_take hc)⟩,
        .inr ⟨_, rfl, ?_, fun c hc => hd c (List.mem_of_mem_drop hc)⟩, .inl rfl⟩, rfl, by simp,
      by simp [chars]⟩
    · have : 0 < digits.length := List.length_pos_iff.2 hne
      intro h
      have := congrArg List.length h
      simp only [List.length_take, List.length_nil] at this
      omega
    · intro h
      have := congrArg List.length h
      simp only [List.length_drop, List.length_nil] at this
      omega

/-- A decimal with an exponent is a numeral with an exponent. -/
theorem numeral_exponentText {digits : List Char} (exponent : Int) (hne : digits ≠ [])
    (hd : ∀ c ∈ digits, c.isDigit) :
    ∃ n : Numeral, n.WellFormed ∧ n.negative = false ∧ n.exponent ≠ [] ∧
      n.chars = exponentText false digits exponent := by
  refine ⟨⟨false, digits.take 1, if digits.length ≤ 1 then [] else '.' :: digits.drop 1,
    'e' :: ((if 0 ≤ exponent then [] else ['-']) ++ Nat.toDigits 10 exponent.natAbs)⟩,
    ⟨⟨by simpa using hne, fun c hc => hd c (List.mem_of_mem_take hc)⟩, ?_,
      .inr ⟨_, _, _, rfl, .inl rfl, ?_, Nat.toDigits_ne_nil, fun _ h => isDigit_toDigits h⟩⟩, rfl, by simp, ?_⟩
  · by_cases hshort : digits.length ≤ 1
    · exact .inl (if_pos hshort)
    · refine .inr ⟨_, if_neg hshort, fun h => ?_, fun c hc => hd c (List.mem_of_mem_drop hc)⟩
      have := congrArg List.length h
      simp only [List.length_drop, List.length_nil] at this
      omega
  · split_ifs <;> simp
  · simp [chars, exponentText]

/-- The literal text of a decimal is a numeral that no integer looks like. -/
theorem numeral_literal (d : Decimal) :
    ∃ n : Numeral, n.WellFormed ∧ n.negative = false ∧ (n.fraction ≠ [] ∨ n.exponent ≠ []) ∧
      n.chars = NumberStyle.literal.decimalText d := by
  have hne : Nat.toDigits 10 d.digits ≠ [] := Nat.toDigits_ne_nil
  have hd : ∀ c ∈ Nat.toDigits 10 d.digits, c.isDigit := fun _ h => isDigit_toDigits h
  rw [NumberStyle.decimalText.eq_def]
  by_cases hzero : d.digits = 0
  · rw [if_pos hzero]
    exact ⟨⟨false, ['0'], ['.', '0'], []⟩, ⟨by simp, .inr ⟨['0'], rfl, by simp⟩, .inl rfl⟩, rfl,
      by simp, rfl⟩
  rw [if_neg hzero]
  dsimp only
  split
  · obtain ⟨n, hn, hsign, hf, hchars⟩ := numeral_positionalText _ hne hd
    exact ⟨n, hn, hsign, .inl hf, hchars⟩
  · obtain ⟨n, hn, hsign, he, hchars⟩ := numeral_exponentText _ hne hd
    exact ⟨n, hn, hsign, .inr he, hchars⟩

/-- Writing a number as a literal and reading the digits gives the number back. -/
def ReadsBack (x : Float) : Prop :=
  (read? (literalText x).toList).map toFloat = some x

instance (x : Float) : Decidable (ReadsBack x) := inferInstanceAs (Decidable (_ = _))

/-- A number that reads back is written as a numeral of its own. -/
theorem ReadsBack.numeral {x : Float} (h : ReadsBack x) :
    ∃ n : Numeral, n.WellFormed ∧ n.chars = (literalText x).toList ∧ n.token? = some (.float x) := by
  have hread : (read? (literalText x).toList).map toFloat = some x := h
  rw [literalText, NumberStyle.text.eq_def] at hread ⊢
  cases hx : datum x with
  | nan =>
    rw [hx] at hread
    exact absurd hread (by simp [read?])
  | infinite negative =>
    rw [hx] at hread
    cases negative <;> exact absurd hread (by simp [read?])
  | finite negative m e =>
    rw [hx] at hread
    obtain ⟨n, hn, hsign, hpart, hchars⟩ := numeral_literal (shortest NumberStyle.literal.tie m e)
    let signed : Numeral := { n with negative := negative }
    have hsigned : signed.WellFormed := ⟨hn.whole, hn.fraction, hn.exponent⟩
    have htext : signed.chars =
        (if negative then ['-'] else []) ++
          NumberStyle.literal.decimalText (shortest NumberStyle.literal.tie m e) := by
      simp [signed, chars, ← hchars, hsign]
    refine ⟨signed, hsigned, by simpa using htext, ?_⟩
    have hvalue : signed.toFloat = x := by
      have := hsigned.read?_eq stops_nil
      rw [List.append_nil, htext] at this
      simpa [this] using hread
    have hplain : (signed.fraction.isEmpty && signed.exponent.isEmpty) = false := by
      simp only [signed, Bool.and_eq_false_iff, List.isEmpty_eq_false_iff]
      exact hpart
    simp [token?, hplain, hvalue]

/-! ## 4. Tokens as written -/

/-- A name without its sigil. -/
def IsName (s : String) : Prop := s.toList ≠ [] ∧ ∀ c ∈ s.toList, isNameChar c

/-- A plain word. -/
def IsWord (s : String) : Prop :=
  ∃ c cs, s.toList = c :: cs ∧ isWordStart c ∧ ∀ d ∈ cs, isNameChar d

/-- A text that can stand between quotes. -/
def IsLine (s : String) : Prop := ∀ c ∈ s.toList, c ≠ '"' ∧ c ≠ '\n'

/-- An integer of 64 bits. -/
def IsLong (v : Int) : Prop := -9223372036854775808 ≤ v ∧ v ≤ 9223372036854775807

namespace Token

/-- The text that writes a token; a number keeps its point or its exponent. -/
def spelling : Token → List Char
  | float v => (literalText v).toList
  | t => t.text.toList

/-- What the lexer can put into a token, given what it can take for a number. -/
def Valid (ok : Float → Prop) : Token → Prop
  | loc n | glob n => IsName n
  | word w => IsWord w
  | int v => IsLong v
  | float x => ok x
  | str s => IsLine s
  | _ => True

section

variable {s : String}

@[simp] theorem valid_loc : (loc s).Valid ok ↔ IsName s := Iff.rfl

@[simp] theorem valid_glob : (glob s).Valid ok ↔ IsName s := Iff.rfl

@[simp] theorem valid_word : (word s).Valid ok ↔ IsWord s := Iff.rfl

@[simp] theorem valid_str : (str s).Valid ok ↔ IsLine s := Iff.rfl

@[simp] theorem valid_int {v : Int} : (int v).Valid ok ↔ IsLong v := Iff.rfl

@[simp] theorem valid_equals : equals.Valid ok := trivial

@[simp] theorem valid_comma : comma.Valid ok := trivial

@[simp] theorem valid_colon : colon.Valid ok := trivial

@[simp] theorem valid_star : star.Valid ok := trivial

@[simp] theorem valid_lparen : lparen.Valid ok := trivial

@[simp] theorem valid_rparen : rparen.Valid ok := trivial

@[simp] theorem valid_lbrace : lbrace.Valid ok := trivial

@[simp] theorem valid_rbrace : rbrace.Valid ok := trivial

@[simp] theorem valid_lbracket : lbracket.Valid ok := trivial

@[simp] theorem valid_rbracket : rbracket.Valid ok := trivial

@[simp] theorem valid_metaDbg : metaDbg.Valid ok := trivial

@[simp] theorem valid_metaRange : metaRange.Valid ok := trivial

end

/-- Whether a character of a name behind the token would be taken into it. -/
def runsOn : Token → Bool
  | loc _ | glob _ | word _ | int _ | float _ => true
  | _ => false

/-- Whether the token starts with a character of a name. -/
def joins : Token → Bool
  | word _ | int _ | float _ => true
  | _ => false

end Token

theorem scanName_of_stops {make : String → Token} {name : List Char} (hne : name ≠ [])
    (hname : ∀ c ∈ name, isNameChar c) (hs : Stops isNameChar rest) :
    scanName make (name ++ rest) = ⟨.token (make (String.ofList name)), name.length + 1⟩ := by
  simp [scanName, takeWhile_of_stops hname hs, hne]

theorem scanString_of_closed {body : List Char} (h : ∀ c ∈ body, c ≠ '"' ∧ c ≠ '\n') :
    scanString (body ++ '"' :: rest) = ⟨.token (.str (String.ofList body)), body.length + 2⟩ := by
  have htake : (body ++ '"' :: rest).takeWhile (fun c => c != '"' && c != '\n') = body :=
    takeWhile_of_stops (by simpa using h) (by simp)
  simp [scanString, htake]

theorem scan_word (h : isWordStart c) :
    scan c rest = ⟨.token (.word (String.ofList (c :: rest.takeWhile isNameChar))),
      (rest.takeWhile isNameChar).length + 1⟩ := by
  have hne (d : Char) (hd : isWordStart d = false) : c ≠ d := by
    rintro rfl
    simp [h] at hd
  simp [scan, isSpace, h, hne ' ' (by decide), hne '\t' (by decide), hne '\r' (by decide),
    hne '\n' (by decide), hne ';' (by decide), hne '%' (by decide), hne '@' (by decide),
    hne '"' (by decide), hne '!' (by decide)]

theorem scan_numeral {n : Numeral} (hc : c = '-' ∨ c.isDigit)
    (hn : read? (c :: rest) = some n) (ht : n.token? = some t) :
    scan c rest = ⟨.token t, n.chars.length⟩ := by
  have hc' : c ∈ ['-', '0', '1', '2', '3', '4', '5', '6', '7', '8', '9'] := by
    obtain rfl | hd := hc
    · decide
    · exact List.mem_cons_of_mem _ (isDigit_cases hd)
  have hblank : isSpace c = false ∧ isWordStart c = false ∧ symbol? c = none := by
    simp only [List.mem_cons, List.not_mem_nil, or_false] at hc'
    rcases hc' with rfl | rfl | rfl | rfl | rfl | rfl | rfl | rfl | rfl | rfl | rfl <;> decide
  have hne (d : Char) (hd : d ∉ ['-', '0', '1', '2', '3', '4', '5', '6', '7', '8', '9']) : c ≠ d := by
    rintro rfl
    exact hd hc'
  simp [scan, hblank.1, hblank.2.1, hblank.2.2, hne ';' (by decide), hne '%' (by decide),
    hne '@' (by decide), hne '"' (by decide), hne '!' (by decide), hn, ht]

theorem scan_symbol (h : symbol? c = some t) : scan c rest = ⟨.token t, 1⟩ := by
  unfold symbol? at h
  split at h <;> simp_all [scan, isSpace, isWordStart, symbol?]

/-- A numeral starts with its sign or a digit. -/
theorem Numeral.WellFormed.chars_eq_cons {n : Numeral} (h : n.WellFormed) :
    ∃ c body, n.chars = c :: body ∧ (c = '-' ∨ c.isDigit) := by
  obtain ⟨hne, hd⟩ := h.whole
  obtain ⟨d, ds, hw⟩ := List.exists_cons_of_ne_nil hne
  cases hn : n.negative with
  | true => exact ⟨'-', _, by simp [chars, hn]; rfl, .inl rfl⟩
  | false => exact ⟨d, _, by simp [chars, hn, hw]; rfl, .inr (hd d (by simp [hw]))⟩

theorem scan_of_numeral {n : Numeral} (h : n.WellFormed) (ht : n.token? = some t)
    (hs : Stops isNameChar rest) :
    ∃ c body, n.chars = c :: body ∧ scan c (body ++ rest) = ⟨.token t, body.length + 1⟩ := by
  obtain ⟨c, body, hchars, hc⟩ := h.chars_eq_cons
  have hread : read? (c :: (body ++ rest)) = some n := by
    simpa [hchars] using h.read?_eq hs
  refine ⟨c, body, hchars, ?_⟩
  rw [scan_numeral hc hread ht, hchars, List.length_cons]

/-- A written token is read back where nothing carries it on. -/
theorem scan_spelling (ht : t.Valid ReadsBack) (hs : t.runsOn → Stops isNameChar rest) :
    ∃ c body, t.spelling = c :: body ∧ scan c (body ++ rest) = ⟨.token t, body.length + 1⟩ := by
  cases t with
  | loc n =>
    have hscan : scanName .loc (n.toList ++ rest) = _ := scanName_of_stops ht.1 ht.2 (hs rfl)
    exact ⟨'%', n.toList, by simp [spelling, text], by simpa [scan, isSpace] using hscan⟩
  | glob n =>
    have hscan : scanName .glob (n.toList ++ rest) = _ := scanName_of_stops ht.1 ht.2 (hs rfl)
    exact ⟨'@', n.toList, by simp [spelling, text], by simpa [scan, isSpace] using hscan⟩
  | word w =>
    obtain ⟨c, cs, hw, hc, hcs⟩ := ht
    refine ⟨c, cs, by simp [spelling, text, hw], ?_⟩
    rw [scan_word hc, takeWhile_of_stops hcs (hs rfl), ← hw, String.ofList_toList]
  | int v =>
    obtain ⟨c, body, hchars, hscan⟩ := scan_of_numeral (wellFormed_ofInt v) (token?_ofInt ht) (hs rfl)
    exact ⟨c, body, by simp [spelling, text, toList_intRepr, hchars], hscan⟩
  | float x =>
    obtain ⟨n, hn, hchars, htoken⟩ := ReadsBack.numeral ht
    obtain ⟨c, body, hbody, hscan⟩ := scan_of_numeral hn htoken (hs rfl)
    exact ⟨c, body, by rw [spelling, ← hchars, hbody], hscan⟩
  | str s =>
    refine ⟨'"', s.toList ++ ['"'], by simp [spelling, text], ?_⟩
    have hscan : scanString (s.toList ++ '"' :: rest) = _ := scanString_of_closed ht
    simpa [scan, isSpace] using hscan
  | metaDbg => exact ⟨'!', ['d', 'b', 'g'], rfl, by simp [scan, isSpace]⟩
  | metaRange => exact ⟨'!', ['r', 'a', 'n', 'g', 'e'], rfl, by simp [scan, isSpace]⟩
  | equals => exact ⟨'=', [], rfl, scan_symbol rfl⟩
  | comma => exact ⟨',', [], rfl, scan_symbol rfl⟩
  | colon => exact ⟨':', [], rfl, scan_symbol rfl⟩
  | star => exact ⟨'*', [], rfl, scan_symbol rfl⟩
  | lparen => exact ⟨'(', [], rfl, scan_symbol rfl⟩
  | rparen => exact ⟨')', [], rfl, scan_symbol rfl⟩
  | lbrace => exact ⟨'\x7b', [], rfl, scan_symbol rfl⟩
  | rbrace => exact ⟨'\x7d', [], rfl, scan_symbol rfl⟩
  | lbracket => exact ⟨'[', [], rfl, scan_symbol rfl⟩
  | rbracket => exact ⟨']', [], rfl, scan_symbol rfl⟩

/-! ## 5. Whole texts -/

/-- The text is read piece by piece as the tokens, with nothing that is no token. -/
inductive Spells : List Char → List Token → Prop
  | nil : Spells [] []
  | blank {c : Char} {rest : List Char} {n : Nat} {ts : List Token}
      (scanned : scan c rest = ⟨.blank, n + 1⟩) (later : Spells (rest.drop n) ts) :
      Spells (c :: rest) ts
  | token {c : Char} {rest : List Char} {n : Nat} {t : Token} {ts : List Token}
      (scanned : scan c rest = ⟨.token t, n + 1⟩) (later : Spells (rest.drop n) ts) :
      Spells (c :: rest) (t :: ts)

variable {ts : List Token}

theorem Spells.lexFrom_eq (h : Spells cs ts) (fuel start : Nat) (hfuel : cs.length ≤ fuel) :
    (lexFrom fuel start cs).strays = [] ∧ (lexFrom fuel start cs).lexemes.map (·.token) = ts := by
  induction h generalizing fuel start with
  | nil => cases fuel <;> exact ⟨rfl, rfl⟩
  | blank scanned _ ih | token scanned _ ih =>
    obtain _ | fuel := fuel
    · simp at hfuel
    · simp only [List.length_cons] at hfuel
      simpa [lexFrom, scanned] using ih fuel _ (by simp; omega)

theorem Spells.lex_eq {source : String} (h : Spells source.toList ts) :
    (lex source).strays = [] ∧ (lex source).lexemes.map (·.token) = ts :=
  h.lexFrom_eq _ _ (Nat.le_refl _)

theorem drop_takeWhile_length (p : Char → Bool) (l : List Char) :
    l.drop (l.takeWhile p).length = l.dropWhile p := by
  induction l with
  | nil => rfl
  | cons c l ih => cases h : p c <;> simp [h, ih]

theorem Spells.dropSpace (h : Spells cs ts) : Spells (cs.dropWhile isSpace) ts := by
  cases hcs : cs with
  | nil => simpa [hcs] using h
  | cons c rest =>
    subst hcs
    by_cases hc : isSpace c = true
    · -- the piece in front takes all the white space
      have hscan : scan c rest = ⟨.blank, 1 + (rest.takeWhile isSpace).length⟩ := by simp [scan, hc]
      cases h with
      | @blank _ _ n _ scanned later =>
        rw [hscan, Scan.mk.injEq] at scanned
        obtain rfl : n = (rest.takeWhile isSpace).length := by omega
        simpa [hc, drop_takeWhile_length] using later
      | token scanned _ => simp [hscan] at scanned
    · simpa [hc] using h

theorem Spells.space (h : Spells cs ts) (hc : isSpace c) : Spells (c :: cs) ts := by
  refine .blank (n := (cs.takeWhile isSpace).length) (by simp [scan, hc, Nat.add_comm]) ?_
  rw [drop_takeWhile_length]
  exact h.dropSpace

theorem Spells.spaces {blank : List Char} (h : Spells cs ts) (hblank : ∀ c ∈ blank, isSpace c) :
    Spells (blank ++ cs) ts := by
  induction blank with
  | nil => exact h
  | cons c blank ih =>
    simp only [List.mem_cons, forall_eq_or_imp] at hblank
    exact (ih hblank.2).space hblank.1

/-- A comment line in front of a text changes nothing. -/
theorem Spells.comment {line : List Char} (h : Spells cs ts) (hline : '\n' ∉ line) :
    Spells (';' :: (line ++ '\n' :: cs)) ts := by
  have htake : (line ++ '\n' :: cs).takeWhile (· != '\n') = line := by
    refine takeWhile_of_stops (fun c hc => ?_) (by simp)
    have : c ≠ '\n' := by
      rintro rfl
      exact hline hc
    simpa using this
  refine .blank (n := line.length) (by simp [scan, isSpace, htake, Nat.add_comm]) ?_
  rw [List.drop_left]
  exact h.space rfl

/-! ## 6. Atoms -/

/-- A piece of written text: white space, or a token. -/
inductive Atom where
  | gap (blank : List Char)
  | tok (t : Token)

namespace Atom

def chars : Atom → List Char
  | gap blank => blank
  | tok t => t.spelling

def token? : Atom → Option Token
  | gap _ => none
  | tok t => some t

/-- Whether a character of a name behind the atom would be taken into it. -/
def runsOn : Atom → Bool
  | gap _ => false
  | tok t => t.runsOn

/-- Whether the atom starts with a character of a name. -/
def joins : Atom → Bool
  | gap _ => false
  | tok t => t.joins

/-- One atom may follow another directly. -/
def Apart (a b : Atom) : Prop := a.runsOn = true → b.joins = false

/-- White space that is some, or a token that reads back. -/
def Good : Atom → Prop
  | gap blank => blank ≠ [] ∧ ∀ c ∈ blank, isSpace c
  | tok t => t.Valid ReadsBack

@[simp] theorem token?_gap (blank : List Char) : (gap blank).token? = none := rfl

@[simp] theorem token?_tok (t : Token) : (tok t).token? = some t := rfl

@[simp] theorem runsOn_gap (blank : List Char) : (gap blank).runsOn = false := rfl

@[simp] theorem runsOn_tok (t : Token) : (tok t).runsOn = t.runsOn := rfl

@[simp] theorem joins_gap (blank : List Char) : (gap blank).joins = false := rfl

@[simp] theorem joins_tok (t : Token) : (tok t).joins = t.joins := rfl

@[simp] theorem apart_gap (a : Atom) (blank : List Char) : a.Apart (gap blank) := fun _ => rfl

@[simp] theorem gap_apart (blank : List Char) (b : Atom) : (gap blank).Apart b := by
  simp [Apart]

theorem stops_chars {a : Atom} (ha : a.Good) (hjoins : a.joins = false) :
    Stops isNameChar (a.chars ++ rest) := by
  cases a with
  | gap blank =>
    obtain ⟨c, blank, rfl⟩ := List.exists_cons_of_ne_nil ha.1
    have hc : isSpace c = true := ha.2 c (by simp)
    simp only [isSpace, Bool.or_eq_true, beq_iff_eq] at hc
    rcases hc with ((rfl | rfl) | rfl) | rfl <;> exact stops_cons.2 (by decide)
  | tok t =>
    cases t with
    | word w => simp [Token.joins] at hjoins
    | int v => simp [Token.joins] at hjoins
    | float x => simp [Token.joins] at hjoins
    | loc n => simp [chars, Token.spelling, Token.text]; decide
    | glob n => simp [chars, spelling, text]; decide
    | str s => simp [chars, spelling, text]; decide
    | _ => exact stops_cons.2 (by decide)

end Atom

/-- Atoms of which none runs into the next are read as their tokens. -/
theorem spells_of_spaced {atoms : List Atom} (hgood : ∀ a ∈ atoms, a.Good)
    (hapart : atoms.IsChain Atom.Apart) :
    Spells (atoms.flatMap Atom.chars) (atoms.filterMap Atom.token?) := by
  induction atoms with
  | nil => exact .nil
  | cons a rest ih =>
    simp only [List.mem_cons, forall_eq_or_imp] at hgood
    have hrest := ih hgood.2 (List.isChain_cons.1 hapart).2
    cases a with
    | gap blank =>
      rw [List.filterMap_cons_none rfl]
      exact hrest.spaces hgood.1.2
    | tok t =>
      have hs : t.runsOn → Stops isNameChar (rest.flatMap Atom.chars) := by
        intro hruns
        cases rest with
        | nil => simp
        | cons b rest =>
          have hjoins : b.joins = false := (List.isChain_cons_cons.1 hapart).1 hruns
          simpa using Atom.stops_chars (hgood.2 b (by simp)) hjoins
      obtain ⟨c, body, hspelling, hscan⟩ := scan_spelling hgood.1 hs
      rw [List.filterMap_cons_some (Atom.token?_tok t), List.flatMap_cons, Atom.chars, hspelling]
      exact .token hscan (by simpa using hrest)

end RangedIR.Source
