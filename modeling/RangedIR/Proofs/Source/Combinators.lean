/-
RangedIR.Proofs.Source.Combinators — what parsers built by combinators read.

`Reads p c us P` says that the parser `p`, started at the cursor `c`, succeeds,
leaves the tokens `us`, and answers a value with the property `P`. A parser sees of
a cursor the tokens only, so `Takes p ts us P` says this of all cursors at which the
tokens `ts` stand. One lemma per combinator carries it through sequence, choice and
repetition. An ordered choice commits to the first alternative that succeeds, so the
alternatives in front of the right one have to fail; where all of them start with a
word, the word alone tells them apart (`takes_form`).
-/
import RangedIR.Proofs.Source.Writing

namespace RangedIR.Source

open RangedIR.Source.Parser

/-! ## 1. Outcomes -/

/-- The tokens still to be read. -/
def Cursor.tokens (c : Cursor) : List Token := c.rest.map (·.token)

/-- The parser succeeds, with what it answers and leaves. -/
def Reads {α : Type} (p : Parser α) (c : Cursor) (us : List Token) (P : α → Prop) : Prop :=
  ∃ a c', (p c).outcome = some (a, c') ∧ c'.tokens = us ∧ P a

/-- The parser fails. -/
def Fails {α : Type} (p : Parser α) (c : Cursor) : Prop := (p c).outcome = none

/-- The parser succeeds wherever the tokens stand. -/
def Takes {α : Type} (p : Parser α) (ts us : List Token) (P : α → Prop) : Prop :=
  ∀ c : Cursor, c.tokens = ts → Reads p c us P

/-- The parser fails wherever the tokens stand. -/
def Refuses {α : Type} (p : Parser α) (ts : List Token) : Prop := ∀ c : Cursor, c.tokens = ts → Fails p c

variable {α β γ : Type} {p q : Parser α} {ts us vs : List Token} {P : α → Prop}

theorem Takes.imp {Q : α → Prop} (h : Takes p ts us P) (hpq : ∀ a, P a → Q a) : Takes p ts us Q := by
  intro c hc
  obtain ⟨a, c', ho, hus, ha⟩ := h c hc
  exact ⟨a, c', ho, hus, hpq a ha⟩

theorem takes_pure {a : α} (ha : P a) : Takes (pure a) us us P := fun c hc => ⟨a, c, rfl, hc, ha⟩

theorem outcome_bind (f : α → Parser β) (c : Cursor) :
    ((p >>= f) c).outcome = (p c).outcome.bind fun r => (f r.1 r.2).outcome := by
  change (andThen p f c).outcome = _
  rcases hpc : p c with ⟨far, _ | ⟨a, c'⟩⟩ <;> simp only [andThen, hpc] <;> rfl

/-- Reading in sequence. -/
theorem takes_bind {f : α → Parser β} {Q : β → Prop} (hp : Takes p ts us P)
    (hf : ∀ a, P a → Takes (f a) us vs Q) : Takes (p >>= f) ts vs Q := by
  intro c hc
  obtain ⟨a, c', ho, hus, ha⟩ := hp c hc
  obtain ⟨b, c'', hb, hvs, hq⟩ := hf a ha c' hus
  exact ⟨b, c'', by rw [outcome_bind, ho]; exact hb, hvs, hq⟩

@[grind ←] theorem refuses_bind {f : α → Parser β} (h : Refuses p ts) : Refuses (p >>= f) ts := by
  intro c hc
  rw [Fails, outcome_bind, h c hc]
  rfl

/-- A sequence fails where its second part does. -/
theorem refuses_bind_of_takes {f : α → Parser β} (hp : Takes p ts us P) (hf : ∀ a, Refuses (f a) us) :
    Refuses (p >>= f) ts := by
  intro c hc
  obtain ⟨a, c', ho, hus, -⟩ := hp c hc
  rw [Fails, outcome_bind, ho]
  exact hf a c' hus

theorem takes_map {f : α → β} {Q : β → Prop} (h : Takes p ts us fun a => Q (f a)) :
    Takes (f <$> p) ts us Q :=
  takes_bind h fun _ ha => takes_pure ha

theorem outcome_orElse (p q : Parser α) (c : Cursor) : (orElse p q c).outcome = (p c).outcome.or (q c).outcome := by
  rcases hpc : p c with ⟨far, _ | r⟩ <;> simp only [orElse, hpc] <;> rfl

theorem takes_orElse_left (h : Takes p ts us P) : Takes (orElse p q) ts us P := by
  intro c hc
  obtain ⟨a, c', ho, hus, ha⟩ := h c hc
  exact ⟨a, c', by rw [outcome_orElse, ho]; rfl, hus, ha⟩

theorem takes_orElse_right (hp : Refuses p ts) (hq : Takes q ts us P) : Takes (orElse p q) ts us P := by
  intro c hc
  obtain ⟨a, c', ho, hus, ha⟩ := hq c hc
  exact ⟨a, c', by rw [outcome_orElse, hp c hc]; exact ho, hus, ha⟩

@[grind ←] theorem refuses_orElse (hp : Refuses p ts) (hq : Refuses q ts) : Refuses (orElse p q) ts := by
  intro c hc
  rw [Fails, outcome_orElse, hp c hc, hq c hc]
  rfl

variable {f : α → γ} {ps : List (Parser α)} {t : Token} {g : β → γ} {toks : β → List Token} {F : List Token → Prop}
  {xs : List β}

/-- The first of the alternatives that is not refused is taken. -/
theorem takes_choice (n : Nat) (hn : ps[n]? = some p) (hfront : ∀ q ∈ ps.take n, Refuses q ts) (h : Takes p ts us P) :
    Takes (choice ps) ts us P := by
  induction n generalizing ps with
  | zero =>
    obtain _ | ⟨q, _ | ⟨q', ps⟩⟩ := ps <;> cases hn
    · exact h
    · exact takes_orElse_left h
  | succ n ih =>
    obtain _ | ⟨q, _ | ⟨q', ps⟩⟩ := ps
    · cases hn
    · cases hn
    · rw [List.take_succ_cons, List.forall_mem_cons] at hfront
      exact takes_orElse_right hfront.1 (ih hn hfront.2)

@[grind ←] theorem refuses_choice (h : ∀ p ∈ ps, Refuses p ts) : Refuses (choice ps) ts := by
  induction ps with
  | nil => exact fun _ _ => rfl
  | cons p ps ih =>
    simp only [List.mem_cons, forall_eq_or_imp] at h
    cases ps with
    | nil => exact h.1
    | cons q ps => exact refuses_orElse h.1 (ih h.2)

theorem takes_optional_some {Q : Option α → Prop} (h : Takes p ts us fun a => Q (some a)) :
    Takes (optional p) ts us Q :=
  takes_orElse_left (takes_map h)

theorem takes_optional_none {Q : Option α → Prop} (hp : Refuses p us) (hq : Q none) : Takes (optional p) us us Q :=
  takes_orElse_right (refuses_bind hp) (takes_pure hq)

/-! ## 2. Tokens -/

theorem takes_token {accept : Token → Option α} {a : α} (ht : accept t = some a) (ha : P a) :
    Takes (token accept) (t :: us) us P := by
  intro c hc
  obtain ⟨l, rest, hrest, rfl, rfl⟩ := List.map_eq_cons_iff.1 hc
  exact ⟨a, ⟨rest, c.position + 1, l.span.stop⟩, by simp [token, hrest, ht], rfl, ha⟩

@[grind ←] theorem refuses_token {accept : Token → Option α} (h : ∀ t, ts.head? = some t → accept t = none) :
    Refuses (token accept) ts := by
  rintro c rfl
  cases hrest : c.rest with
  | nil => simp [Fails, token, hrest]
  | cons l rest =>
    have : accept l.token = none := h _ (by simp [Cursor.tokens, hrest])
    simp [Fails, token, hrest, this]

theorem takes_expect : Takes (expect t) (t :: us) us fun _ => True :=
  takes_token (if_pos rfl) trivial

/-- A token that stands in front is read over. -/
theorem takes_past {f : Unit → Parser α} (h : Takes (f ()) us vs P) : Takes (expect t >>= f) (t :: us) vs P :=
  takes_bind takes_expect fun _ _ => h

@[grind ←] theorem refuses_expect (h : ts.head? ≠ some t) : Refuses (expect t) ts := by
  refine refuses_token fun u hu => if_neg ?_
  rintro rfl
  exact h hu

@[grind ←] theorem refuses_keyword {w : String} (h : ts.head? ≠ some (.word w)) : Refuses (keyword w) ts :=
  refuses_expect h

theorem takes_spanned {Q : α × Span → Prop} (h : Takes p ts us fun a => ∀ s, Q (a, s)) :
    Takes (spanned p) ts us Q := by
  intro c hc
  obtain ⟨a, c', ho, hus, ha⟩ := h c hc
  rcases hpc : p c with ⟨far, outcome⟩
  rw [hpc] at ho
  subst ho
  exact ⟨(a, _), c', by simp only [spanned, hpc]; rfl, hus, ha _⟩

@[grind ←] theorem refuses_spanned (h : Refuses p ts) : Refuses (spanned p) ts := by
  intro c hc
  rcases hpc : p c with ⟨far, outcome⟩
  have hp := h c hc
  rw [Fails, hpc] at hp
  subst hp
  simp only [Fails, spanned, hpc]

/-- The parser fails at a word that does not pass the test. -/
def LedBy (accept : String → Bool) (p : Parser α) : Prop :=
  ∀ (c : Cursor) (w : String) (us : List Token), c.tokens = .word w :: us → accept w = false → Fails p c

theorem ledBy_keyword (v : String) (f : Unit → Parser α) : LedBy (· == v) (keyword v >>= f) := by
  intro c w us h hw
  exact refuses_bind (refuses_keyword (by simpa [h] using hw)) c rfl

theorem ledBy_wordOf (accept : String → Option β) (f : β → Parser α) :
    LedBy (fun w => (accept w).isSome) (wordOf accept >>= f) := by
  intro c w us h hw
  exact refuses_bind (refuses_token (by simpa [h] using hw)) c rfl

/-- Among parsers that words tell apart, the first that accepts the word is taken. -/
theorem takes_form {forms : List (Parser α × (String → Bool))} (hled : ∀ f ∈ forms, LedBy f.2 f.1)
    (n : Nat) {f : Parser α × (String → Bool)} (hn : forms[n]? = some f) {w : String}
    (hfront : ∀ g ∈ forms.take n, g.2 w = false) (hf : Takes f.1 (.word w :: vs) us P) :
    Takes (choice (forms.map Prod.fst)) (.word w :: vs) us P := by
  refine takes_choice n (by rw [List.getElem?_map, hn]; rfl) ?_ hf
  rw [← List.map_take, List.forall_mem_map]
  exact fun g hg c hc => hled g (List.mem_of_mem_take hg) c w vs hc (hfront g hg)

/-! ## 3. Repetition -/

/-- Values that follow each other are read by as many rounds, and the round that fails ends them. -/
theorem takes_manyUpTo
    (fuel : Nat) (hfuel : xs.length ≤ fuel)
    (hp : ∀ x ∈ xs, ∀ vs, F vs → Takes p (toks x ++ vs) vs fun a => f a = g x)
    (hF : F us ∧ ∀ x ∈ xs, ∀ vs, F (toks x ++ vs)) (hend : Refuses p us) :
    Takes (manyUpTo p fuel) (xs.flatMap toks ++ us) us fun as => as.map f = xs.map g := by
  induction xs generalizing fuel with
  | nil =>
    cases fuel with
    | zero => exact takes_pure rfl
    | succ fuel => exact takes_orElse_right (refuses_bind hend) (takes_pure rfl)
  | cons x xs ih =>
    obtain _ | fuel := fuel
    · simp at hfuel
    simp only [List.mem_cons, forall_eq_or_imp] at hp hF
    have hnext : F (xs.flatMap toks ++ us) := by
      cases xs with
      | nil => simpa using hF.1
      | cons y ys => simpa using hF.2.2 y (by simp) _
    rw [List.flatMap_cons, List.append_assoc]
    refine takes_orElse_left (takes_bind (hp.1 _ hnext) fun a ha => ?_)
    refine takes_bind (ih fuel (by simpa using hfuel) hp.2 ⟨hF.1, hF.2.2⟩) fun as has => takes_pure ?_
    simp [ha, has]

theorem length_le_flatMap (hne : ∀ x ∈ xs, toks x ≠ []) : xs.length ≤ (xs.flatMap toks).length := by
  induction xs with
  | nil => simp
  | cons x xs ih =>
    simp only [List.mem_cons, forall_eq_or_imp] at hne
    have := List.length_pos_iff.2 hne.1
    have := ih hne.2
    simp only [List.length_cons, List.flatMap_cons, List.length_append]
    omega

theorem takes_many
    (hne : ∀ x ∈ xs, toks x ≠ [])
    (hp : ∀ x ∈ xs, ∀ vs, F vs → Takes p (toks x ++ vs) vs fun a => f a = g x)
    (hF : F us ∧ ∀ x ∈ xs, ∀ vs, F (toks x ++ vs)) (hend : Refuses p us) :
    Takes (many p) (xs.flatMap toks ++ us) us fun as => as.map f = xs.map g := by
  intro c hc
  refine takes_manyUpTo (c.rest.length + 1) ?_ hp hF hend c hc
  have hlength : c.rest.length = (xs.flatMap toks ++ us).length := by rw [← hc, Cursor.tokens, List.length_map]
  have := length_le_flatMap hne
  rw [hlength, List.length_append]
  omega

/-- Tokens of values with commas between them. -/
def commaTokens (toks : β → List Token) : List β → List Token
  | [] => []
  | x :: xs => toks x ++ xs.flatMap fun y => .comma :: toks y

theorem tokensOf_commas (f : β → List Atom) (xs : List β) :
    tokensOf (joined commaBlank (xs.map f)) = commaTokens (fun x => tokensOf (f x)) xs := by
  induction xs with
  | nil => rfl
  | cons x xs ih =>
    cases xs with
    | nil => simp [joined, commaTokens]
    | cons y ys =>
      simp only [List.map_cons] at ih ⊢
      rw [joined_cons_cons, tokensOf_append, tokensOf_append, ih]
      simp [commaTokens, commaBlank]

theorem takes_sepBy1
    {x : β} (hp : ∀ y ∈ x :: xs, ∀ vs, F vs → Takes p (toks y ++ vs) vs fun a => f a = g y)
    (hF : F us ∧ ∀ vs, F (.comma :: vs)) (hend : us.head? ≠ some .comma) :
    Takes (sepBy1 p (expect .comma)) (commaTokens toks (x :: xs) ++ us) us
      fun as => as.map f = (x :: xs).map g := by
  simp only [List.mem_cons, forall_eq_or_imp] at hp
  have hnext : F ((xs.flatMap fun y => .comma :: toks y) ++ us) := by
    cases xs with
    | nil => simpa using hF.1
    | cons y ys => simpa using hF.2 _
  rw [commaTokens, List.append_assoc]
  refine takes_bind (hp.1 _ hnext) fun a ha => ?_
  have hmany : Takes (many (do expect .comma; p)) ((xs.flatMap fun y => .comma :: toks y) ++ us) us
      fun as => as.map f = xs.map g :=
    takes_many (by simp) (fun y hy vs hvs => takes_past (hp.2 y hy vs hvs))
      ⟨hF.1, fun y _ vs => by simpa using hF.2 _⟩ (refuses_bind (refuses_expect hend))
  exact takes_bind hmany fun as has => takes_pure (by simp [ha, has])

theorem takes_commaList
    (hp : ∀ y ∈ xs, ∀ vs, F vs → Takes p (toks y ++ vs) vs fun a => f a = g y)
    (hF : F us ∧ ∀ vs, F (.comma :: vs)) (hend : us.head? ≠ some .comma) (hfail : Refuses p us) :
    Takes (commaList p) (commaTokens toks xs ++ us) us fun as => as.map f = xs.map g := by
  cases xs with
  | nil => exact takes_orElse_right (refuses_bind hfail) (takes_pure rfl)
  | cons x xs => exact takes_orElse_left (takes_sepBy1 hp hF hend)

theorem takes_between {opening closing : Token} (hp : Takes p us (closing :: vs) P) :
    Takes (between opening closing p) (opening :: us) vs P :=
  takes_past (takes_bind hp fun _ ha => takes_past (takes_pure ha))

@[grind ←] theorem refuses_between {opening closing : Token} (h : ts.head? ≠ some opening) :
    Refuses (between opening closing p) ts :=
  refuses_bind (refuses_expect h)

end RangedIR.Source
