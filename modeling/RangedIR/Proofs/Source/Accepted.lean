/-
RangedIR.Proofs.Source.Accepted — what the grammar answers.

The converse of reading back: every tree that the grammar answers is valid, as
far as the tokens it was read from are. `Yields ok p c P` says that whatever `p`
answers at the cursor `c` has the property `P` and leaves valid tokens, and
`Answers ok p P` that it does so at every cursor with valid tokens. Two
conditions of validity come from the order of alternatives alone: a value is
returned only where the word `void` is not read first, and an instruction with a
name is one that can have a result.
-/
import RangedIR.Proofs.Source.Writing
import RangedIR.Proofs.Source.Combinators
import RangedIR.Proofs.Source.Coverage

namespace RangedIR.Source

open RangedIR.Source.Parser

-- powers of the core library
attribute [local instance (high)] instPowNat

/-! ## 1. Combinators -/

/-- All tokens still to be read are valid. -/
def Sound (ok : Float → Prop) (c : Cursor) : Prop := ∀ t ∈ c.tokens, t.Valid ok

/-- Whatever the parser answers has the property, and it leaves valid tokens. -/
def Yields {α : Type} (ok : Float → Prop) (p : Parser α) (c : Cursor) (P : α → Prop) : Prop :=
  ∀ a c', (p c).outcome = some (a, c') → P a ∧ Sound ok c'

/-- At every cursor with valid tokens the parser answers what has the property, and leaves valid
tokens. -/
def Answers {α : Type} (ok : Float → Prop) (p : Parser α) (P : α → Prop) : Prop :=
  ∀ c, Sound ok c → Yields ok p c P

variable {α β : Type} {ok : Float → Prop} {p q : Parser α} {c : Cursor} {P Q : α → Prop}

theorem Answers.imp (h : Answers ok p P) (hpq : ∀ a, P a → Q a) : Answers ok p Q :=
  fun c hc a c' ho => ⟨hpq a (h c hc a c' ho).1, (h c hc a c' ho).2⟩

theorem answers_pure {a : α} (ha : P a) : Answers ok (pure a) P := by
  intro c hc b c' ho
  obtain ⟨rfl, rfl⟩ : a = b ∧ c = c' := by
    have : (some (a, c) : Option (α × Cursor)) = some (b, c') := ho
    simpa using this
  exact ⟨ha, hc⟩

theorem yields_bind {f : α → Parser β} {R : β → Prop} (hp : Yields ok p c P)
    (hf : ∀ a, P a → Answers ok (f a) R) : Yields ok (p >>= f) c R := by
  intro b c'' ho
  rw [outcome_bind, Option.bind_eq_some_iff] at ho
  obtain ⟨⟨a, c'⟩, ha, ho⟩ := ho
  obtain ⟨ha, hc'⟩ := hp a c' ha
  exact hf a ha c' hc' b c'' ho

theorem answers_bind {f : α → Parser β} {R : β → Prop} (hp : Answers ok p P)
    (hf : ∀ a, P a → Answers ok (f a) R) : Answers ok (p >>= f) R :=
  fun c hc => yields_bind (hp c hc) hf

theorem yields_orElse (hp : Yields ok p c P) (hq : Fails p c → Yields ok q c P) :
    Yields ok (orElse p q) c P := by
  intro a c' ho
  rw [outcome_orElse, Option.or_eq_some_iff] at ho
  exact ho.elim (hp a c') fun h => hq h.1 a c' h.2

theorem answers_orElse (hp : Answers ok p P) (hq : Answers ok q P) : Answers ok (orElse p q) P :=
  fun c hc => yields_orElse (hp c hc) fun _ => hq c hc

theorem yields_choice {ps : List (Parser α)} (h : ∀ p ∈ ps, Yields ok p c P) :
    Yields ok (choice ps) c P := by
  induction ps with
  | nil => intro a c' ho; cases ho
  | cons p ps ih =>
    simp only [List.mem_cons, forall_eq_or_imp] at h
    cases ps with
    | nil => exact h.1
    | cons q ps => exact yields_orElse h.1 fun _ => ih h.2

theorem answers_choice {ps : List (Parser α)} (h : ps.Forall (Answers ok · P)) : Answers ok (choice ps) P :=
  fun c hc => yields_choice fun p hp => List.forall_iff_forall_mem.mp h p hp c hc

theorem answers_optional (h : Answers ok p P) : Answers ok (optional p) fun o => ∀ a ∈ o, P a :=
  answers_orElse (answers_bind h fun a ha => answers_pure (by simpa using ha)) (answers_pure (by simp))

/-- What a token of a class answers; the token stands first. -/
theorem yields_token {accept : Token → Option α} (hc : Sound ok c)
    (h : ∀ t a, c.tokens.head? = some t → t.Valid ok → accept t = some a → P a) :
    Yields ok (token accept) c P := by
  intro a c' ho
  cases hrest : c.rest with
  | nil => simp [token, hrest] at ho
  | cons l rest =>
    have hsound : ∀ m ∈ l :: rest, m.token.Valid ok := by
      simpa [Sound, Cursor.tokens, hrest] using hc
    cases haccept : accept l.token with
    | none => simp [token, hrest, haccept] at ho
    | some b =>
      obtain ⟨rfl, rfl⟩ : b = a ∧ (⟨rest, c.position + 1, l.span.stop⟩ : Cursor) = c' := by
        simpa [token, hrest, haccept] using ho
      refine ⟨h l.token b (by simp [Cursor.tokens, hrest]) (hsound l (by simp)) haccept, ?_⟩
      simpa [Sound, Cursor.tokens] using fun m hm => hsound m (List.mem_cons_of_mem _ hm)

theorem answers_expect (t : Token) : Answers ok (expect t) fun _ => True :=
  fun _ hc => yields_token hc fun _ _ _ _ _ => trivial

/-- A token that is expected is read over. -/
theorem answers_past {t : Token} {f : Unit → Parser α} (h : Answers ok (f ()) P) : Answers ok (expect t >>= f) P :=
  answers_bind (answers_expect t) fun _ _ => h

theorem answers_spanned (h : Answers ok p P) : Answers ok (spanned p) fun a => P a.1 := by
  intro c hc a c' ho
  rcases hpc : p c with ⟨far, _ | ⟨b, c''⟩⟩
  · simp [spanned, hpc] at ho
  · obtain ⟨rfl, rfl⟩ := Prod.mk.inj (Option.some.inj ((by simpa only [spanned, hpc] using ho :
      some ((b, _), c'') = some (a, c'))))
    exact h c hc b c'' (by rw [hpc])

theorem answers_manyUpTo (fuel : Nat) (h : Answers ok p P) : Answers ok (manyUpTo p fuel) fun as => ∀ a ∈ as, P a := by
  induction fuel with
  | zero => exact answers_pure (by simp)
  | succ fuel ih =>
    refine answers_orElse (answers_bind h fun a ha => ?_) (answers_pure (by simp))
    refine answers_bind ih fun as has => answers_pure ?_
    simpa using ⟨ha, has⟩

theorem answers_many (h : Answers ok p P) : Answers ok (many p) fun as => ∀ a ∈ as, P a :=
  fun c hc => answers_manyUpTo (c.rest.length + 1) h c hc

theorem answers_sepBy1 (h : Answers ok p P) :
    Answers ok (sepBy1 p (expect .comma)) fun as => as ≠ [] ∧ ∀ a ∈ as, P a := by
  refine answers_bind h fun a ha => answers_bind (answers_many (answers_past h)) fun as has => answers_pure ?_
  exact ⟨by simp, by simpa using ⟨ha, has⟩⟩

theorem answers_commaList (h : Answers ok p P) : Answers ok (commaList p) fun as => ∀ a ∈ as, P a :=
  answers_orElse ((answers_sepBy1 h).imp fun _ has => has.2) (answers_pure (by simp))

theorem answers_between {opening closing : Token} (h : Answers ok p P) : Answers ok (between opening closing p) P :=
  answers_past (answers_bind h fun _ ha => answers_past (answers_pure ha))

/-! ## 2. Words -/

theorem answers_localName : Answers ok localName fun x => IsName x.name := by
  refine answers_bind (P := fun a => IsName a.1)
    (answers_spanned fun c hc => yields_token hc fun t x _ ht hx => ?_) fun a ha => answers_pure ha
  split at hx <;> cases hx
  exact ht

theorem answers_globalName : Answers ok globalName fun x => IsName x.name := by
  refine answers_bind (P := fun a => IsName a.1)
    (answers_spanned fun c hc => yields_token hc fun t x _ ht hx => ?_) fun a ha => answers_pure ha
  split at hx <;> cases hx
  exact ht

/-- A word that passes a check stands first and is what the lexer takes for a word. -/
theorem yields_wordOf {accept : String → Option α} (hc : Sound ok c)
    (h : ∀ w a, c.tokens.head? = some (.word w) → IsWord w → accept w = some a → P a) :
    Yields ok (wordOf accept) c P := by
  refine yields_token hc fun t a hhead ht ha => ?_
  cases t with
  | word w => exact h w a hhead ht ha
  | _ => simp at ha

/-- A word is read over, whatever it stands for. -/
theorem answers_word {accept : String → Option α} {f : α → Parser β} {R : β → Prop} (h : ∀ a, Answers ok (f a) R) :
    Answers ok (wordOf accept >>= f) R :=
  answers_bind (P := fun _ => True) (fun _ hc => yields_wordOf hc fun _ _ _ _ _ => trivial) fun a _ => h a

theorem answers_integer : Answers ok integer IsLong := by
  refine fun c hc => yields_token hc fun t n _ ht hn => ?_
  split at hn <;> cases hn
  exact ht

theorem answers_string : Answers ok stringLiteral IsLine := by
  refine fun c hc => yields_token hc fun t s _ ht hs => ?_
  split at hs <;> cases hs
  exact ht

theorem answers_literal : Answers ok literal (Literal.Valid ok) := by
  refine fun c hc => yields_token hc fun t l _ ht hl => ?_
  split at hl <;> cases hl <;> first | exact ht | trivial

/-! ## 3. Types and operands -/

theorem valid_scalarType? {w : String} {t : TypeExpr} (h : scalarType? w = some t) :
    t.Valid ∧ (t.startsVoid = true → w = "void") := by
  grind [scalarType?, TypeExpr.Valid, TypeExpr.startsVoid]

theorem valid_stars {t : TypeExpr} (stars : List Unit) (ht : t.Valid) :
    (stars.foldl (fun t _ => TypeExpr.ptr t) t).Valid ∧
      (stars.foldl (fun t _ => TypeExpr.ptr t) t).startsVoid = t.startsVoid := by
  induction stars generalizing t with
  | nil => exact ⟨ht, rfl⟩
  | cons _ stars ih => exact ih ht.ptr

/-- A type is valid, and starts with `void` only if that word stands first. -/
theorem yields_typeUpTo (depth : Nat) (hc : Sound ok c) :
    Yields ok (typeUpTo depth) c
      fun t => t.Valid ∧ (t.startsVoid = true → c.tokens.head? = some (.word "void")) := by
  induction depth generalizing c with
  | zero => intro a c' ho; cases ho
  | succ depth ih =>
    have hnested : Answers ok (typeUpTo depth) TypeExpr.Valid :=
      fun c hc a c' ho => ⟨(ih hc a c' ho).1.1, (ih hc a c' ho).2⟩
    refine yields_bind (P := fun t => t.Valid ∧ (t.startsVoid = true → c.tokens.head? = some (.word "void")))
      (yields_choice ?_) fun t ht => answers_bind (answers_many (answers_expect _)) fun stars _ => answers_pure ?_
    · simp only [List.mem_cons, List.not_mem_nil, or_false, forall_eq_or_imp, forall_eq]
      refine ⟨yields_wordOf hc fun w t hhead _ ht => ?_,
        answers_bind answers_localName (fun x hx => answers_pure ?_) c hc,
        answers_between (answers_bind answers_integer fun v hv => answers_past ?_) c hc,
        answers_bind (answers_between (answers_commaList hnested)) (fun ts hts => answers_pure ?_) c hc⟩
      · obtain ⟨hvalid, hvoid⟩ := valid_scalarType? ht
        exact ⟨hvalid, fun h => hvoid h ▸ hhead⟩
      · exact ⟨.named hx, by simp [TypeExpr.startsVoid]⟩
      · refine answers_bind hnested fun t ht => answers_pure ?_
        have hlength : IsLong (v.toNat : Int) := by
          obtain ⟨_, _⟩ := hv
          exact ⟨by omega, by omega⟩
        exact ⟨.array hlength ht, by simp [TypeExpr.startsVoid]⟩
      · exact ⟨.struct hts, by simp [TypeExpr.startsVoid]⟩
    · obtain ⟨hvalid, hvoid⟩ := valid_stars stars ht.1
      exact ⟨hvalid, fun h => ht.2 (hvoid ▸ h)⟩

theorem yields_type_void (hc : Sound ok c) :
    Yields ok type c
      fun t => t.Valid ∧ (t.startsVoid = true → c.tokens.head? = some (.word "void")) := by
  intro a c' ho
  rw [type] at ho
  exact yields_typeUpTo (c.rest.length + 1) hc a c' ho

theorem answers_type : Answers ok type TypeExpr.Valid :=
  fun _ hc a c' ho => ⟨(yields_type_void hc a c' ho).1.1, (yields_type_void hc a c' ho).2⟩

theorem answers_value : Answers ok value (ValueExpr.Valid ok) :=
  answers_choice ⟨answers_bind answers_localName fun _ hx => answers_pure hx,
    answers_bind answers_globalName fun _ hx => answers_pure hx,
    answers_bind answers_literal fun _ hl => answers_pure hl, answers_past (answers_pure trivial)⟩

theorem answers_typed : Answers ok typed (Typed.Valid ok) :=
  answers_bind answers_type fun _ ht => answers_bind answers_value fun _ hv => answers_pure ⟨ht, hv⟩

theorem answers_alignment : Answers ok alignment IsAlign := by
  refine answers_optional (answers_past (answers_past (answers_bind answers_integer fun v _ => answers_pure ?_)))
  exact Nat.mod_lt _ (by decide)

theorem answers_valuePair : Answers ok valuePair fun vs => vs.1.Valid ok ∧ vs.2.Valid ok :=
  answers_bind answers_value fun _ hl => answers_past (answers_bind answers_value fun _ hr => answers_pure ⟨hl, hr⟩)

theorem answers_labelRef : Answers ok labelRef fun x => IsName x.name := answers_past answers_localName

/-! ## 4. Instructions -/

/-- A type and two values of it. -/
theorem answers_pair {f : TypeExpr → ValueExpr × ValueExpr → InstExpr} {R : InstExpr → Prop}
    (hf : ∀ t vs, t.Valid → vs.1.Valid ok → vs.2.Valid ok → R (f t vs)) :
    Answers ok (type >>= fun t => valuePair >>= fun vs => pure (f t vs)) R := by
  refine answers_bind answers_type fun t ht => ?_
  exact answers_bind answers_valuePair fun vs hvs => answers_pure (hf t vs ht hvs.1 hvs.2)

/-- A value of a type and the type it is turned into. -/
theorem answers_conversion {f : TypeExpr → ValueExpr → TypeExpr → InstExpr} {R : InstExpr → Prop}
    (hf : ∀ s v d, s.Valid → v.Valid ok → d.Valid → R (f s v d)) :
    Answers ok (type >>= fun s => value >>= fun v => keyword "to" >>= fun _ => type >>= fun d => pure (f s v d)) R := by
  refine answers_bind answers_type fun s hs => answers_bind answers_value fun v hv => answers_past ?_
  exact answers_bind answers_type fun d hd => answers_pure (hf s v d hs hv hd)

theorem answers_callInst : Answers ok callInst fun e => e.Valid ok ∧ e.isValued = true ∧ e.isUnvalued = true := by
  refine answers_past (answers_bind answers_type fun t ht => answers_bind answers_globalName fun g hg => ?_)
  exact answers_bind (answers_between (answers_commaList answers_typed)) fun as has =>
    answers_pure ⟨⟨ht, hg, has⟩, rfl, rfl⟩

theorem answers_incoming : Answers ok incoming fun vl => vl.1.Valid ok ∧ IsName vl.2.name :=
  answers_between (answers_bind answers_value fun _ hv =>
    answers_past (answers_bind answers_localName fun _ hl => answers_pure ⟨hv, hl⟩))

theorem answers_valued : Answers ok valuedInst
    fun e => (∃ x, e.1 = some x ∧ IsName x.name) ∧ e.2.Valid ok ∧ e.2.isValued = true := by
  refine answers_bind answers_localName fun x hx => answers_past ?_
  refine answers_bind (P := fun e : InstExpr => e.Valid ok ∧ e.isValued = true) (answers_choice ?_)
    fun e he => answers_pure ⟨⟨x, rfl, hx⟩, he⟩
  refine ⟨answers_word fun op => ?_, answers_past ?_, answers_word fun op => ?_, answers_past ?_, answers_past ?_,
    answers_past ?_, answers_past ?_, answers_callInst.imp fun e he => ⟨he.1, he.2.1⟩,
    answers_past (answers_word fun pred => ?_), answers_past (answers_word fun pred => ?_), answers_past ?_⟩
  · exact answers_pair fun t vs ht hl hr => ⟨⟨ht, hl, hr⟩, rfl⟩
  · refine answers_bind answers_type fun t ht => ?_
    exact answers_bind answers_value fun v hv => answers_pure ⟨⟨ht, hv⟩, rfl⟩
  · exact answers_conversion fun s v d hs hv hd => ⟨⟨hs, hv, hd⟩, rfl⟩
  · exact answers_conversion fun s v d hs hv hd => ⟨⟨hs, hv, hd⟩, rfl⟩
  · refine answers_bind answers_type fun t ht => ?_
    exact answers_bind answers_alignment fun a ha => answers_pure ⟨⟨ht, ha⟩, rfl⟩
  · refine answers_bind answers_type fun t ht => answers_past (answers_bind answers_typed fun p hp => ?_)
    exact answers_bind answers_alignment fun a ha => answers_pure ⟨⟨ht, hp, ha⟩, rfl⟩
  · refine answers_bind (answers_optional (answers_expect _)) fun o _ => ?_
    refine answers_bind answers_type fun t ht => answers_past (answers_bind answers_typed fun b hb => ?_)
    exact answers_bind (answers_many (answers_past answers_typed)) fun is his => answers_pure ⟨⟨ht, hb, his⟩, rfl⟩
  · exact answers_pair fun t vs ht hl hr => ⟨⟨ht, hl, hr⟩, rfl⟩
  · exact answers_pair fun t vs ht hl hr => ⟨⟨ht, hl, hr⟩, rfl⟩
  · refine answers_bind answers_type fun t ht => ?_
    exact answers_bind (answers_sepBy1 answers_incoming) fun ps hps => answers_pure ⟨⟨ht, hps.1, hps.2⟩, rfl⟩

/-- A returned value is read only where the word `void` does not stand. -/
theorem answers_retInst : Answers ok retInst fun e => e.Valid ok ∧ e.isUnvalued = true := by
  have hnothing : Answers ok (do keyword "void"; pure (InstExpr.ret none)) fun e => e.Valid ok ∧ e.isUnvalued = true :=
    answers_past (answers_pure ⟨fun t ht => by simp at ht, rfl⟩)
  refine answers_past fun c hc => yields_orElse (hnothing c hc) fun hfails => ?_
  refine yields_bind (P := fun t => t.Valid ok ∧ t.ty.startsVoid = false) ?_ fun t ht => answers_pure ⟨?_, rfl⟩
  · refine yields_bind (P := fun t => t.Valid ∧ t.startsVoid = false) (fun t c' ho => ?_) fun t ht =>
      answers_bind answers_value fun v hv => answers_pure ⟨⟨ht.1, hv⟩, ht.2⟩
    obtain ⟨⟨ht, hvoid⟩, hc'⟩ := yields_type_void hc t c' ho
    refine ⟨⟨ht, ?_⟩, hc'⟩
    by_contra hstart
    obtain ⟨rest, hrest⟩ := List.head?_eq_some_iff.mp (hvoid (by simpa using hstart))
    obtain ⟨_, _, hreads, -⟩ := takes_past (f := fun _ => pure (InstExpr.ret none)) (P := fun _ => True)
      (takes_pure trivial) c hrest
    have hnone : (Option.none : Option (InstExpr × Cursor)) = some (_, _) := hfails.symm.trans hreads
    simp at hnone
  · intro u hu
    obtain rfl : t = u := by simpa using hu
    exact ht

theorem answers_unvalued :
    Answers ok unvaluedInst fun e => e.1 = none ∧ e.2.Valid ok ∧ e.2.isUnvalued = true := by
  refine answers_bind (P := fun e : InstExpr => e.Valid ok ∧ e.isUnvalued = true) (answers_choice ?_)
    fun e he => answers_pure ⟨rfl, he⟩
  refine ⟨answers_past ?_, answers_past (answers_choice ?_), answers_retInst,
    answers_callInst.imp fun e he => ⟨he.1, he.2.2⟩⟩
  · refine answers_bind answers_typed fun v hv => answers_past (answers_bind answers_typed fun p hp => ?_)
    exact answers_bind answers_alignment fun a ha => answers_pure ⟨⟨hv, hp, ha⟩, rfl⟩
  · refine ⟨answers_bind answers_labelRef fun x hx => answers_pure ⟨hx, rfl⟩, answers_past ?_⟩
    refine answers_bind answers_value fun v hv => answers_past (answers_bind answers_labelRef fun t ht => ?_)
    exact answers_past (answers_bind answers_labelRef fun e he => answers_pure ⟨⟨hv, ht, he⟩, rfl⟩)

/-! ## 5. Blocks and items -/

theorem answers_debugBinding : Answers ok debugBinding fun d => ∀ b ∈ d, IsLine b.1 ∧ IsLine b.2 :=
  answers_optional (answers_past (answers_between (answers_bind answers_string fun _ ha =>
    answers_past (answers_bind answers_string fun _ hb => answers_pure ⟨ha, hb⟩))))

theorem answers_instruction : Answers ok instruction (InstDef.Valid ok) := by
  have hinst : Answers ok (orElse valuedInst unvaluedInst) fun e => e.2.Valid ok ∧
      (∀ x ∈ e.1, IsName x.name ∧ e.2.isValued = true) ∧ (e.1 = none → e.2.isUnvalued = true) := by
    refine answers_orElse (answers_valued.imp ?_) (answers_unvalued.imp ?_)
    · rintro ⟨r, e⟩ ⟨⟨x, rfl, hx⟩, he, hvalued⟩
      exact ⟨he, by simpa using ⟨hx, hvalued⟩, by simp⟩
    · rintro ⟨r, e⟩ ⟨rfl, he, hunvalued⟩
      exact ⟨he, by simp, fun _ => hunvalued⟩
  have hline : Answers ok (do
      let inst ← orElse valuedInst unvaluedInst
      let dbg ← debugBinding
      pure (inst, dbg)) fun e => (e.1.2.Valid ok ∧ (∀ x ∈ e.1.1, IsName x.name ∧ e.1.2.isValued = true) ∧
        (e.1.1 = none → e.1.2.isUnvalued = true)) ∧ ∀ b ∈ e.2, IsLine b.1 ∧ IsLine b.2 :=
    answers_bind hinst fun e he => answers_bind answers_debugBinding fun d hd => answers_pure ⟨he, hd⟩
  refine answers_bind (answers_spanned hline) fun e he => answers_pure ?_
  exact ⟨he.1.1, he.1.2.1, he.1.2.2, he.2⟩

theorem answers_block : Answers ok block (BlockDef.Valid ok) := by
  have hword : Answers ok (wordOf some) IsWord := by
    refine fun c hc => yields_wordOf hc fun w a _ hw ha => ?_
    obtain rfl := Option.some.inj ha
    exact hw
  have hlabel : Answers ok blockLabel fun x => IsWord x.name :=
    answers_bind (answers_spanned (answers_bind hword fun w hw => answers_past (answers_pure hw)))
      fun a ha => answers_pure ha
  exact answers_bind hlabel fun x hx => answers_bind (answers_many answers_instruction) fun is his =>
    answers_pure ⟨hx, his⟩

theorem answers_globalInit : Answers ok globalInit (GlobalInitExpr.Valid ok) :=
  answers_choice ⟨answers_bind answers_literal fun _ hl => answers_pure hl,
    answers_bind (answers_between (answers_commaList answers_literal)) fun _ hls => answers_pure hls⟩

theorem answers_defineItem : Answers ok defineItem (Item.Valid ok) := by
  have hparam : Answers ok (do
      let ty ← type
      let n ← localName
      pure (ty, n)) fun p => p.1.Valid ∧ IsName p.2.name :=
    answers_bind answers_type fun _ hty => answers_bind answers_localName fun _ hn => answers_pure ⟨hty, hn⟩
  refine answers_bind (answers_spanned (P := fun f => ∀ span, (f span).Valid ok) (answers_past ?_))
    fun a ha => answers_pure (ha a.2)
  refine answers_bind answers_type fun t ht => answers_bind answers_globalName fun g hg => ?_
  refine answers_bind (answers_between (answers_commaList hparam)) fun ps hps => ?_
  refine answers_bind (answers_optional (answers_past (answers_between answers_string))) fun r hr => ?_
  exact answers_bind (answers_between (answers_many answers_block)) fun bs hbs =>
    answers_pure fun _ => ⟨hg, ht, hps, hr, hbs⟩

theorem answers_item : Answers ok item (Item.Valid ok) := by
  have hparam : Answers ok (do
      let ty ← type
      let _ ← optional localName
      pure ty) TypeExpr.Valid :=
    answers_bind answers_type fun _ hty => answers_bind (answers_optional answers_localName) fun _ _ => answers_pure hty
  have hconstant : Answers ok (choice [
      do keyword "global"; pure false,
      do keyword "constant"; pure true]) fun _ => True :=
    answers_choice ⟨answers_past (answers_pure trivial), answers_past (answers_pure trivial)⟩
  refine answers_choice ⟨answers_past (answers_past (answers_past ?_)),
    answers_bind answers_localName fun x hx => answers_past (answers_past ?_),
    answers_bind answers_globalName fun x hx => answers_past ?_, answers_past ?_, answers_defineItem⟩
  · exact answers_bind answers_string fun s hs => answers_pure hs
  · exact answers_bind (answers_between (answers_commaList answers_type)) fun fs hfs => answers_pure ⟨hx, hfs⟩
  · refine answers_bind hconstant fun b _ => answers_bind answers_type fun t ht => ?_
    exact answers_bind answers_globalInit fun i hi => answers_pure ⟨hx, ht, hi⟩
  · refine answers_bind answers_type fun t ht => answers_bind answers_globalName fun g hg => ?_
    exact answers_bind (answers_between (answers_commaList hparam)) fun ps hps => answers_pure ⟨hg, ht, hps⟩

/-- The items of a source are valid, as far as its numbers are. -/
theorem valid_readModule {source : String} {all : List Item} (h : readModule source = .ok all)
    (hok : ∀ l ∈ (lex source).lexemes, ∀ x, l.token = .float x → ok x) : ∀ i ∈ all, i.Valid ok := by
  have hsound : Sound ok ⟨(lex source).lexemes, 0, 0⟩ := by
    intro t ht
    obtain ⟨l, hl, rfl⟩ := List.mem_map.1 ht
    exact valid_lex hl (hok l hl)
  have hend : Answers ok endOfSource fun _ => True := by
    refine fun c hc a c' ho => ⟨trivial, ?_⟩
    unfold endOfSource at ho
    split at ho
    · obtain ⟨-, rfl⟩ := Prod.mk.inj (Option.some.inj ho)
      exact hc
    · simp at ho
  have hitems : Answers ok items fun is => ∀ i ∈ is, i.Valid ok :=
    answers_bind (answers_many answers_item) fun is his => answers_bind hend fun _ _ => answers_pure his
  rw [readModule] at h
  cases ho : (items ⟨(lex source).lexemes, 0, 0⟩).outcome with
  | none => simp [ho] at h
  | some r =>
    cases hstrays : (lex source).strays with
    | nil =>
      obtain rfl : r.1 = all := by simpa [ho, hstrays] using h
      exact (hitems _ hsound r.1 r.2 ho).1
    | cons s strays => simp [ho, hstrays] at h

end RangedIR.Source
