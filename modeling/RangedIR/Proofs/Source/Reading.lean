/-
RangedIR.Proofs.Source.Reading — the grammar reads back what is written.

One lemma per construct: the tokens of a valid tree are read as that tree, up to
the places at which its names stand. What may follow a construct is limited
where the grammar takes as much as it can: a star carries a type on, a comma an
alignment clause, an index path or a list of values, and a mark an instruction.
-/
import RangedIR.Proofs.Source.Combinators

namespace RangedIR.Source

open RangedIR.Source.Parser InstExpr

-- powers of the core library
attribute [local instance (high)] instPowNat

/-! ## 1. Trees without places -/

/-- A name without its place. -/
def Ident.erase (x : Ident) : Ident := ⟨x.name, ⟨0, 0⟩⟩

mutual

def TypeExpr.erase : TypeExpr → TypeExpr
  | .named n => .named n.erase
  | .ptr t => .ptr t.erase
  | .array n t => .array n t.erase
  | .struct fields => .struct (TypeExpr.eraseAll fields)
  | t => t

def TypeExpr.eraseAll : List TypeExpr → List TypeExpr
  | [] => []
  | t :: rest => t.erase :: TypeExpr.eraseAll rest

end

theorem TypeExpr.eraseAll_eq (ts : List TypeExpr) : TypeExpr.eraseAll ts = ts.map TypeExpr.erase := by
  induction ts with
  | nil => rfl
  | cons t ts ih => rw [TypeExpr.eraseAll, ih, List.map_cons]

def ValueExpr.erase : ValueExpr → ValueExpr
  | .loc n => .loc n.erase
  | .glob n => .glob n.erase
  | v => v

def Typed.erase (t : Typed) : Typed := ⟨t.ty.erase, t.value.erase⟩

def InstExpr.erase : InstExpr → InstExpr
  | .binary op ty lhs rhs => .binary op ty.erase lhs.erase rhs.erase
  | .fneg ty v => .fneg ty.erase v.erase
  | .cast op src v dst => .cast op src.erase v.erase dst.erase
  | .bitcast src v dst => .bitcast src.erase v.erase dst.erase
  | .alloca ty align => .alloca ty.erase align
  | .load ty ptr align => .load ty.erase ptr.erase align
  | .store v ptr align => .store v.erase ptr.erase align
  | .elementPtr inbounds source base indices =>
    .elementPtr inbounds source.erase base.erase (indices.map Typed.erase)
  | .call result callee args => .call result.erase callee.erase (args.map Typed.erase)
  | .ret v => .ret (v.map Typed.erase)
  | .icmp pred ty lhs rhs => .icmp pred ty.erase lhs.erase rhs.erase
  | .fcmp pred ty lhs rhs => .fcmp pred ty.erase lhs.erase rhs.erase
  | .br target => .br target.erase
  | .condBr cond t e => .condBr cond.erase t.erase e.erase
  | .phi ty incoming => .phi ty.erase (incoming.map fun vl => (vl.1.erase, vl.2.erase))

def InstDef.erase (i : InstDef) : InstDef := ⟨i.result.map Ident.erase, i.kind.erase, i.dbg, ⟨0, 0⟩⟩

def BlockDef.erase (b : BlockDef) : BlockDef := ⟨b.label.erase, b.insts.map InstDef.erase⟩

def FunctionDef.erase (f : FunctionDef) : FunctionDef :=
  ⟨f.name.erase, f.ret.erase, f.params.map fun p => (p.1.erase, p.2.erase), f.range,
    f.blocks.map BlockDef.erase, ⟨0, 0⟩⟩

def Item.erase : Item → Item
  | .dataLayout s => .dataLayout s
  | .typeDef t => .typeDef ⟨t.name.erase, t.fields.map TypeExpr.erase⟩
  | .globalDef g => .globalDef ⟨g.name.erase, g.isConstant, g.ty.erase, g.init⟩
  | .declare d => .declare ⟨d.name.erase, d.ret.erase, d.params.map TypeExpr.erase⟩
  | .define f => .define f.erase

/-! ## 2. Words -/

-- what stands in front decides whether a construct is refused
attribute [local grind] wordOf literal arrayType typed labelRef dataLayoutItem typeDefItem globalDefItem declareItem
  defineItem storeInst branchInst retInst

variable {ts us : List Token} {ok : Float → Prop}
variable {n w : String} {α : Type} {v : ValueExpr} {t ty : TypeExpr}

theorem takes_localName : Takes localName (.loc n :: us) us fun x => x.name = n :=
  takes_bind (P := fun a => a.1 = n) (takes_spanned (takes_token rfl fun _ => rfl)) fun _ ha => takes_pure ha

theorem takes_globalName : Takes globalName (.glob n :: us) us fun x => x.name = n :=
  takes_bind (P := fun a => a.1 = n) (takes_spanned (takes_token rfl fun _ => rfl)) fun _ ha => takes_pure ha

@[grind ←] theorem refuses_localName (h : ∀ n, ts.head? ≠ some (.loc n)) : Refuses localName ts := by
  exact refuses_bind (refuses_spanned (refuses_token (by grind)))

@[grind ←] theorem refuses_globalName (h : ∀ n, ts.head? ≠ some (.glob n)) : Refuses globalName ts := by
  exact refuses_bind (refuses_spanned (refuses_token (by grind)))

theorem takes_wordOf {accept : String → Option α} {a : α} (ha : accept w = some a) :
    Takes (wordOf accept) (.word w :: us) us (· = a) :=
  takes_token ha rfl

theorem takes_integer {v : Int} : Takes integer (.int v :: us) us (· = v) := takes_token rfl rfl

theorem takes_string {s : String} : Takes stringLiteral (.str s :: us) us (· = s) := takes_token rfl rfl

theorem takes_literal {l : Literal} : Takes literal (l.token :: us) us (· = l) := by
  refine takes_token ?_ rfl
  cases l with
  | int v => rfl
  | float x => rfl
  | bool b => cases b <;> simp [Literal.token]

/-! ## 3. Types -/

attribute [local simp] Ident.erase InstExpr.erase

/-- A type behind a number of stars. -/
def starsOn : Nat → TypeExpr → TypeExpr
  | 0, t => t
  | n + 1, t => starsOn n (.ptr t)

theorem foldl_ptr (stars : List Unit) (t : TypeExpr) :
    (stars.foldl (fun t _ => .ptr t) t).erase = starsOn stars.length t.erase := by
  induction stars generalizing t with
  | nil => rfl
  | cons _ stars ih => simpa [starsOn, TypeExpr.erase] using ih (.ptr t)

/-- Whether a token can start a type. -/
@[grind] def Token.startsType : Token → Bool
  | .word w => (scalarType? w).isSome
  | .loc _ | .lbracket | .lbrace => true
  | _ => false

theorem scalarType?_int {bits : Nat} (h : 1 ≤ bits ∧ bits ≤ 64) :
    scalarType? ("i" ++ Nat.repr bits) = some (.int bits) := by
  have hlist : ("i" ++ Nat.repr bits).toList = 'i' :: Nat.toDigits 10 bits := by simp
  have hne (w : String) (hw : w.toList.head? ≠ some 'i') : ("i" ++ Nat.repr bits == w) = false := by
    rw [beq_eq_false_iff_ne]
    rintro rfl
    simp at hw
  have hdigits : Text.decimal? (Nat.toDigits 10 bits) = some bits := by
    have hall : (Nat.toDigits 10 bits).all Char.isDigit = true := by
      simpa using fun c hc => isDigit_toDigits hc
    have hnil : Nat.toDigits 10 bits ≠ [] := Nat.toDigits_ne_nil
    simp [Text.decimal?, hall, hnil, natOfDigits_toDigits]
  simp [scalarType?, hne "void" (by decide), hne "float" (by decide), hne "double" (by decide), hlist, hdigits, h]

theorem TypeExpr.Valid.head (h : t.Valid) :
    ∃ first rest, tokensOf t.atoms = first :: rest ∧ first.startsType = true := by
  induction h with
  | void | float | double => exact ⟨_, _, rfl, by simp [Token.startsType, scalarType?]⟩
  | int h => exact ⟨_, _, rfl, by simp [Token.startsType, scalarType?_int h]⟩
  | named h => exact ⟨_, _, rfl, rfl⟩
  | ptr _ ih =>
    obtain ⟨first, rest, htokens, hfirst⟩ := ih
    exact ⟨first, rest ++ [.star], by simp [TypeExpr.atoms, htokens], hfirst⟩
  | array hn _ _ => exact ⟨.lbracket, _, rfl, rfl⟩
  | struct _ _ => exact ⟨.lbrace, _, rfl, rfl⟩

theorem refuses_typeUpTo (depth : Nat) (h : ∀ t, ts.head? = some t → t.startsType = false) :
    Refuses (typeUpTo depth) ts := by
  cases depth with
  | zero => exact fun _ _ => rfl
  | succ depth =>
    exact refuses_bind (refuses_choice (by grind [Option.isSome_eq_false_iff, Option.isNone_iff_eq_none]))

@[grind ←] theorem refuses_type (h : ∀ t, ts.head? = some t → t.startsType = false) : Refuses type ts := by
  intro c hc
  rw [Fails, type]
  exact refuses_typeUpTo (c.rest.length + 1) h c hc

theorem takes_starred {base : Parser TypeExpr} {n : Nat}
    (hbase : Takes base ts (List.replicate n .star ++ us) fun e => e.erase = t.erase)
    (hend : us.head? ≠ some .star) : Takes (starred base) ts us fun e => e.erase = starsOn n t.erase := by
  refine takes_bind hbase fun e he => ?_
  have hstars : Takes (many (expect .star)) ((List.replicate n ()).flatMap (fun _ => [.star]) ++ us) us
      fun as => as.map (fun _ => ()) = (List.replicate n ()).map (fun _ => ()) :=
    takes_many (F := fun _ => True) (by simp) (fun _ _ vs _ => takes_expect.imp fun _ _ => rfl) (by simp)
      (refuses_expect hend)
  rw [List.flatMap_replicate, List.flatten_replicate_singleton] at hstars
  refine takes_bind hstars fun as has => takes_pure ?_
  have hlength : as.length = n := by simpa using congrArg List.length has
  rw [foldl_ptr, hlength, he]

theorem tokensOf_fields (fields : List TypeExpr) :
    tokensOf (fieldsAtoms fields) =
      .lbrace :: (commaTokens (fun t => tokensOf t.atoms) fields ++ [.rbrace]) := by
  simp [fieldsAtoms, tokensOf_commas]

/-- The tokens of a field are no more than those of all fields. -/
theorem length_commaTokens {β : Type} (toks : β → List Token) {xs : List β} {x : β} (hx : x ∈ xs) :
    (toks x).length ≤ (commaTokens toks xs).length := by
  obtain _ | ⟨y, ys⟩ := xs
  · simp at hx
  simp only [commaTokens, List.length_append]
  obtain rfl | hx := List.mem_cons.1 hx
  · omega
  · obtain ⟨front, back, rfl⟩ := List.append_of_mem hx
    simp only [List.flatMap_append, List.flatMap_cons, List.length_append, List.length_cons]
    omega

/-- A list of fields in braces, given that its types are read. -/
theorem takes_fields {p : Parser TypeExpr} {fields : List TypeExpr}
    (hp : ∀ t ∈ fields, ∀ vs : List Token, vs.head? ≠ some .star →
      Takes p (tokensOf t.atoms ++ vs) vs fun e => e.erase = t.erase)
    (hfail : ∀ us, Refuses p (.rbrace :: us)) :
    Takes (between .lbrace .rbrace (commaList p)) (tokensOf (fieldsAtoms fields) ++ us) us
      fun es => es.map TypeExpr.erase = fields.map TypeExpr.erase := by
  rw [tokensOf_fields, List.cons_append, List.append_assoc]
  exact takes_between (takes_commaList hp ⟨by simp, by simp⟩ (by simp) (hfail us))

theorem takes_scalar (hw : scalarType? w = some t) {depth n : Nat}
    (hend : us.head? ≠ some .star) : Takes (typeUpTo (depth + 1)) (.word w :: (List.replicate n .star ++ us)) us
      fun e => e.erase = starsOn n t.erase :=
  takes_starred (takes_choice 0 rfl (by grind) ((takes_wordOf hw).imp fun e he => by rw [he])) hend

/-- The tokens of a type and of stars behind it. The induction is on the type; a
star of the type joins the stars behind it. -/
theorem takes_typeUpTo (ht : t.Valid) {depth : Nat}
    (hdepth : (tokensOf t.atoms).length < depth) (n : Nat) (hend : us.head? ≠ some .star) :
    Takes (typeUpTo depth) (tokensOf t.atoms ++ (List.replicate n .star ++ us)) us
      fun e => e.erase = starsOn n t.erase := by
  induction ht generalizing depth n us with
  | void | float | double =>
    obtain _ | depth := depth
    · simp at hdepth
    exact takes_scalar (by simp [scalarType?]) hend
  | int hbits =>
    obtain _ | depth := depth
    · simp at hdepth
    exact takes_scalar (scalarType?_int hbits) hend
  | @named x hx =>
    obtain _ | depth := depth
    · simp at hdepth
    change Takes _ (.loc x.name :: (List.replicate n .star ++ us)) _ _
    refine takes_starred (takes_choice 1 rfl (by grind) (takes_bind takes_localName fun y hy => takes_pure ?_)) hend
    simp [TypeExpr.erase, hy]
  | @ptr t _ ih =>
    rw [show tokensOf t.ptr.atoms ++ (List.replicate n .star ++ us) =
      tokensOf t.atoms ++ (List.replicate (n + 1) .star ++ us) by simp [TypeExpr.atoms, List.replicate_succ]]
    refine ih ?_ (n + 1) hend
    simp only [TypeExpr.atoms, tokensOf_append, List.length_append] at hdepth
    omega
  | @array m t hm _ ih =>
    obtain _ | depth := depth
    · simp at hdepth
    rw [show tokensOf (TypeExpr.array m t).atoms ++ (List.replicate n .star ++ us) = .lbracket :: .int m :: .word "x" ::
      (tokensOf t.atoms ++ .rbracket :: (List.replicate n .star ++ us)) by simp [TypeExpr.atoms]]
    refine takes_starred (takes_choice 2 rfl (by grind) (takes_between ?_)) hend
    refine takes_bind takes_integer fun v hv => takes_past ?_
    have hlt : (tokensOf t.atoms).length < depth := by
      simp only [TypeExpr.atoms, tokensOf_tok, tokensOf_gap, tokensOf_append,
        List.length_cons, List.length_append] at hdepth
      omega
    refine takes_bind (ih hlt 0 (by simp)) fun e he => takes_pure ?_
    simp only [TypeExpr.erase, hv, Int.toNat_natCast, he, starsOn]
  | @struct fields _ ih =>
    obtain _ | depth := depth
    · simp at hdepth
    rw [TypeExpr.atoms_struct] at hdepth ⊢
    refine takes_starred (takes_choice 3 rfl (by grind [tokensOf_fields]) ?_) hend
    refine takes_bind (takes_fields (fun t ht vs hvs => ?_) fun us => ?_) fun es hes => takes_pure ?_
    · have hlt : (tokensOf t.atoms).length < depth := by
        have := length_commaTokens (fun t : TypeExpr => tokensOf t.atoms) ht
        rw [tokensOf_fields, List.length_cons, List.length_append] at hdepth
        omega
      exact ih t ht hlt 0 hvs
    · exact refuses_typeUpTo depth (by simp [Token.startsType])
    · simp only [TypeExpr.erase, TypeExpr.eraseAll_eq, hes]

theorem takes_type (ht : t.Valid) (hend : us.head? ≠ some .star) :
    Takes type (tokensOf t.atoms ++ us) us fun e => e.erase = t.erase := by
  intro c hc
  have hlength : (tokensOf t.atoms).length < c.rest.length + 1 := by
    have := congrArg List.length hc
    simp only [Cursor.tokens, List.length_map, List.length_append] at this
    omega
  rw [Reads, type]
  exact takes_typeUpTo ht hlength 0 hend c hc

/-! ## 4. Operands -/

theorem takes_value : Takes value (v.token :: us) us fun e => e.erase = v.erase := by
  cases v with
  | loc n =>
    refine takes_choice 0 rfl (by grind) (takes_bind takes_localName fun x hx => takes_pure ?_)
    simp [ValueExpr.erase, hx]
  | glob n =>
    refine takes_choice 1 rfl (by grind [ValueExpr.token]) (takes_bind takes_globalName fun x hx => takes_pure ?_)
    simp [ValueExpr.erase, hx]
  | lit l =>
    refine takes_choice 2 rfl ?_ (takes_bind takes_literal fun l' hl => takes_pure (by rw [hl]))
    cases l <;> grind [ValueExpr.token, Literal.token]
  | undef => exact takes_choice 3 rfl (by grind [ValueExpr.token]) (takes_past (takes_pure rfl))

theorem ValueExpr.token_ne_star (v : ValueExpr) : v.token ≠ .star := by
  cases v with
  | lit l => cases l <;> simp [ValueExpr.token, Literal.token]
  | _ => simp [ValueExpr.token]

/-- A type and what stands behind it, given that a value comes next. -/
theorem takes_type_value {vs : List Token} {Q : α → Prop}
    {f : TypeExpr → ValueExpr → Parser α} (hty : ty.Valid)
    (hf : ∀ t w, t.erase = ty.erase → w.erase = v.erase → Takes (f t w) us vs Q) :
    Takes (type >>= fun t => value >>= f t) (tokensOf ty.atoms ++ v.token :: us) vs Q :=
  takes_bind (takes_type hty (by simp [ValueExpr.token_ne_star])) fun t ht =>
    takes_bind takes_value fun w hw => hf t w ht hw

theorem takes_typed {t : Typed} (ht : t.ty.Valid) :
    Takes typed (tokensOf t.atoms ++ us) us fun e => e.erase = t.erase := by
  rw [show tokensOf t.atoms ++ us = tokensOf t.ty.atoms ++ t.value.token :: us by simp [Typed.atoms]]
  refine takes_type_value ht fun ty v hty hv => takes_pure ?_
  simp [Typed.erase, hty, hv]

theorem takes_alignment {align : Option Nat} (ha : IsAlign align) (hend : us.head? ≠ some .comma) :
    Takes alignment (tokensOf (alignAtoms align) ++ us) us (· = align) := by
  cases align with
  | none => exact takes_optional_none (refuses_bind (refuses_expect hend)) rfl
  | some a =>
    change Takes _ (.comma :: .word "align" :: .int a :: us) _ _
    refine takes_optional_some (takes_past (takes_past (takes_bind takes_integer fun v hv => takes_pure ?_)))
    have := ha a rfl
    simp only [hv, Int.toNat_natCast, Option.some.injEq]
    omega

theorem takes_labelRef : Takes labelRef (.word "label" :: .loc n :: us) us fun x => x.name = n :=
  takes_past takes_localName

/-- Two values behind their type. -/
theorem takes_pair {lhs rhs : ValueExpr} {Q : α → Prop}
    {f : TypeExpr → ValueExpr × ValueExpr → Parser α} (hty : ty.Valid)
    (hf : ∀ t vs, t.erase = ty.erase → vs.1.erase = lhs.erase → vs.2.erase = rhs.erase → Takes (f t vs) us us Q) :
    Takes (type >>= fun t => valuePair >>= f t) (tokensOf (pairAtoms ty lhs rhs) ++ us) us Q := by
  rw [show tokensOf (pairAtoms ty lhs rhs) ++ us = tokensOf ty.atoms ++ lhs.token :: .comma :: rhs.token :: us by
    simp [pairAtoms]]
  refine takes_bind (takes_type hty (by simp [ValueExpr.token_ne_star])) fun t ht => ?_
  have hvalues : Takes valuePair (lhs.token :: .comma :: rhs.token :: us) us
      fun e => e.1.erase = lhs.erase ∧ e.2.erase = rhs.erase :=
    takes_bind takes_value fun l hl => takes_past (takes_bind takes_value fun r hr => takes_pure ⟨hl, hr⟩)
  exact takes_bind hvalues fun vs hvs => hf t vs ht hvs.1 hvs.2

/-- A value behind its type, and the type it is turned into. -/
theorem takes_conversion {src dst : TypeExpr} {Q : α → Prop}
    {f : TypeExpr → ValueExpr → TypeExpr → Parser α} (hsrc : src.Valid) (hdst : dst.Valid)
    (hend : us.head? ≠ some .star)
    (hf : ∀ s w d, s.erase = src.erase → w.erase = v.erase → d.erase = dst.erase → Takes (f s w d) us us Q) :
    Takes (type >>= fun s => value >>= fun w => keyword "to" >>= fun _ => type >>= f s w)
      (tokensOf (Typed.atoms ⟨src, v⟩ ++ blank :: plain "to" :: blank :: dst.atoms) ++ us) us Q := by
  rw [show tokensOf (Typed.atoms ⟨src, v⟩ ++ blank :: plain "to" :: blank :: dst.atoms) ++ us =
    tokensOf src.atoms ++ v.token :: .word "to" :: (tokensOf dst.atoms ++ us) by simp [Typed.atoms]]
  refine takes_type_value hsrc fun s w hs hw => takes_past ?_
  exact takes_bind (takes_type hdst hend) fun d hd => hf s w d hs hw hd

/-- Values with their types in parentheses. -/
theorem takes_arguments {args : List Typed} (hargs : ∀ a ∈ args, a.ty.Valid) :
    Takes (parenthesized typed) (.lparen :: (tokensOf (joined commaBlank (args.map Typed.atoms)) ++ .rparen :: us)) us
      fun es => es.map Typed.erase = args.map Typed.erase := by
  rw [tokensOf_commas]
  exact takes_between (takes_commaList (F := fun _ => True) (fun a ha vs _ => takes_typed (hargs a ha)) (by simp)
    (by simp) (by grind))

/-! ## 5. Instructions -/

/-- What may follow an instruction: no comma and no star. -/
def Ends (us : List Token) : Prop := us.head? ≠ some .comma ∧ us.head? ≠ some .star

theorem BinaryOp.ofName?_name (op : BinaryOp) : BinaryOp.ofName? op.name = some op := by
  cases op <;> decide

theorem CastOp.ofName?_name (op : CastOp) : CastOp.ofName? op.name = some op := by
  cases op <;> decide

theorem IntPredicate.ofName?_name (p : IntPredicate) : IntPredicate.ofName? p.name = some p := by
  cases p <;> decide

theorem FloatPredicate.ofName?_name (p : FloatPredicate) : FloatPredicate.ofName? p.name = some p := by
  cases p <;> decide

/-- An instruction of the list of indices: a comma and a value with its type. -/
theorem takes_indices {indices : List Typed} (hi : ∀ i ∈ indices, i.ty.Valid) (hend : us.head? ≠ some .comma) :
    Takes (many (do expect .comma; typed))
      (tokensOf (indices.flatMap fun i => .tok .comma :: blank :: i.atoms) ++ us) us
      fun es => es.map Typed.erase = indices.map Typed.erase := by
  rw [show tokensOf (indices.flatMap fun i => .tok .comma :: blank :: i.atoms) =
    indices.flatMap (fun i => .comma :: tokensOf i.atoms) by simp]
  exact takes_many (F := fun _ => True) (by simp) (fun i hmem vs _ => takes_past (takes_typed (hi i hmem))) (by simp)
    (refuses_bind (refuses_expect hend))

theorem takes_incoming {vl : ValueExpr × Ident} : Takes incoming (tokensOf (incomingAtoms vl) ++ us) us
    fun e => (e.1.erase, e.2.erase) = (vl.1.erase, vl.2.erase) := by
  change Takes _ (.lbracket :: vl.1.token :: .comma :: .loc vl.2.name :: .rbracket :: us) _ _
  refine takes_between (takes_bind takes_value fun v hv => takes_past ?_)
  refine takes_bind takes_localName fun l hl => takes_pure ?_
  simp [hv, hl]

/-- The forms of instructions with a result, each with the words that it starts with. -/
def valuedForms : List (Parser InstExpr × (String → Bool)) := [
  (binaryInst, fun w => (BinaryOp.ofName? w).isSome),
  (fnegInst, (· == "fneg")),
  (castInst, fun w => (CastOp.ofName? w).isSome),
  (bitcastInst, (· == "bitcast")),
  (allocaInst, (· == "alloca")),
  (loadInst, (· == "load")),
  (elementPtrInst, (· == "getelementptr")),
  (callInst, (· == "call")),
  (icmpInst, (· == "icmp")),
  (fcmpInst, (· == "fcmp")),
  (phiInst, (· == "phi"))]

theorem ledBy_valuedForms : ∀ f ∈ valuedForms, LedBy f.2 f.1 := by
  simp only [valuedForms, List.mem_cons, List.not_mem_nil, or_false, forall_eq_or_imp, forall_eq]
  exact ⟨ledBy_wordOf _ _, ledBy_keyword _ _, ledBy_wordOf _ _, ledBy_keyword _ _, ledBy_keyword _ _,
    ledBy_keyword _ _, ledBy_keyword _ _, ledBy_keyword _ _, ledBy_keyword _ _, ledBy_keyword _ _,
    ledBy_keyword _ _⟩

theorem takes_callInst {result : TypeExpr} {callee : Ident} {args : List Typed}
    (hv : (call result callee args).Valid ok) :
    Takes callInst (tokensOf (call result callee args).atoms ++ us) us
      fun e => e.erase = (call result callee args).erase := by
  rw [show tokensOf (call result callee args).atoms ++ us = .word "call" :: (tokensOf result.atoms ++
    .glob callee.name :: .lparen :: (tokensOf (joined commaBlank (args.map Typed.atoms)) ++ .rparen :: us)) by
    simp [atoms]]
  refine takes_past (takes_bind (takes_type hv.1 (by simp)) fun t ht => ?_)
  refine takes_bind takes_globalName fun g hg => ?_
  refine takes_bind (takes_arguments fun a ha => (hv.2.2 a ha).ty) fun as has => takes_pure ?_
  simp [ht, hg, has]

theorem takes_elementPtrInst {inbounds : Bool} {source : TypeExpr} {base : Typed}
    {indices : List Typed} (hv : (elementPtr inbounds source base indices).Valid ok)
    (hend : us.head? ≠ some .comma) :
    Takes elementPtrInst (tokensOf (elementPtr inbounds source base indices).atoms ++ us) us
      fun e => e.erase = (elementPtr inbounds source base indices).erase := by
  obtain ⟨hsource, hbase, hindices⟩ := hv
  set rest := tokensOf (indices.flatMap fun i => .tok .comma :: blank :: i.atoms) ++ us with hrest
  rw [show tokensOf (elementPtr inbounds source base indices).atoms ++ us = .word "getelementptr" ::
    ((if inbounds then [.word "inbounds"] else []) ++ (tokensOf source.atoms ++ .comma :: (tokensOf base.atoms ++ rest)))
    by cases inbounds <;> simp [atoms, hrest]]
  have hinbounds : Takes (optional (keyword "inbounds")) ((if inbounds then [.word "inbounds"] else []) ++
      (tokensOf source.atoms ++ .comma :: (tokensOf base.atoms ++ rest)))
      (tokensOf source.atoms ++ .comma :: (tokensOf base.atoms ++ rest)) fun o => o.isSome = inbounds := by
    cases inbounds with
    | true => exact takes_optional_some (takes_expect.imp fun _ _ => rfl)
    | false =>
      -- no type is written with this word
      refine takes_optional_none (refuses_keyword ?_) rfl
      obtain ⟨first, rest, htokens, hfirst⟩ := hsource.head
      intro hhead
      obtain rfl : first = .word "inbounds" := by simpa [htokens] using hhead
      simp [Token.startsType, scalarType?, Text.decimal?] at hfirst
  refine takes_past (takes_bind hinbounds fun o ho => ?_)
  refine takes_bind (takes_type hsource (by simp)) fun t ht => takes_past ?_
  refine takes_bind (takes_typed hbase.ty) fun b hb => ?_
  refine takes_bind (takes_indices (fun i hi => (hindices i hi).ty) hend) fun is his => takes_pure ?_
  simp [ho, ht, hb, his]

theorem takes_phiInst {pairs : List (ValueExpr × Ident)}
    (hv : (phi ty pairs).Valid ok) (hend : us.head? ≠ some .comma) :
    Takes phiInst (tokensOf (phi ty pairs).atoms ++ us) us
      fun e => e.erase = (phi ty pairs).erase := by
  obtain ⟨hty, hne, -⟩ := hv
  obtain ⟨vl, rest, rfl⟩ := List.exists_cons_of_ne_nil hne
  rw [show tokensOf (phi ty (vl :: rest)).atoms ++ us = .word "phi" :: (tokensOf ty.atoms ++
    (commaTokens (fun vl => tokensOf (incomingAtoms vl)) (vl :: rest) ++ us)) by
    rw [atoms, ← tokensOf_commas]
    simp]
  refine takes_past (takes_bind (takes_type hty (by simp [commaTokens, incomingAtoms])) fun t ht => ?_)
  refine takes_bind (takes_sepBy1 (F := fun _ => True) (fun y _ vs _ => takes_incoming) (by simp) hend)
    fun ps hps => takes_pure ?_
  simp only [erase, ht, hps]

/-- The first token of an instruction is its word. -/
theorem InstExpr.head_tokens (e : InstExpr) : ∃ w rest, tokensOf e.atoms = .word w :: rest := by
  cases e with
  | ret v => cases v <;> exact ⟨_, _, rfl⟩
  | _ => exact ⟨_, _, rfl⟩

/-- An instruction that may have a result is read by its form. -/
theorem takes_valued {e : InstExpr} (hv : e.Valid ok) (he : e.isValued = true)
    (hend : Ends us) :
    Takes (choice (valuedForms.map Prod.fst)) (tokensOf e.atoms ++ us) us fun e' => e'.erase = e.erase := by
  cases e with
  | binary op ty lhs rhs =>
    refine takes_form ledBy_valuedForms 0 rfl (by simp) ?_
    refine takes_bind (takes_wordOf (BinaryOp.ofName?_name op)) fun op' hop => ?_
    refine takes_pair hv.1 fun t vs ht hl hr => takes_pure ?_
    simp [hop, ht, hl, hr]
  | fneg ty v =>
    rw [show tokensOf (fneg ty v).atoms ++ us = .word "fneg" :: (tokensOf ty.atoms ++ v.token :: us) by
      simp [atoms, Typed.atoms]]
    refine takes_form ledBy_valuedForms 1 rfl (by decide) (takes_past ?_)
    refine takes_type_value hv.1 fun t w ht hw => takes_pure ?_
    simp [ht, hw]
  | cast op src v dst =>
    refine takes_form ledBy_valuedForms 2 rfl (by cases op <;> decide) ?_
    refine takes_bind (takes_wordOf (CastOp.ofName?_name op)) fun op' hop => ?_
    refine takes_conversion hv.1 hv.2.2 hend.2 fun s w d hs hw hd => takes_pure ?_
    simp [hop, hs, hw, hd]
  | bitcast src v dst =>
    refine takes_form ledBy_valuedForms 3 rfl (by decide) (takes_past ?_)
    refine takes_conversion hv.1 hv.2.2 hend.2 fun s w d hs hw hd => takes_pure ?_
    simp [hs, hw, hd]
  | alloca ty align =>
    rw [show tokensOf (alloca ty align).atoms ++ us = .word "alloca" :: (tokensOf ty.atoms ++
      (tokensOf (alignAtoms align) ++ us)) by simp [atoms]]
    have hstar : (tokensOf (alignAtoms align) ++ us).head? ≠ some .star := by
      cases align with
      | none => simpa [alignAtoms] using hend.2
      | some a => simp [alignAtoms]
    refine takes_form ledBy_valuedForms 4 rfl (by decide) (takes_past ?_)
    refine takes_bind (takes_type hv.1 hstar) fun t ht => ?_
    refine takes_bind (takes_alignment hv.2 hend.1) fun a ha => takes_pure ?_
    simp [ht, ha]
  | load ty ptr align =>
    rw [show tokensOf (load ty ptr align).atoms ++ us = .word "load" :: (tokensOf ty.atoms ++ .comma ::
      (tokensOf ptr.atoms ++ (tokensOf (alignAtoms align) ++ us))) by simp [atoms]]
    refine takes_form ledBy_valuedForms 5 rfl (by decide) (takes_past ?_)
    refine takes_bind (takes_type hv.1 (by simp)) fun t ht => takes_past ?_
    refine takes_bind (takes_typed hv.2.1.ty) fun p hp => ?_
    refine takes_bind (takes_alignment hv.2.2 hend.1) fun a ha => takes_pure ?_
    simp [ht, hp, ha]
  | elementPtr inbounds source base indices =>
    exact takes_form ledBy_valuedForms 6 rfl (by decide) (takes_elementPtrInst hv hend.1)
  | call result callee args =>
    exact takes_form ledBy_valuedForms 7 rfl (by decide) (takes_callInst hv)
  | icmp pred ty lhs rhs =>
    refine takes_form ledBy_valuedForms 8 rfl (by decide) (takes_past ?_)
    refine takes_bind (takes_wordOf (IntPredicate.ofName?_name pred)) fun p hp => ?_
    refine takes_pair hv.1 fun t vs ht hl hr => takes_pure ?_
    simp [hp, ht, hl, hr]
  | fcmp pred ty lhs rhs =>
    refine takes_form ledBy_valuedForms 9 rfl (by decide) (takes_past ?_)
    refine takes_bind (takes_wordOf (FloatPredicate.ofName?_name pred)) fun p hp => ?_
    refine takes_pair hv.1 fun t vs ht hl hr => takes_pure ?_
    simp [hp, ht, hl, hr]
  | phi ty incoming =>
    exact takes_form ledBy_valuedForms 10 rfl (by decide) (takes_phiInst hv hend.1)
  | _ => simp [isValued] at he

/-- A type that does not start with `void` is not written with that word in front. -/
theorem TypeExpr.Valid.head_ne_void (h : t.Valid) (hvoid : t.startsVoid = false)
    (us : List Token) : (tokensOf t.atoms ++ us).head? ≠ some (.word "void") := by
  induction h generalizing us with
  | void => simp [TypeExpr.startsVoid] at hvoid
  | @int bits _ =>
    intro heq
    have hword : "i" ++ Nat.repr bits = "void" := by simpa [TypeExpr.atoms] using heq
    have := congrArg (fun s => s.toList.head?) hword
    simp at this
  | ptr _ ih => simpa [TypeExpr.atoms] using ih hvoid (.star :: us)
  | _ => simp [TypeExpr.atoms]

theorem takes_retInst {v : Option Typed} (hv : (ret v).Valid ok) :
    Takes retInst (tokensOf (ret v).atoms ++ us) us fun e => e.erase = (ret v).erase := by
  cases v with
  | none => exact takes_past (takes_choice 0 rfl (by grind) (takes_past (takes_pure rfl)))
  | some t =>
    obtain ⟨ht, hvoid⟩ := hv t rfl
    have hhead : (tokensOf t.atoms ++ us).head? ≠ some (.word "void") := by
      simpa [Typed.atoms] using ht.ty.head_ne_void hvoid (t.value.token :: us)
    refine takes_past (takes_choice 1 rfl (List.forall_mem_singleton.2 (refuses_bind (refuses_keyword hhead)))
      (takes_bind (takes_typed ht.ty) fun e he => takes_pure ?_))
    simp [he]

/-- An instruction that may stand without a result is read by its form. -/
theorem takes_unvalued {e : InstExpr} (hv : e.Valid ok) (he : e.isUnvalued = true)
    (hend : Ends us) :
    Takes (choice [storeInst, branchInst, retInst, callInst]) (tokensOf e.atoms ++ us) us fun e' => e'.erase = e.erase := by
  cases e with
  | store v ptr align =>
    rw [show tokensOf (store v ptr align).atoms ++ us = .word "store" :: (tokensOf v.atoms ++ .comma ::
      (tokensOf ptr.atoms ++ (tokensOf (alignAtoms align) ++ us))) by simp [atoms]]
    refine takes_choice 0 rfl (by grind) (takes_past ?_)
    refine takes_bind (takes_typed hv.1.ty) fun t ht => takes_past ?_
    refine takes_bind (takes_typed hv.2.1.ty) fun p hp => ?_
    refine takes_bind (takes_alignment hv.2.2 hend.1) fun a ha => takes_pure ?_
    simp [ht, hp, ha]
  | br target =>
    change Takes _ (.word "br" :: _) _ _
    refine takes_choice 1 rfl (by grind) (takes_past (takes_choice 0 rfl (by grind) ?_))
    refine takes_bind takes_labelRef fun x hx => takes_pure ?_
    simp [hx]
  | condBr cond t e =>
    change Takes _ (.word "br" :: .word "i1" :: cond.token :: .comma :: .word "label" :: .loc t.name :: .comma ::
      .word "label" :: .loc e.name :: us) _ _
    refine takes_choice 1 rfl (by grind) (takes_past (takes_choice 1 rfl (by grind) ?_))
    refine takes_past (takes_bind takes_value fun v hc => takes_past ?_)
    refine takes_bind takes_labelRef fun x hx => takes_past ?_
    refine takes_bind takes_labelRef fun y hy => takes_pure ?_
    simp [hc, hx, hy]
  | ret v =>
    obtain ⟨rest, hrest⟩ : ∃ rest, tokensOf (ret v).atoms ++ us = .word "ret" :: rest := by
      cases v <;> exact ⟨_, rfl⟩
    exact takes_choice 2 rfl (by grind) (takes_retInst hv)
  | call result callee args =>
    have hhead : (tokensOf (call result callee args).atoms ++ us).head? = some (.word "call") := rfl
    exact takes_choice 3 rfl (by grind) (takes_callInst hv)
  | _ => simp [isUnvalued] at he

/-! ## 6. Blocks -/

/-- What may follow a line: nothing that carries an instruction on. -/
def EndsLine (us : List Token) : Prop := Ends us ∧ us.head? ≠ some .metaDbg

theorem takes_debugBinding {dbg : Option (String × String)} (hend : us.head? ≠ some .metaDbg) :
    Takes debugBinding (tokensOf (debugAtoms dbg) ++ us) us (· = dbg) := by
  cases dbg with
  | none => exact takes_optional_none (refuses_bind (refuses_expect hend)) rfl
  | some d =>
    refine takes_optional_some (takes_past (takes_between (takes_bind takes_string fun a ha => takes_past ?_)))
    refine takes_bind takes_string fun b hb => takes_pure ?_
    rw [ha, hb]

theorem takes_instruction {i : InstDef} (hv : i.Valid ok) (hend : EndsLine us) :
    Takes instruction (tokensOf i.atoms ++ us) us fun e => e.erase = i.erase := by
  have hnote : Ends (tokensOf (debugAtoms i.dbg) ++ us) := by
    cases hd : i.dbg with
    | none => simpa [debugAtoms] using hend.1
    | some d => exact ⟨by simp [debugAtoms], by simp [debugAtoms]⟩
  have hinst : Takes (orElse valuedInst unvaluedInst) (tokensOf i.atoms ++ us) (tokensOf (debugAtoms i.dbg) ++ us)
      fun e => e.1.map Ident.erase = i.result.map Ident.erase ∧ e.2.erase = i.kind.erase := by
    cases hr : i.result with
    | some x =>
      rw [show tokensOf i.atoms ++ us = .loc x.name :: .equals :: (tokensOf i.kind.atoms ++
        (tokensOf (debugAtoms i.dbg) ++ us)) by simp [InstDef.atoms, resultAtoms, hr]]
      refine takes_orElse_left (takes_bind takes_localName fun y hy => takes_past ?_)
      refine takes_bind (takes_valued hv.kind (hv.result x hr).2 hnote) fun k hk => ?_
      exact takes_pure ⟨by simp [hy], hk⟩
    | none =>
      rw [show tokensOf i.atoms ++ us = tokensOf i.kind.atoms ++ (tokensOf (debugAtoms i.dbg) ++ us) by
        simp [InstDef.atoms, resultAtoms, hr]]
      obtain ⟨w, rest, hword⟩ := i.kind.head_tokens
      refine takes_orElse_right (refuses_bind (refuses_localName (by simp [hword]))) ?_
      exact takes_bind (takes_unvalued hv.kind (hv.unvalued hr) hnote) fun k hk => takes_pure ⟨rfl, hk⟩
  have hline : Takes (spanned do
      let inst ← orElse valuedInst unvaluedInst
      let dbg ← debugBinding
      pure (inst, dbg)) (tokensOf i.atoms ++ us) us fun e => e.1.1.1.map Ident.erase = i.result.map Ident.erase ∧
        e.1.1.2.erase = i.kind.erase ∧ e.1.2 = i.dbg :=
    takes_spanned (takes_bind hinst fun e he => takes_bind (takes_debugBinding hend.2) fun d hd =>
      takes_pure fun _ => ⟨he.1, he.2, hd⟩)
  refine takes_bind hline fun e he => takes_pure ?_
  simp only [InstDef.erase, he.1, he.2.1, he.2.2]

/-- Where a block ends, no instruction starts. -/
def EndsBlock (us : List Token) : Prop :=
  us.head? = some .rbrace ∨ ∃ w rest, us = .word w :: .colon :: rest

theorem EndsBlock.endsLine (h : EndsBlock us) : EndsLine us := by
  obtain h | ⟨w, rest, rfl⟩ := h
  · exact ⟨⟨by simp [h], by simp [h]⟩, by simp [h]⟩
  · exact ⟨⟨by simp, by simp⟩, by simp⟩

/-- A keyword is refused where a block ends if what follows it is refused at a colon. -/
theorem EndsBlock.refuses (h : EndsBlock us) {f : Unit → Parser α}
    (hf : ∀ rest, Refuses (f ()) (.colon :: rest)) : Refuses (keyword w >>= f) us := by
  obtain h | ⟨v, rest, rfl⟩ := h
  · exact refuses_bind (refuses_keyword (by simp [h]))
  · by_cases hw : v = w
    · subst hw
      exact refuses_bind_of_takes takes_expect fun _ => hf rest
    · exact refuses_bind (refuses_keyword (by simpa using hw))

/-- A label may be a word that starts instructions, but none of them goes on with a colon. -/
theorem refuses_instruction (h : EndsBlock us) : Refuses instruction us := by
  refine refuses_bind (refuses_spanned (refuses_bind (refuses_orElse ?_ (refuses_bind (refuses_choice ?_)))))
  · grind [EndsBlock, valuedInst]
  simp only [List.mem_cons, List.not_mem_nil, or_false, forall_eq_or_imp, forall_eq]
  exact ⟨h.refuses (by grind), h.refuses (by grind), h.refuses (by grind), h.refuses (by grind)⟩

theorem InstDef.head_tokens (i : InstDef) (us : List Token) :
    EndsLine (tokensOf i.atoms ++ us) ∧ tokensOf i.atoms ≠ [] := by
  obtain ⟨w, rest, hword⟩ := i.kind.head_tokens
  cases hr : i.result with
  | none => simp [InstDef.atoms, resultAtoms, hr, hword, EndsLine, Ends]
  | some x => simp [InstDef.atoms, resultAtoms, hr, EndsLine, Ends]

theorem tokensOf_block (b : BlockDef) :
    tokensOf b.atoms = .word b.label.name :: .colon :: b.insts.flatMap fun i => tokensOf i.atoms := by
  simp [BlockDef.atoms]

theorem takes_block {b : BlockDef} (hv : b.Valid ok) (hend : EndsBlock us) :
    Takes block (tokensOf b.atoms ++ us) us fun e => e.erase = b.erase := by
  rw [tokensOf_block]
  have hword : Takes (spanned do
      let w ← wordOf some
      expect .colon
      pure w) (.word b.label.name :: .colon :: ((b.insts.flatMap fun i => tokensOf i.atoms) ++ us))
      ((b.insts.flatMap fun i => tokensOf i.atoms) ++ us) fun e => e.1 = b.label.name :=
    takes_spanned (takes_bind (takes_wordOf rfl) fun w hw => takes_past (takes_pure fun _ => hw))
  have hlabel : Takes blockLabel _ _ fun x => x.name = b.label.name := takes_bind hword fun e he => takes_pure he
  refine takes_bind hlabel fun x hx => ?_
  refine takes_bind (takes_many (F := EndsLine) (fun i _ => (i.head_tokens []).2)
    (fun i hi vs hvs => takes_instruction (hv.insts i hi) hvs)
    ⟨hend.endsLine, fun i _ vs => (i.head_tokens vs).1⟩ (refuses_instruction hend)) fun is his => takes_pure ?_
  simp [BlockDef.erase, hx, his]

/-! ## 7. Items -/

theorem takes_globalInit {i : GlobalInitExpr} : Takes globalInit (tokensOf i.atoms ++ us) us (· = i) := by
  cases i with
  | scalar l =>
    exact takes_choice 0 rfl (by grind) (takes_bind takes_literal fun l' hl => takes_pure (by rw [hl]))
  | array ls =>
    rw [show tokensOf (GlobalInitExpr.array ls).atoms ++ us =
      .lbracket :: (commaTokens (fun l => [l.token]) ls ++ .rbracket :: us) by
      simp [GlobalInitExpr.atoms, tokensOf_commas]]
    refine takes_choice 1 rfl (by grind) (takes_bind (takes_between (takes_commaList (f := id) (g := id) (F := fun _ => True)
      (fun l _ vs _ => takes_literal) (by simp) (by simp) (refuses_token (by simp)))) fun as has => takes_pure ?_)
    simpa using has

theorem takes_rangeMark {range : Option String} (hend : us.head? ≠ some .metaRange) :
    Takes (optional do
      expect .metaRange
      between .lparen .rparen stringLiteral) (tokensOf (rangeAtoms range) ++ us) us (· = range) := by
  cases range with
  | none => exact takes_optional_none (refuses_bind (refuses_expect hend)) rfl
  | some r => exact takes_optional_some (takes_past (takes_between (takes_string.imp fun s hs => by rw [hs])))

theorem takes_params {params : List (TypeExpr × Ident)} (hv : ∀ p ∈ params, p.1.Valid) :
    Takes (parenthesized do
      let ty ← type
      let n ← localName
      pure (ty, n)) (.lparen :: (tokensOf (joined commaBlank (params.map paramAtoms)) ++ .rparen :: us)) us
      fun es => es.map (fun p => (p.1.erase, p.2.erase)) = params.map fun p => (p.1.erase, p.2.erase) := by
  rw [tokensOf_commas]
  refine takes_between (takes_commaList (F := fun _ => True) (fun p hp vs _ => ?_) (by simp) (by simp)
    (by grind))
  rw [show tokensOf (paramAtoms p) ++ vs = tokensOf p.1.atoms ++ .loc p.2.name :: vs by simp [paramAtoms]]
  refine takes_bind (takes_type (hv p hp) (by simp)) fun t ht => ?_
  refine takes_bind takes_localName fun n hn => takes_pure ?_
  simp [ht, hn]

theorem takes_blocks {blocks : List BlockDef} (hv : ∀ b ∈ blocks, b.Valid ok) :
    Takes (between .lbrace .rbrace (many block))
      (.lbrace :: ((blocks.flatMap fun b => tokensOf b.atoms) ++ .rbrace :: us)) us
      fun es => es.map BlockDef.erase = blocks.map BlockDef.erase := by
  refine takes_between (takes_many (F := EndsBlock) (fun b _ => by simp [tokensOf_block])
    (fun b hb vs hvs => takes_block (hv b hb) hvs)
    ⟨.inl rfl, fun b _ vs => .inr ⟨b.label.name, _, by rw [tokensOf_block]; rfl⟩⟩ ?_)
  exact refuses_bind (refuses_bind (refuses_spanned (refuses_bind (refuses_token (by simp)))))

theorem takes_defineItem {f : FunctionDef} (hv : f.Valid ok) :
    Takes defineItem (tokensOf f.atoms ++ us) us fun e => e.erase = (Item.define f).erase := by
  rw [show tokensOf f.atoms ++ us = .word "define" :: (tokensOf f.ret.atoms ++ .glob f.name.name :: .lparen ::
    (tokensOf (joined commaBlank (f.params.map paramAtoms)) ++ .rparen :: (tokensOf (rangeAtoms f.range) ++
      .lbrace :: ((f.blocks.flatMap fun b => tokensOf b.atoms) ++ .rbrace :: us)))) by
    simp [FunctionDef.atoms, newline, tokensOf_joined_gap]]
  refine takes_bind (P := fun e => (e.1 e.2).erase = f.erase) (takes_spanned (takes_past ?_)) fun e he => takes_pure ?_
  · refine takes_bind (takes_type hv.ret (by simp)) fun t ht => ?_
    refine takes_bind takes_globalName fun g hg => ?_
    refine takes_bind (takes_params fun p hp => (hv.params p hp).1) fun ps hps => ?_
    refine takes_bind (takes_rangeMark (by simp)) fun r hr => ?_
    refine takes_bind (takes_blocks hv.blocks) fun bs hbs => takes_pure fun _ => ?_
    have hname : g.erase = f.name.erase := by simp [hg]
    simp only [FunctionDef.erase, hname, ht, hps, hr, hbs]
  · simp only [Item.erase, he]

theorem takes_typeDefItem {t : TypeDef} (hv : ∀ f ∈ t.fields, f.Valid) :
    Takes typeDefItem (.loc t.name.name :: .equals :: .word "type" :: (tokensOf (fieldsAtoms t.fields) ++ us)) us
      fun e => e.erase = (Item.typeDef t).erase := by
  refine takes_bind takes_localName fun x hx => takes_past (takes_past ?_)
  refine takes_bind (takes_fields (fun f hf vs hvs => takes_type (hv f hf) hvs)
    fun us => by grind) fun fs hfs => takes_pure ?_
  simp [Item.erase, hx, hfs]

theorem takes_globalDefItem {g : GlobalDef} (hty : g.ty.Valid) :
    Takes globalDefItem (.glob g.name.name :: .equals :: .word (if g.isConstant then "constant" else "global") ::
      (tokensOf g.ty.atoms ++ (tokensOf g.init.atoms ++ us))) us fun e => e.erase = (Item.globalDef g).erase := by
  have hinit : (tokensOf g.init.atoms ++ us).head? ≠ some .star := by
    cases g.init with
    | scalar l => cases l <;> simp [GlobalInitExpr.atoms, Literal.token]
    | array ls => simp [GlobalInitExpr.atoms]
  have hconstant (us : List Token) : Takes (choice [
      do keyword "global"; pure false,
      do keyword "constant"; pure true]) (.word (if g.isConstant then "constant" else "global") :: us) us
      (· = g.isConstant) := by
    cases g.isConstant with
    | false => exact takes_choice 0 rfl (by grind) (takes_past (takes_pure rfl))
    | true => exact takes_choice 1 rfl (by grind) (takes_past (takes_pure rfl))
  refine takes_bind takes_globalName fun x hx => takes_past (takes_bind (hconstant _) fun b hb => ?_)
  refine takes_bind (takes_type hty hinit) fun t ht => ?_
  refine takes_bind takes_globalInit fun i hi => takes_pure ?_
  simp [Item.erase, hx, hb, ht, hi]

theorem takes_declareItem {d : DeclareDef} (hret : d.ret.Valid) (hparams : ∀ p ∈ d.params, p.Valid) :
    Takes declareItem (.word "declare" :: (tokensOf d.ret.atoms ++ .glob d.name.name :: .lparen ::
      (commaTokens (fun t => tokensOf t.atoms) d.params ++ .rparen :: us))) us
      fun e => e.erase = (Item.declare d).erase := by
  refine takes_past (takes_bind (takes_type hret (by simp)) fun t ht => ?_)
  refine takes_bind takes_globalName fun g hg => ?_
  refine takes_bind (takes_between (takes_commaList (f := TypeExpr.erase) (g := TypeExpr.erase)
    (F := fun vs => vs.head? ≠ some .star ∧ ∀ n, vs.head? ≠ some (.loc n)) (fun p hp vs hvs => ?_)
    ⟨by simp, by simp⟩ (by simp) (by grind)))
    fun ps hps => takes_pure ?_
  · refine takes_bind (takes_type (hparams p hp) hvs.1) fun t ht => ?_
    exact takes_bind (takes_optional_none (Q := fun _ => True) (refuses_localName hvs.2) trivial) fun _ _ => takes_pure ht
  · simp [Item.erase, ht, hg, hps]

theorem takes_item {i : Item} (hv : i.Valid ok) :
    Takes item (tokensOf i.atoms ++ us) us fun e => e.erase = i.erase := by
  cases i with
  | dataLayout s =>
    refine takes_choice 0 rfl (by grind) (takes_past (takes_past (takes_past (takes_bind takes_string fun r hr => ?_))))
    exact takes_pure (by rw [hr])
  | typeDef t =>
    rw [show tokensOf (Item.typeDef t).atoms ++ us = .loc t.name.name :: .equals :: .word "type" ::
      (tokensOf (fieldsAtoms t.fields) ++ us) by simp [Item.atoms]]
    exact takes_choice 1 rfl (by grind) (takes_typeDefItem hv.2)
  | globalDef g =>
    rw [show tokensOf (Item.globalDef g).atoms ++ us = .glob g.name.name :: .equals ::
      .word (if g.isConstant then "constant" else "global") ::
      (tokensOf g.ty.atoms ++ (tokensOf g.init.atoms ++ us)) by simp [Item.atoms]]
    exact takes_choice 2 rfl (by grind) (takes_globalDefItem hv.2.1)
  | declare d =>
    rw [show tokensOf (Item.declare d).atoms ++ us = .word "declare" :: (tokensOf d.ret.atoms ++ .glob d.name.name ::
      .lparen :: (commaTokens (fun t => tokensOf t.atoms) d.params ++ .rparen :: us)) by
      simp [Item.atoms, tokensOf_commas]]
    exact takes_choice 3 rfl (by grind) (takes_declareItem hv.2.1 hv.2.2)
  | define f =>
    have hhead : (tokensOf (Item.define f).atoms ++ us).head? = some (.word "define") := rfl
    exact takes_choice 4 rfl (by grind) (takes_defineItem hv)

theorem refuses_item : Refuses item [] := refuses_choice (by grind)

theorem Item.tokens_ne_nil (i : Item) : tokensOf i.atoms ≠ [] := by
  cases i <;> simp [Item.atoms, FunctionDef.atoms]

theorem takes_items {all : List Item} (hv : ∀ i ∈ all, i.Valid ok) :
    Takes items (all.flatMap fun i => tokensOf i.atoms) [] fun es => es.map Item.erase = all.map Item.erase := by
  have hmany : Takes (many item) ((all.flatMap fun i => tokensOf i.atoms) ++ []) []
      fun es => es.map Item.erase = all.map Item.erase :=
    takes_many (F := fun _ => True) (fun i _ => i.tokens_ne_nil) (fun i hi vs _ => takes_item (hv i hi)) (by simp)
      refuses_item
  rw [List.append_nil] at hmany
  have hend : Takes endOfSource [] [] fun _ => True := by
    intro c hc
    have hrest : c.rest = [] := List.map_eq_nil_iff.1 hc
    exact ⟨(), c, by simp [endOfSource, hrest], hc, trivial⟩
  exact takes_bind hmany fun es hes => takes_bind hend fun _ _ => takes_pure hes

/-- A source that spells the tokens of valid items is read as these items, up to
the places of their names. -/
theorem readModule_of_spells {all : List Item} (hv : ∀ i ∈ all, i.Valid ok)
    {source : String} (h : Spells source.toList (all.flatMap fun i => tokensOf i.atoms)) :
    ∃ es, readModule source = .ok es ∧ es.map Item.erase = all.map Item.erase := by
  obtain ⟨hstrays, htokens⟩ := h.lex_eq
  obtain ⟨es, c', ho, -, hes⟩ := takes_items hv ⟨(lex source).lexemes, 0, 0⟩ htokens
  exact ⟨es, by simp [readModule, ho, hstrays], hes⟩

end RangedIR.Source
