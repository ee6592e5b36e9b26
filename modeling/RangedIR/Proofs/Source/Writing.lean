/-
RangedIR.Proofs.Source.Writing — trees as written text.

Every construct of the grammar is laid out as a list of atoms, the way modules
are printed. A tree is valid if it has the form in which trees come out of the
grammar: integer types of one to 64 bits, alignments of 32 bits, phis with a
value, names and texts that can be written at all. The layout of a valid tree is
`Fit`: each atom is good and none runs into the next.
-/
import RangedIR.Proofs.Source.Spelling
import RangedIR.Source.Grammar

namespace RangedIR.Source

open Token

/-! ## 1. Layouts -/

/-- Atoms that read back as their tokens. -/
def Fit (atoms : List Atom) : Prop := (∀ a ∈ atoms, a.Good) ∧ atoms.IsChain Atom.Apart

/-- The tokens of a layout. -/
def tokensOf (atoms : List Atom) : List Token := atoms.filterMap Atom.token?

/-- The text of a layout. -/
def render (atoms : List Atom) : List Char := atoms.flatMap Atom.chars

/-- Lists of atoms with a separator between them. -/
def joined (sep : List Atom) : List (List Atom) → List Atom
  | [] => []
  | [a] => a
  | a :: rest => a ++ (sep ++ joined sep rest)

@[simp] theorem tokensOf_nil : tokensOf [] = [] := rfl

@[simp] theorem tokensOf_gap (blank : List Char) (as : List Atom) :
    tokensOf (.gap blank :: as) = tokensOf as := rfl

@[simp] theorem tokensOf_tok (t : Token) (as : List Atom) :
    tokensOf (.tok t :: as) = t :: tokensOf as := rfl

@[simp] theorem tokensOf_append (as bs : List Atom) :
    tokensOf (as ++ bs) = tokensOf as ++ tokensOf bs := List.filterMap_append

@[simp] theorem render_nil : render [] = [] := rfl

@[simp] theorem render_gap (blank : List Char) (as : List Atom) :
    render (.gap blank :: as) = blank ++ render as := rfl

@[simp] theorem render_tok (t : Token) (as : List Atom) :
    render (.tok t :: as) = t.spelling ++ render as := rfl

@[simp] theorem render_append (as bs : List Atom) : render (as ++ bs) = render as ++ render bs :=
  List.flatMap_append

variable {α : Type}

@[simp] theorem tokensOf_flatMap (f : α → List Atom) (l : List α) :
    tokensOf (l.flatMap f) = l.flatMap fun x => tokensOf (f x) := by
  induction l with
  | nil => rfl
  | cons x l ih => simp [ih]

@[simp] theorem render_flatMap (f : α → List Atom) (l : List α) :
    render (l.flatMap f) = l.flatMap fun x => render (f x) := by
  induction l with
  | nil => rfl
  | cons x l ih => simp [ih]

theorem joined_cons_cons (sep a b : List Atom) (rest : List (List Atom)) :
    joined sep (a :: b :: rest) = a ++ (sep ++ joined sep (b :: rest)) := rfl

theorem tokensOf_joined_gap (gap : List Char) (f : α → List Atom) (l : List α) :
    tokensOf (joined [.gap gap] (l.map f)) = l.flatMap fun x => tokensOf (f x) := by
  induction l with
  | nil => rfl
  | cons x l ih =>
    cases l with
    | nil => simp [joined]
    | cons y l =>
      simp only [List.map_cons] at ih ⊢
      rw [joined_cons_cons, tokensOf_append, tokensOf_append, ih]
      simp

theorem spells_of_fit {atoms : List Atom} (h : Fit atoms) : Spells (render atoms) (tokensOf atoms) :=
  spells_of_spaced h.1 h.2

variable {as bs : List Atom}

@[simp] theorem fit_nil : Fit [] := ⟨by simp, by simp⟩

@[simp] theorem fit_cons {a : Atom} : Fit (a :: as) ↔ a.Good ∧ Fit as ∧ ∀ b ∈ as.head?, a.Apart b := by
  simp only [Fit, List.mem_cons, forall_eq_or_imp, List.isChain_cons]
  tauto

@[simp] theorem fit_append :
    Fit (as ++ bs) ↔ Fit as ∧ Fit bs ∧ ∀ a ∈ as.getLast?, ∀ b ∈ bs.head?, a.Apart b := by
  simp only [Fit, List.mem_append, or_imp, forall_and, List.isChain_append]
  tauto

/-- No atom runs into a layout that starts with white space or a symbol. -/
def Detached (as : List Atom) : Prop := ∀ a ∈ as.head?, a.joins = false

@[simp] theorem detached_nil : Detached [] := by simp [Detached]

@[simp] theorem detached_cons {a : Atom} : Detached (a :: as) ↔ a.joins = false := by simp [Detached]

theorem Detached.apart (h : Detached bs) : ∀ a ∈ as.getLast?, ∀ b ∈ bs.head?, a.Apart b :=
  fun _ _ b hb _ => h b hb

theorem Fit.append (ha : Fit as) (hb : Fit bs) (h : Detached bs) : Fit (as ++ bs) :=
  fit_append.2 ⟨ha, hb, h.apart⟩

variable {l : List (List Atom)}

/-- Fit layouts stay fit with a separator that holds them apart. -/
theorem fit_joined {sep : List Atom} (hl : ∀ as ∈ l, Fit as)
    (hsep : Fit sep) (hfront : Detached sep) (hback : ∀ a ∈ sep.getLast?, a.runsOn = false)
    (hne : sep ≠ []) : Fit (joined sep l) := by
  induction l with
  | nil => exact fit_nil
  | cons a rest ih =>
    simp only [List.mem_cons, forall_eq_or_imp] at hl
    cases rest with
    | nil => exact hl.1
    | cons b rest =>
      rw [joined_cons_cons]
      refine hl.1.append (fit_append.2 ⟨hsep, ih hl.2, fun a ha b _ h => ?_⟩) ?_
      · simp [hback a ha] at h
      · obtain ⟨s, sep, rfl⟩ := List.exists_cons_of_ne_nil hne
        simpa using hfront

/-! ## 2. Pieces of layouts -/

/-- A single blank. -/
abbrev blank : Atom := .gap [' ']

/-- The end of a line. -/
abbrev newline : Atom := .gap ['\n']

/-- The blanks in front of an instruction. -/
abbrev indent : Atom := .gap [' ', ' ']

/-- Whether characters make a word. -/
def isWordText : List Char → Bool
  | [] => false
  | c :: cs => isWordStart c && cs.all isNameChar

theorem isWord_of_text {w : String} (h : isWordText w.toList = true) : IsWord w := by
  cases hw : w.toList with
  | nil => simp [hw, isWordText] at h
  | cons c cs => exact ⟨c, cs, hw, by simpa [hw, isWordText] using h⟩

/-- A plain word. -/
abbrev plain (w : String) : Atom := .tok (.word w)

/-- A comma and the blank behind it. -/
def commaBlank : List Atom := [.tok .comma, blank]

@[simp] theorem good_blank : blank.Good := ⟨by simp, by simp [isSpace]⟩

@[simp] theorem good_newline : newline.Good := ⟨by simp, by simp [isSpace]⟩

@[simp] theorem good_indent : indent.Good := ⟨by simp, by simp [isSpace]⟩

@[simp] theorem good_tok {t : Token} : (Atom.tok t).Good ↔ t.Valid ReadsBack := Iff.rfl

theorem fit_commas (hl : ∀ as ∈ l, Fit as) : Fit (joined commaBlank l) :=
  fit_joined hl (by simp [commaBlank]) (by simp [commaBlank, joins])
    (by simp [commaBlank]) (by simp [commaBlank])

theorem fit_lines (hl : ∀ as ∈ l, Fit as) : Fit (joined [newline] l) :=
  fit_joined hl (by simp) (by simp) (by simp) (by simp)

theorem fit_flatMap {f : α → List Atom} {l : List α} (hl : ∀ x ∈ l, Fit (f x))
    (hfront : ∀ x ∈ l, Detached (f x)) : Fit (l.flatMap f) ∧ Detached (l.flatMap f) := by
  induction l with
  | nil => simp
  | cons x l ih =>
    simp only [List.mem_cons, forall_eq_or_imp] at hl hfront
    obtain ⟨hfit, hdetached⟩ := ih hl.2 hfront.2
    refine ⟨hl.1.append hfit hdetached, ?_⟩
    rw [List.flatMap_cons]
    cases hx : f x with
    | nil => simpa using hdetached
    | cons a as => simpa [hx] using hfront.1

/-! ## 3. Types -/

attribute [local simp] Atom.Apart runsOn joins

mutual

/-- The layout of a type. -/
def TypeExpr.atoms : TypeExpr → List Atom
  | .void => [plain "void"]
  | .int bits => [plain ("i" ++ Nat.repr bits)]
  | .float => [plain "float"]
  | .double => [plain "double"]
  | .named n => [.tok (.loc n.name)]
  | .ptr t => t.atoms ++ [.tok .star]
  | .array n t =>
    .tok .lbracket :: .tok (.int n) :: blank :: plain "x" :: blank :: (t.atoms ++ [.tok .rbracket])
  | .struct fields =>
    .tok .lbrace :: blank :: (joined commaBlank (TypeExpr.listAtoms fields) ++ [blank, .tok .rbrace])

/-- The layouts of types. -/
def TypeExpr.listAtoms : List TypeExpr → List (List Atom)
  | [] => []
  | t :: rest => t.atoms :: TypeExpr.listAtoms rest

end

theorem TypeExpr.listAtoms_eq (ts : List TypeExpr) : TypeExpr.listAtoms ts = ts.map TypeExpr.atoms := by
  induction ts with
  | nil => rfl
  | cons t ts ih => rw [TypeExpr.listAtoms, ih, List.map_cons]

/-- The fields of an aggregate in braces. -/
def fieldsAtoms (fields : List TypeExpr) : List Atom :=
  .tok .lbrace :: blank :: (joined commaBlank (fields.map TypeExpr.atoms) ++ [blank, .tok .rbrace])

theorem TypeExpr.atoms_struct (fields : List TypeExpr) :
    (TypeExpr.struct fields).atoms = fieldsAtoms fields := by
  rw [TypeExpr.atoms, TypeExpr.listAtoms_eq, fieldsAtoms]

/-- A type as the grammar gives it. -/
inductive TypeExpr.Valid : TypeExpr → Prop
  | void : Valid .void
  | int {bits : Nat} (h : 1 ≤ bits ∧ bits ≤ 64) : Valid (.int bits)
  | float : Valid .float
  | double : Valid .double
  | named {n : Ident} (h : IsName n.name) : Valid (.named n)
  | ptr {t : TypeExpr} (h : Valid t) : Valid (.ptr t)
  | array {n : Nat} {t : TypeExpr} (hn : IsLong n) (ht : Valid t) : Valid (.array n t)
  | struct {fields : List TypeExpr} (h : ∀ t ∈ fields, Valid t) : Valid (.struct fields)

theorem isWord_intType (bits : Nat) : IsWord ("i" ++ Nat.repr bits) := by
  refine ⟨'i', Nat.toDigits 10 bits, by simp, by decide, fun c hc => ?_⟩
  exact isNameChar_of_isDigit (isDigit_toDigits hc)

theorem fit_fields {fields : List TypeExpr} (h : ∀ t ∈ fields, Fit t.atoms) :
    Fit (fieldsAtoms fields) := by
  have hjoined : Fit (joined commaBlank (fields.map TypeExpr.atoms)) := fit_commas (by simpa using h)
  simp [fieldsAtoms, hjoined]

theorem TypeExpr.Valid.fit {t : TypeExpr} (h : t.Valid) : Fit t.atoms := by
  induction h with
  | void => simpa [TypeExpr.atoms] using isWord_of_text rfl
  | int h => simpa [TypeExpr.atoms] using isWord_intType _
  | float => simpa [TypeExpr.atoms] using isWord_of_text rfl
  | double => simpa [TypeExpr.atoms] using isWord_of_text rfl
  | named h => simpa [TypeExpr.atoms] using h
  | ptr _ ih =>
    rw [TypeExpr.atoms]
    exact ih.append (by simp) (by simp)
  | array hn _ ih =>
    have hx : IsWord "x" := isWord_of_text rfl
    simp [TypeExpr.atoms, ih, hx, hn]
  | struct _ ih =>
    rw [TypeExpr.atoms_struct]
    exact fit_fields ih

/-! ## 4. Values -/

/-- The token of a literal. -/
def Literal.token : Literal → Token
  | .int v => .int v
  | .float x => .float x
  | .bool b => .word (if b then "true" else "false")

/-- The token of a value. -/
def ValueExpr.token : ValueExpr → Token
  | .loc n => .loc n.name
  | .glob n => .glob n.name
  | .lit l => l.token
  | .undef => .word "undef"

/-- A literal as the grammar gives it, given what it can take for a number. -/
def Literal.Valid (ok : Float → Prop) : Literal → Prop
  | .int v => IsLong v
  | .float x => ok x
  | .bool _ => True

/-- A value as the grammar gives it. -/
def ValueExpr.Valid (ok : Float → Prop) : ValueExpr → Prop
  | .loc n | .glob n => IsName n.name
  | .lit l => l.Valid ok
  | .undef => True

/-- A value with its type, as the grammar gives it. -/
structure Typed.Valid (ok : Float → Prop) (t : Typed) : Prop where
  ty : t.ty.Valid
  value : t.value.Valid ok

theorem Literal.Valid.token {l : Literal} (h : l.Valid ReadsBack) : l.token.Valid ReadsBack := by
  cases l with
  | int v => exact h
  | float x => exact h
  | bool b => cases b <;> exact isWord_of_text rfl

theorem ValueExpr.Valid.token {v : ValueExpr} (h : v.Valid ReadsBack) : v.token.Valid ReadsBack := by
  cases v with
  | loc n => exact h
  | glob n => exact h
  | lit l => exact Literal.Valid.token h
  | undef => exact isWord_of_text rfl

/-- The layout of a value behind its type. -/
def Typed.atoms (t : Typed) : List Atom := t.ty.atoms ++ [blank, .tok t.value.token]

theorem Typed.Valid.fit {t : Typed} (h : t.Valid ReadsBack) : Fit t.atoms :=
  h.ty.fit.append (by simpa using h.value.token) (by simp)

/-! ## 5. Instructions -/

/-- The layout of an alignment clause. -/
def alignAtoms : Option Nat → List Atom
  | some a => [.tok .comma, blank, plain "align", blank, .tok (.int a)]
  | none => []

/-- The layout of two values of a type. -/
def pairAtoms (ty : TypeExpr) (lhs rhs : ValueExpr) : List Atom :=
  ty.atoms ++ [blank, .tok lhs.token, .tok .comma, blank, .tok rhs.token]

/-- The layout of a value of a phi with its block. -/
def incomingAtoms (vl : ValueExpr × Ident) : List Atom :=
  [.tok .lbracket, .tok vl.1.token, .tok .comma, blank, .tok (.loc vl.2.name), .tok .rbracket]

/-- The layout of an instruction behind its result. -/
def InstExpr.atoms : InstExpr → List Atom
  | .binary op ty lhs rhs => plain op.name :: blank :: pairAtoms ty lhs rhs
  | .fneg ty v => plain "fneg" :: blank :: Typed.atoms ⟨ty, v⟩
  | .cast op src v dst =>
    plain op.name :: blank :: (Typed.atoms ⟨src, v⟩ ++ blank :: plain "to" :: blank :: dst.atoms)
  | .bitcast src v dst =>
    plain "bitcast" :: blank :: (Typed.atoms ⟨src, v⟩ ++ blank :: plain "to" :: blank :: dst.atoms)
  | .alloca ty align => plain "alloca" :: blank :: (ty.atoms ++ alignAtoms align)
  | .load ty ptr align =>
    plain "load" :: blank :: (ty.atoms ++ .tok .comma :: blank :: (ptr.atoms ++ alignAtoms align))
  | .store v ptr align =>
    plain "store" :: blank :: (v.atoms ++ .tok .comma :: blank :: (ptr.atoms ++ alignAtoms align))
  | .elementPtr inbounds source base indices =>
    plain "getelementptr" :: blank :: ((if inbounds then [plain "inbounds", blank] else []) ++
      (source.atoms ++ .tok .comma :: blank :: (base.atoms ++
        indices.flatMap fun i => .tok .comma :: blank :: i.atoms)))
  | .call result callee args =>
    plain "call" :: blank :: (result.atoms ++ blank :: .tok (.glob callee.name) :: .tok .lparen ::
      (joined commaBlank (args.map Typed.atoms) ++ [.tok .rparen]))
  | .ret none => [plain "ret", blank, plain "void"]
  | .ret (some v) => plain "ret" :: blank :: v.atoms
  | .icmp pred ty lhs rhs => plain "icmp" :: blank :: plain pred.name :: blank :: pairAtoms ty lhs rhs
  | .fcmp pred ty lhs rhs => plain "fcmp" :: blank :: plain pred.name :: blank :: pairAtoms ty lhs rhs
  | .br target => [plain "br", blank, plain "label", blank, .tok (.loc target.name)]
  | .condBr cond t e =>
    [plain "br", blank, plain "i1", blank, .tok cond.token, .tok .comma, blank, plain "label", blank,
      .tok (.loc t.name), .tok .comma, blank, plain "label", blank, .tok (.loc e.name)]
  | .phi ty incoming =>
    plain "phi" :: blank :: (ty.atoms ++ blank :: joined commaBlank (incoming.map incomingAtoms))

/-- An alignment of 32 bits. -/
def IsAlign (align : Option Nat) : Prop := ∀ a ∈ align, a < 4294967296

/-- Whether the text of a type starts with the word `void`. -/
def TypeExpr.startsVoid : TypeExpr → Bool
  | .void => true
  | .ptr t => t.startsVoid
  | _ => false

/-- An instruction as the grammar gives it. -/
def InstExpr.Valid (ok : Float → Prop) : InstExpr → Prop
  | .binary _ ty lhs rhs | .icmp _ ty lhs rhs | .fcmp _ ty lhs rhs =>
    ty.Valid ∧ lhs.Valid ok ∧ rhs.Valid ok
  | .fneg ty v => ty.Valid ∧ v.Valid ok
  | .cast _ src v dst | .bitcast src v dst => src.Valid ∧ v.Valid ok ∧ dst.Valid
  | .alloca ty align => ty.Valid ∧ IsAlign align
  | .load ty ptr align => ty.Valid ∧ ptr.Valid ok ∧ IsAlign align
  | .store v ptr align => v.Valid ok ∧ ptr.Valid ok ∧ IsAlign align
  | .elementPtr _ source base indices => source.Valid ∧ base.Valid ok ∧ ∀ i ∈ indices, i.Valid ok
  | .call result callee args => result.Valid ∧ IsName callee.name ∧ ∀ a ∈ args, a.Valid ok
  | .ret v => ∀ t ∈ v, t.Valid ok ∧ t.ty.startsVoid = false
  | .br target => IsName target.name
  | .condBr cond t e => cond.Valid ok ∧ IsName t.name ∧ IsName e.name
  | .phi ty incoming =>
    ty.Valid ∧ incoming ≠ [] ∧ ∀ vl ∈ incoming, vl.1.Valid ok ∧ IsName vl.2.name

theorem isWord_binaryOp (op : BinaryOp) : IsWord op.name := by
  cases op <;> exact isWord_of_text rfl

theorem isWord_castOp (op : CastOp) : IsWord op.name := by
  cases op <;> exact isWord_of_text rfl

theorem isWord_intPredicate (p : IntPredicate) : IsWord p.name := by
  cases p <;> exact isWord_of_text rfl

theorem isWord_floatPredicate (p : FloatPredicate) : IsWord p.name := by
  cases p <;> exact isWord_of_text rfl

theorem IsAlign.fit {align : Option Nat} (h : IsAlign align) :
    Fit (alignAtoms align) ∧ Detached (alignAtoms align) := by
  cases align with
  | none => simp [alignAtoms]
  | some a =>
    have ha : IsLong (a : Int) := by
      have := h a rfl
      exact ⟨by omega, by omega⟩
    have hword : IsWord "align" := isWord_of_text rfl
    simp [alignAtoms, ha, hword]

theorem fit_pair {ty : TypeExpr} {lhs rhs : ValueExpr} (hty : ty.Valid) (hl : lhs.Valid ReadsBack)
    (hr : rhs.Valid ReadsBack) : Fit (pairAtoms ty lhs rhs) := by
  refine hty.fit.append ?_ (by simp)
  simp [hl.token, hr.token]

/-- A word in front of a layout, with a blank between them. -/
theorem fit_plain_blank {w : String} (hw : IsWord w) (h : Fit as) : Fit (plain w :: blank :: as) := by
  simp [hw, h]

theorem fit_keyword {w : String} (hw : isWordText w.toList = true) (h : Fit as) : Fit (plain w :: blank :: as) :=
  fit_plain_blank (isWord_of_text hw) h

theorem fit_conversion {src dst : TypeExpr} {v : ValueExpr} (hs : src.Valid) (hv : v.Valid ReadsBack)
    (hd : dst.Valid) : Fit (Typed.atoms ⟨src, v⟩ ++ blank :: plain "to" :: blank :: dst.atoms) := by
  have hto : IsWord "to" := isWord_of_text rfl
  exact (Typed.Valid.mk hs hv).fit.append (by simp [hto, hd.fit]) (by simp)

/-- A layout behind a comma. -/
theorem fit_comma_blank (h : Fit as) : Fit (.tok .comma :: blank :: as) := by
  simp [h]

theorem InstExpr.Valid.fit {e : InstExpr} (h : e.Valid ReadsBack) : Fit e.atoms := by
  cases e with
  | binary op ty lhs rhs => exact fit_plain_blank (isWord_binaryOp op) (fit_pair h.1 h.2.1 h.2.2)
  | fneg ty v => exact fit_keyword (by rfl) (Typed.Valid.mk h.1 h.2).fit
  | cast op src v dst =>
    exact fit_plain_blank (isWord_castOp op) (fit_conversion h.1 h.2.1 h.2.2)
  | bitcast src v dst => exact fit_keyword (by rfl) (fit_conversion h.1 h.2.1 h.2.2)
  | alloca ty align => exact fit_keyword (by rfl) (h.1.fit.append h.2.fit.1 h.2.fit.2)
  | load ty ptr align | store v ptr align =>
    have hptr := h.2.1.fit.append h.2.2.fit.1 h.2.2.fit.2
    exact fit_keyword (by rfl) (h.1.fit.append (fit_comma_blank hptr) (by simp))
  | elementPtr inbounds source base indices =>
    obtain ⟨hsource, hbase, hindices⟩ := h
    have hall : Fit (indices.flatMap fun i => .tok .comma :: blank :: i.atoms) ∧
        Detached (indices.flatMap fun i => .tok .comma :: blank :: i.atoms) :=
      fit_flatMap (fun i hi => fit_comma_blank (hindices i hi).fit) (by simp)
    have htail := hsource.fit.append
      (fit_comma_blank (hbase.fit.append hall.1 hall.2)) (by simp)
    refine fit_keyword (by rfl) ?_
    cases inbounds with
    | false => exact htail
    | true => exact fit_keyword (by rfl) htail
  | call ret callee args =>
    have hargs : Fit (joined commaBlank (args.map Typed.atoms)) :=
      fit_commas (by simpa using fun a ha => (h.2.2 a ha).fit)
    refine fit_keyword (by rfl) (h.1.fit.append ?_ (by simp))
    simp [hargs, h.2.1]
  | ret v =>
    cases v with
    | none =>
      have hvoid : Fit [plain "void"] := by simpa using isWord_of_text rfl
      exact fit_keyword (by rfl) hvoid
    | some t => exact fit_keyword (by rfl) (h t rfl).1.fit
  | icmp pred ty lhs rhs =>
    exact fit_keyword (by rfl) (fit_plain_blank (isWord_intPredicate pred) (fit_pair h.1 h.2.1 h.2.2))
  | fcmp pred ty lhs rhs =>
    exact fit_keyword (by rfl) (fit_plain_blank (isWord_floatPredicate pred) (fit_pair h.1 h.2.1 h.2.2))
  | br target =>
    have hname : IsName target.name := h
    have hlabel : Fit [.tok (.loc target.name)] := by simpa using hname
    exact fit_keyword (by rfl) (fit_keyword (by rfl) hlabel)
  | condBr cond t e =>
    have hlabel : IsWord "label" := isWord_of_text rfl
    refine fit_keyword (by rfl) (fit_keyword (by rfl) ?_)
    simp [h.1.token, h.2.1, h.2.2, hlabel]
  | phi ty incoming =>
    have hincoming : Fit (joined commaBlank (incoming.map incomingAtoms)) := by
      refine fit_commas ?_
      simp only [List.mem_map, forall_exists_index, and_imp, forall_apply_eq_imp_iff₂]
      intro vl hvl
      obtain ⟨hv, hl⟩ := h.2.2 vl hvl
      simp [incomingAtoms, hv.token, hl]
    exact fit_keyword (by rfl) (h.1.fit.append (by simp [hincoming]) (by simp))

/-! ## 6. Blocks -/

/-- Whether the instruction may have a result. -/
def InstExpr.isValued : InstExpr → Bool
  | .store .. | .br _ | .condBr .. | .ret _ => false
  | _ => true

/-- Whether the instruction may stand without a result. -/
def InstExpr.isUnvalued : InstExpr → Bool
  | .store .. | .br _ | .condBr .. | .ret _ | .call .. => true
  | _ => false

/-- The layout of the name that a result is given. -/
def resultAtoms : Option Ident → List Atom
  | some x => [.tok (.loc x.name), blank, .tok .equals, blank]
  | none => []

/-- The layout of a binding to a source variable. -/
def debugAtoms : Option (String × String) → List Atom
  | some (name, ty) =>
    [blank, .tok .metaDbg, .tok .lparen, .tok (.str name), .tok .comma, blank, .tok (.str ty),
      .tok .rparen]
  | none => []

/-- The line of an instruction. -/
def InstDef.atoms (i : InstDef) : List Atom :=
  indent :: (resultAtoms i.result ++ (i.kind.atoms ++ (debugAtoms i.dbg ++ [newline])))

/-- The lines of a block. -/
def BlockDef.atoms (b : BlockDef) : List Atom :=
  plain b.label.name :: .tok .colon :: newline :: b.insts.flatMap InstDef.atoms

/-- An instruction with its result, as the grammar gives it. -/
structure InstDef.Valid (ok : Float → Prop) (i : InstDef) : Prop where
  kind : i.kind.Valid ok
  result : ∀ x ∈ i.result, IsName x.name ∧ i.kind.isValued = true
  unvalued : i.result = none → i.kind.isUnvalued = true
  dbg : ∀ d ∈ i.dbg, IsLine d.1 ∧ IsLine d.2

/-- A block as the grammar gives it. -/
structure BlockDef.Valid (ok : Float → Prop) (b : BlockDef) : Prop where
  label : IsWord b.label.name
  insts : ∀ i ∈ b.insts, i.Valid ok

theorem InstDef.Valid.fit {i : InstDef} (h : i.Valid ReadsBack) : Fit i.atoms := by
  have hend : Fit (debugAtoms i.dbg ++ [newline]) ∧ Detached (debugAtoms i.dbg ++ [newline]) := by
    cases hd : i.dbg with
    | none => simp [debugAtoms]
    | some d => simp [debugAtoms, h.dbg d hd]
  have hbody := h.kind.fit.append hend.1 hend.2
  rw [InstDef.atoms]
  cases hr : i.result with
  | none => simp [resultAtoms, hbody]
  | some x => simp [resultAtoms, hbody, h.result x hr]

theorem BlockDef.Valid.fit {b : BlockDef} (h : b.Valid ReadsBack) : Fit b.atoms := by
  have hall : Fit (b.insts.flatMap InstDef.atoms) :=
    (fit_flatMap (fun i hi => (h.insts i hi).fit) (by simp [InstDef.atoms])).1
  simp [BlockDef.atoms, hall, h.label]

/-! ## 7. Items -/

/-- The layout of a first value. -/
def GlobalInitExpr.atoms : GlobalInitExpr → List Atom
  | .scalar l => [.tok l.token]
  | .array ls =>
    .tok .lbracket :: (joined commaBlank (ls.map fun l => [.tok l.token]) ++ [.tok .rbracket])

/-- The layout of the quantity that a result is declared to be. -/
def rangeAtoms : Option String → List Atom
  | some r => [blank, .tok .metaRange, .tok .lparen, .tok (.str r), .tok .rparen]
  | none => []

/-- The layout of a parameter. -/
def paramAtoms (p : TypeExpr × Ident) : List Atom := p.1.atoms ++ [blank, .tok (.loc p.2.name)]

/-- The lines of a definition. -/
def FunctionDef.atoms (f : FunctionDef) : List Atom :=
  plain "define" :: blank :: (f.ret.atoms ++ blank :: .tok (.glob f.name.name) :: .tok .lparen ::
    (joined commaBlank (f.params.map paramAtoms) ++ .tok .rparen :: (rangeAtoms f.range ++
      blank :: .tok .lbrace :: newline :: (joined [newline] (f.blocks.map BlockDef.atoms) ++
        [.tok .rbrace, newline]))))

/-- The lines of an item. -/
def Item.atoms : Item → List Atom
  | .dataLayout s =>
    [plain "target", blank, plain "datalayout", blank, .tok .equals, blank, .tok (.str s), newline]
  | .typeDef t =>
    .tok (.loc t.name.name) :: blank :: .tok .equals :: blank :: plain "type" :: blank ::
      (fieldsAtoms t.fields ++ [newline])
  | .globalDef g =>
    .tok (.glob g.name.name) :: blank :: .tok .equals :: blank ::
      plain (if g.isConstant then "constant" else "global") :: blank ::
      (g.ty.atoms ++ blank :: (g.init.atoms ++ [newline]))
  | .declare d =>
    plain "declare" :: blank :: (d.ret.atoms ++ blank :: .tok (.glob d.name.name) :: .tok .lparen ::
      (joined commaBlank (d.params.map TypeExpr.atoms) ++ [.tok .rparen, newline]))
  | .define f => f.atoms

/-- Groups of items with a blank line between them. -/
def sectionAtoms (sections : List (List Item)) : List Atom :=
  joined [newline] (sections.map fun items => items.flatMap Item.atoms)

/-- A first value as the grammar gives it. -/
def GlobalInitExpr.Valid (ok : Float → Prop) : GlobalInitExpr → Prop
  | .scalar l => l.Valid ok
  | .array ls => ∀ l ∈ ls, l.Valid ok

/-- A definition as the grammar gives it. -/
structure FunctionDef.Valid (ok : Float → Prop) (f : FunctionDef) : Prop where
  name : IsName f.name.name
  ret : f.ret.Valid
  params : ∀ p ∈ f.params, p.1.Valid ∧ IsName p.2.name
  range : ∀ r ∈ f.range, IsLine r
  blocks : ∀ b ∈ f.blocks, b.Valid ok

/-- An item as the grammar gives it. -/
def Item.Valid (ok : Float → Prop) : Item → Prop
  | .dataLayout s => IsLine s
  | .typeDef t => IsName t.name.name ∧ ∀ f ∈ t.fields, f.Valid
  | .globalDef g => IsName g.name.name ∧ g.ty.Valid ∧ g.init.Valid ok
  | .declare d => IsName d.name.name ∧ d.ret.Valid ∧ ∀ p ∈ d.params, p.Valid
  | .define f => f.Valid ok

theorem GlobalInitExpr.Valid.fit {i : GlobalInitExpr} (h : i.Valid ReadsBack) : Fit i.atoms := by
  cases i with
  | scalar l => simpa [GlobalInitExpr.atoms] using Literal.Valid.token h
  | array ls =>
    have hls : Fit (joined commaBlank (ls.map fun l => [.tok l.token])) :=
      fit_commas (by simpa using fun l hl => Literal.Valid.token (h l hl))
    simp [GlobalInitExpr.atoms, hls]

theorem FunctionDef.Valid.fit {f : FunctionDef} (h : f.Valid ReadsBack) : Fit f.atoms := by
  have hparams : Fit (joined commaBlank (f.params.map paramAtoms)) := by
    refine fit_commas ?_
    simp only [List.mem_map, forall_exists_index, and_imp, forall_apply_eq_imp_iff₂]
    intro p hp
    exact (h.params p hp).1.fit.append (by simpa using (h.params p hp).2) (by simp)
  have hblocks : Fit (joined [newline] (f.blocks.map BlockDef.atoms)) :=
    fit_lines (by simpa using fun b hb => (h.blocks b hb).fit)
  have hbody : Fit (blank :: .tok .lbrace :: newline ::
      (joined [newline] (f.blocks.map BlockDef.atoms) ++ [.tok .rbrace, newline])) := by
    simp [hblocks]
  have hrange : Fit (.tok .rparen :: (rangeAtoms f.range ++ blank :: .tok .lbrace :: newline ::
      (joined [newline] (f.blocks.map BlockDef.atoms) ++ [.tok .rbrace, newline]))) := by
    cases hr : f.range with
    | none => simpa [rangeAtoms] using hbody
    | some r =>
      have hline := h.range r hr
      simpa [rangeAtoms, hline] using hbody
  refine fit_keyword (by rfl) (h.ret.fit.append ?_ (by simp))
  have htail := hparams.append hrange (by simp)
  simp only [fit_cons, good_blank, good_tok, valid_glob, valid_lparen, h.name, htail]
  simp

theorem Item.Valid.fit {i : Item} (h : i.Valid ReadsBack) : Fit i.atoms := by
  cases i with
  | dataLayout s =>
    have hs : IsLine s := h
    refine fit_keyword (by rfl) (fit_keyword (by rfl) ?_)
    simp [hs]
  | typeDef t =>
    have hfields : Fit (fieldsAtoms t.fields ++ [newline]) :=
      (fit_fields fun f hf => (h.2 f hf).fit).append (by simp) (by simp)
    have htype := fit_keyword (w := "type") rfl hfields
    simp [Item.atoms, htype, h.1]
  | globalDef g =>
    have hinit : Fit (g.init.atoms ++ [newline]) := h.2.2.fit.append (by simp) (by simp)
    have hty : Fit (g.ty.atoms ++ blank :: (g.init.atoms ++ [newline])) :=
      h.2.1.fit.append (by simp [hinit]) (by simp)
    have hword : IsWord (if g.isConstant then "constant" else "global") := by
      cases g.isConstant <;> exact isWord_of_text (by rfl)
    have hkeyword := fit_plain_blank hword hty
    simp [Item.atoms, hkeyword, h.1]
  | declare d =>
    have hparams : Fit (joined commaBlank (d.params.map TypeExpr.atoms)) :=
      fit_commas (by simpa using fun p hp => (h.2.2 p hp).fit)
    refine fit_keyword (by rfl) (h.2.1.fit.append ?_ (by simp))
    simp [hparams, h.1]
  | define f => exact FunctionDef.Valid.fit h

/-- An item that starts a line may follow one that ends its line. -/
theorem fit_items {items : List Item} (h : ∀ i ∈ items, i.Valid ReadsBack) :
    Fit (items.flatMap Item.atoms) := by
  induction items with
  | nil => exact fit_nil
  | cons i items ih =>
    simp only [List.mem_cons, forall_eq_or_imp] at h
    have hend : i.atoms.getLast? = some newline := by
      cases i <;> simp [Item.atoms, FunctionDef.atoms, List.getLast?_cons, List.getLast?_append]
    rw [List.flatMap_cons, fit_append, hend]
    exact ⟨h.1.fit, ih h.2, by simp⟩

theorem fit_sections {sections : List (List Item)}
    (h : ∀ items ∈ sections, ∀ i ∈ items, i.Valid ReadsBack) : Fit (sectionAtoms sections) :=
  fit_lines (by simpa using fun items hitems => fit_items (h items hitems))

end RangedIR.Source
