/-
RangedIR.Proofs.Scope.RoundTrip — printing a module and loading it again.

A loaded module prints a text, and this text is loaded as the same module: the same types,
globals, declarations and functions, with the same blocks and instructions under the same
numbers. The comment that an output has in front of its module makes no difference.
-/
import RangedIR.Pipeline
import RangedIR.Proofs.Code.Literal
import RangedIR.Proofs.Number.Patterns
import RangedIR.Proofs.Scope.Module
import RangedIR.Proofs.Source.Accepted

namespace RangedIR

/-! ## 1. Comments -/

theorem newline_notMem_fingerprint (s : String) : '\n' ∉ (Digest.fingerprint s).toList := by
  have hdigit : ∀ d < 16, Nat.digitChar d ≠ '\n' := by decide
  simp only [Digest.fingerprint, String.toList_ofList, List.mem_flatMap, Digest.hexWord, List.mem_map]
  rintro ⟨w, -, i, -, hd⟩
  exact hdigit _ (Nat.mod_lt _ (by decide)) hd

theorem newline_notMem_passes (passes : List Pass) :
    '\n' ∉ (String.intercalate "," (passes.map (·.name))).toList := by
  have hcomma : ",".toList = [','] := by simp
  rw [String.toList_intercalate, List.map_map, hcomma]
  induction passes with
  | nil => simp
  | cons p passes ih =>
    have hp : '\n' ∉ p.name.toList := by cases p <;> simp [Pass.name]
    cases passes with
    | nil => simpa using hp
    | cons q passes =>
      simp only [List.map_cons, List.intercalate_cons_cons, Function.comp_apply] at ih ⊢
      simp [hp, ih]

variable {source : String} {sensors : List Sensor} {ts : List Source.Token} {options : Options} {o : Output}

theorem spells_comment {line text : String} (h : Source.Spells text.toList ts)
    (hline : '\n' ∉ line.toList) : Source.Spells (";" ++ line ++ "\n" ++ text).toList ts := by
  simpa using h.comment hline

theorem optimize_of_load {m : Module} (hsensors : Sensor.check sensors = .ok ())
    (hload : Scope.load source = .ok m) (options : Options) : ∃ o, optimize source sensors options = .ok o := by
  simp only [optimize, hsensors, hload, Except.ok.injEq, exists_eq']

theorem digests_of_optimize (h : optimize source sensors options = .ok o) :
    o.sourceDigest = Digest.fingerprint source ∧
      o.sensorDigest = Digest.fingerprint (Sensor.canonicalText sensors) := by
  cases hcheck : Sensor.check sensors with
  | error e =>
    simp only [optimize, hcheck] at h
    cases h
  | ok u =>
    cases hload : Scope.load source with
    | error e =>
      simp only [optimize, hcheck, hload] at h
      cases h
    | ok m =>
      simp only [optimize, hcheck, hload, Except.ok.injEq] at h
      rw [← h]
      exact ⟨rfl, rfl⟩

/-- The comment of an output changes nothing in front of a text. -/
theorem spells_header (h : optimize source sensors options = .ok o) {text : String}
    (htext : Source.Spells text.toList ts) : Source.Spells (o.header ++ "\n" ++ text).toList ts := by
  obtain ⟨hsourceDigest, hsensorDigest⟩ := digests_of_optimize h
  have hspace : Source.Spells ("\n" ++ text).toList ts := by simpa using htext.space (c := '\n') (by decide)
  have hpasses : '\n' ∉ (" passes: " ++ String.intercalate "," (o.passes.map (·.name))).toList := by
    rw [String.toList_append, List.mem_append, not_or]
    exact ⟨by simp, newline_notMem_passes o.passes⟩
  have hsensors : '\n' ∉ (" sensors-sha256: " ++ o.sensorDigest).toList := by
    simp [hsensorDigest, newline_notMem_fingerprint]
  have hsource : '\n' ∉ (" source-sha256: " ++ o.sourceDigest).toList := by
    simp [hsourceDigest, newline_notMem_fingerprint]
  have hversion : '\n' ∉ (" rangeopt " ++ Output.version).toList := by simp [Output.version]
  have hheader : o.header ++ "\n" ++ text = ";" ++ (" rangeopt " ++ Output.version) ++ "\n" ++
      (";" ++ (" source-sha256: " ++ o.sourceDigest) ++ "\n" ++
        (";" ++ (" sensors-sha256: " ++ o.sensorDigest) ++ "\n" ++
          (";" ++ (" passes: " ++ String.intercalate "," (o.passes.map (·.name))) ++ "\n" ++ ("\n" ++ text)))) := by
    have hfirst : "; rangeopt " = ";" ++ " rangeopt " := rfl
    have hsecond : "\n; source-sha256: " = "\n" ++ (";" ++ " source-sha256: ") := rfl
    have hthird : "\n; sensors-sha256: " = "\n" ++ (";" ++ " sensors-sha256: ") := rfl
    have hlast : "\n; passes: " = "\n" ++ (";" ++ " passes: ") := rfl
    delta Output.header
    rw [hfirst, hsecond, hthird, hlast]
    simp only [String.append_assoc]
  rw [hheader]
  exact spells_comment (spells_comment (spells_comment (spells_comment hspace hpasses) hsensors) hsource) hversion

/-! ## 2. Texts -/

namespace Scope

open Source

variable {m : Module}

theorem load_eq_ok {source : String} :
    load source = .ok m ↔ ∃ items, readModule source = .ok items ∧ checkItems items = .clean m := by
  unfold load
  cases readModule source with
  | error e => simp
  | ok items => 
    cases hitems : resolve items with
    | error issues => simp [← resolve_eq_ok, hitems]
    | ok m' => simp [← resolve_eq_ok, hitems]

/-- The tokens of a printed module are those of its items. -/
theorem tokensOf_parts (m : Module) :
    tokensOf (sectionAtoms (m.parts.filter (! ·.isEmpty))) = m.items.flatMap fun i => tokensOf i.atoms := by
  rw [sectionAtoms, newline, tokensOf_joined_gap, Module.items]
  simp only [tokensOf_flatMap]
  induction m.parts with
  | nil => rfl
  | cons part parts ih => cases part <;> simp [ih]

/-- A text that spells the items of a module is loaded as this module. -/
theorem load_of_spells (hitems : checkItems m.items = .clean m) (hvalid : ∀ i ∈ m.items, i.Valid ReadsBack)
    {text : String} (htext : Spells text.toList (m.items.flatMap fun i => tokensOf i.atoms)) :
    load text = .ok m := by
  obtain ⟨es, hes, herase⟩ := readModule_of_spells hvalid htext
  exact load_eq_ok.2 ⟨es, hes, (checkItems_congr herase).trans hitems⟩

/-! ## 3. The round trip -/

/-- **Printing and loading are inverse.** A loaded module prints a text that is loaded as
this module, also behind the comment of any output. No number of the source is beyond the
finite ones, and those of the module are read as they are written. -/
theorem load_text {source : String} {m : Module} (hload : load source = .ok m)
    (hfinite : ∀ l ∈ (lex source).lexemes, ∀ x, l.token = .float x → x.isFinite = true)
    (hinverse : ∀ x ∈ m.floats, x.isFinite = true → ReadsBack x) :
    ∃ text, m.text? = some text ∧ load text = .ok m ∧
      ∀ source' sensors options o, optimize source' sensors options = .ok o →
        load (o.header ++ "\n" ++ text) = .ok m := by
  obtain ⟨items, hread, hcheck⟩ := load_eq_ok.1 hload
  obtain ⟨hitems, hvalid, hnameable⟩ := checkItems_items (valid_readModule hread hfinite) hcheck hinverse
  have hfit : Fit (sectionAtoms (m.parts.filter (! ·.isEmpty))) := by
    refine fit_sections fun part hpart i hi => hvalid i ?_
    exact List.mem_flatten.2 ⟨part, List.mem_of_mem_filter hpart, hi⟩
  have hspells := spells_of_fit hfit
  rw [tokensOf_parts, ← toList_layoutText] at hspells
  exact ⟨_, Module.text?_eq hnameable, load_of_spells hitems hvalid hspells, fun _ _ _ _ ho =>
    load_of_spells hitems hvalid (spells_header ho hspells)⟩

/-- A global and a function, with numbers in both. -/
def scaling : String :=
  "@s = constant double 2.5\ndefine double @f(double %x) \x7b\nentry:\n  %y = fmul double %x, 1.50e0\n  ret double %y\n\x7d\n"

theorem load_text_scaling :
    ∃ m text o, load scaling = .ok m ∧ m.text? = some text ∧ load text = .ok m ∧
      optimize scaling [] default = .ok o ∧ load (o.header ++ "\n" ++ text) = .ok m := by
  have hloaded : ((load scaling).toOption.map fun m => decide (∀ x ∈ m.floats, ReadsBack x)) = some true := by
    decide +kernel
  have htokens : (lex scaling).lexemes.map (·.token) =
      [.glob "s", .equals, .word "constant", .word "double", .float 2.5, .word "define", .word "double", .glob "f",
        .lparen, .word "double", .loc "x", .rparen, .lbrace, .word "entry", .colon, .loc "y", .equals, .word "fmul",
        .word "double", .loc "x", .comma, .float 1.5, .word "ret", .word "double", .loc "y", .rbrace] := by
    decide +kernel
  cases hload : load scaling with
  | error e => simp [hload, Except.toOption] at hloaded
  | ok m =>
    have hread : ∀ x ∈ m.floats, ReadsBack x := by simpa [hload, Except.toOption] using hloaded
    have hfinite : ∀ l ∈ (lex scaling).lexemes, ∀ x, l.token = .float x → x.isFinite = true := by
      intro l hl x hx
      have hmem := List.mem_map_of_mem (f := (·.token)) hl
      rw [htokens, hx] at hmem
      have hcases : x = 2.5 ∨ x = 1.5 := by simpa using hmem
      rcases hcases with rfl | rfl <;> rfl
    obtain ⟨text, htext, hback, hcommented⟩ := load_text hload hfinite fun x hx _ => hread x hx
    obtain ⟨o, ho⟩ := optimize_of_load (show Sensor.check [] = .ok () from rfl) hload default
    exact ⟨m, text, o, rfl, htext, hback, ho, hcommented _ _ _ _ ho⟩

/-! ## 4. Literals -/

/-- The constant that a text is read as at a type, if it is a literal and nothing else. -/
def constantOf? (ty : Ty) (text : String) : Option Constant :=
  match (lex text).strays, (literal ⟨(lex text).lexemes, 0, 0⟩).outcome with
  | [], some (l, ⟨[], _, _⟩) => (resolveLiteral none l ty).value
  | _, _ => none

theorem constantOf?_text (c : Constant) (ty : Ty) (hc : c.literal.Valid ReadsBack) :
    constantOf? ty c.text = (resolveLiteral none c.literal ty).value := by
  have hfit : Fit [.tok c.literal.token] := ⟨List.forall_mem_singleton.2 hc.token, List.isChain_singleton _⟩
  have hspells := spells_of_fit hfit
  rw [← Constant.toList_text] at hspells
  obtain ⟨hstrays, htokens⟩ := hspells.lex_eq
  obtain ⟨l, ⟨rest, _, _⟩, hread, hrest, rfl⟩ := takes_literal ⟨(lex c.text).lexemes, 0, 0⟩ htokens
  obtain rfl : rest = [] := List.map_eq_nil_iff.1 hrest
  rw [constantOf?, hstrays, hread]

/-- **Literals of numbers.** The literal of a number at a type is computed with as this number. Its
text is read as this literal at the type, except at `i1` for a number that is neither zero nor one:
this literal is read as true. -/
theorem literal_of_number_reloads {ty : Ty} {v : Float} {c : Constant} (hv : v.isFinite = true)
    (hinverse : ReadsBack v) (h : Constant.forType? ty v = some c) :
    (c.value == v) = true ∧
      (constantOf? ty c.text = some c ↔ ty = .int 1 → (v == 0.0) = true ∨ (v == 1.0) = true) ∧
      (constantOf? ty c.text = some c ∨ constantOf? ty c.text = some (.bool true)) := by
  have hnumber : Number.IsNumber v := by
    obtain ⟨s, m, e, hd⟩ := Number.isFinite_iff.1 hv
    simp [Number.IsNumber, hd]
  refine ⟨(Constant.number?_of_forType? hnumber h).2, ?_⟩
  obtain ⟨rfl, hbool, rfl⟩ | ⟨bits, n, rfl, hnot, hn, hlo, hhi, rfl⟩ | ⟨hty, rfl⟩ := Constant.forType?_cases h
  · rw [constantOf?_text (.bool _) _ trivial]
    simp [Constant.literal, resolveLiteral, Checked.clean, hbool]
  · rw [constantOf?_text (.int n) _ ⟨hlo, hhi⟩]
    by_cases hbits : bits = 1
    · subst hbits
      have hzero : n ≠ 0 := by
        rintro rfl
        refine hnot rfl (.inl (Number.beq_iff.2 ⟨hnumber, Number.denotes_zero.isNumber, ?_⟩))
        rw [hn.exact, Number.denotes_zero.exact, Int.cast_zero]
      simp [Constant.literal, resolveLiteral, Checked.clean, hnot, hzero]
    · simp [Constant.literal, resolveLiteral, Checked.clean, hbits]
  · rw [constantOf?_text (.float v) _ hinverse]
    have hint : ty ≠ .int 1 := by
      rintro rfl
      cases hty
    simp [Constant.literal, resolveLiteral, Checked.clean, hty, hint]

theorem literal_of_number_reloads_quarter :
    ReadsBack 0.25 ∧ Constant.forType? .double 0.25 = some (.float 0.25) ∧
      ((Constant.float 0.25).value == 0.25) = true ∧
      constantOf? .double (Constant.float 0.25).text = some (.float 0.25) := by
  obtain ⟨hvalue, hread, -⟩ := @literal_of_number_reloads .double 0.25 (.float 0.25) rfl rfl rfl
  exact ⟨rfl, rfl, hvalue, hread.2 nofun⟩

/-- Two is no truth value, but it gets a literal of that type. -/
theorem two_reloads_as_true :
    Constant.forType? (.int 1) 2.0 = some (.int 2) ∧
      constantOf? (.int 1) (Constant.int 2).text = some (.bool true) := ⟨rfl, rfl⟩

end Scope

end RangedIR
