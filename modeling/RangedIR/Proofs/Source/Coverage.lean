/-
RangedIR.Proofs.Source.Coverage — reading a text loses nothing.

A text is read as segments, each behind the one before: tokens, strays, white space and
comments. A token depends on nothing outside its segment.
-/
import RangedIR.Proofs.Source.Spelling

namespace RangedIR.Source

variable {c : Char} {cs rest text tail : List Char} {t : Token} {start : Nat}

/-! ## 1. Numerals as read -/

namespace Numeral

theorem readFraction_spec (cs : List Char) : readFraction cs <+: cs ∧ (readFraction cs = [] ∨
    ∃ ds, readFraction cs = '.' :: ds ∧ ds ≠ [] ∧ ∀ c ∈ ds, c.isDigit) := by
  unfold readFraction
  split
  · dsimp only
    split_ifs with hds
    · exact ⟨List.nil_prefix, .inl rfl⟩
    · exact ⟨List.cons_prefix_cons.2 ⟨rfl, List.takeWhile_prefix _⟩,
        .inr ⟨_, rfl, by simpa using hds, fun c hc => List.mem_takeWhile_imp hc⟩⟩
  · exact ⟨List.nil_prefix, .inl rfl⟩

/-- Digits behind a sign. -/
theorem signed_spec {sign : List Char} (hsign : sign ∈ [[], ['+'], ['-']]) (rest : List Char) {r : List Char}
    (hr : r = if (rest.takeWhile Char.isDigit).isEmpty then [] else sign ++ rest.takeWhile Char.isDigit) :
    r <+: sign ++ rest ∧
      (r = [] ∨ ∃ sign ds, r = sign ++ ds ∧ sign ∈ [[], ['+'], ['-']] ∧ ds ≠ [] ∧ ∀ c ∈ ds, c.isDigit) := by
  split_ifs at hr with hds
  · subst hr
    exact ⟨List.nil_prefix, .inl rfl⟩
  · exact ⟨hr ▸ (List.prefix_append_right_inj sign).2 (List.takeWhile_prefix _),
      .inr ⟨sign, _, hr, hsign, by simpa using hds, fun c hc => List.mem_takeWhile_imp hc⟩⟩

theorem readExponent_spec (cs : List Char) : readExponent cs <+: cs ∧ (readExponent cs = [] ∨
    ∃ mark sign ds, readExponent cs = mark :: (sign ++ ds) ∧ (mark = 'e' ∨ mark = 'E') ∧
      sign ∈ [[], ['+'], ['-']] ∧ ds ≠ [] ∧ ∀ c ∈ ds, c.isDigit) := by
  unfold readExponent
  split
  · next c rest =>
    have hspec : readExponentDigits rest <+: rest ∧ (readExponentDigits rest = [] ∨ ∃ sign ds,
        readExponentDigits rest = sign ++ ds ∧ sign ∈ [[], ['+'], ['-']] ∧ ds ≠ [] ∧ ∀ c ∈ ds, c.isDigit) := by
      unfold readExponentDigits
      split
      · exact @signed_spec ['+'] (by simp) _ _ rfl
      · exact @signed_spec ['-'] (by simp) _ _ rfl
      · exact @signed_spec [] (by simp) _ _ rfl
    dsimp only
    split_ifs with hmark hds
    · exact ⟨List.nil_prefix, .inl rfl⟩
    · obtain hnil | ⟨sign, ds, hdigits, hsign⟩ := hspec.2
      · simp [hnil] at hds
      · exact ⟨List.cons_prefix_cons.2 ⟨rfl, hspec.1⟩,
          .inr ⟨c, sign, ds, by rw [hdigits], by simpa using hmark, hsign⟩⟩
    · exact ⟨List.nil_prefix, .inl rfl⟩
  · exact ⟨List.nil_prefix, .inl rfl⟩

/-- A numeral that is read is a part of the text and reads back. -/
theorem wellFormed_read? {n : Numeral} (h : read? cs = some n) : n.WellFormed ∧ n.chars <+: cs := by
  unfold read? at h
  dsimp only at h
  generalize hnegative : (cs.head? == some '-') = negative at h
  generalize hbody : (if negative then cs.drop 1 else cs) = body at h
  split_ifs at h with hwhole
  obtain rfl := Option.some.inj h
  have hsplit : cs = (if negative then ['-'] else []) ++ body := by
    cases negative with
    | false => simpa using hbody
    | true =>
      cases cs with
      | nil => simp at hnegative
      | cons c cs => simp_all
  rw [drop_takeWhile_length]
  obtain ⟨⟨tail, htail⟩, hfraction⟩ := readFraction_spec (body.dropWhile Char.isDigit)
  have hdrop := congrArg (List.drop (readFraction (body.dropWhile Char.isDigit)).length) htail
  rw [List.drop_left] at hdrop
  rw [← hdrop]
  obtain ⟨⟨last, hlast⟩, hexponent⟩ := readExponent_spec tail
  refine ⟨⟨⟨by simpa using hwhole, fun c hc => List.mem_takeWhile_imp hc⟩, hfraction, hexponent⟩, last, ?_⟩
  rw [hsplit, chars, List.append_assoc, hlast, List.append_assoc, htail, List.append_assoc,
    List.takeWhile_append_dropWhile]

end Numeral

theorem valid_token? {n : Numeral} {ok : Float → Prop} (h : n.token? = some t)
    (hok : ∀ x, t = .float x → ok x) : t.Valid ok := by
  unfold Numeral.token? at h
  dsimp only at h
  split at h
  · split at h
    · next hrange =>
      simp only [Bool.and_eq_true, decide_eq_true_eq] at hrange
      obtain rfl := Option.some.inj h
      exact ⟨by omega, by omega⟩
    · simp at h
  · obtain rfl := Option.some.inj h
    exact hok _ rfl

/-! ## 2. Pieces as read -/

/-- What a piece is, said of its text and what follows it. Blanks are white space or a comment to
the end of its line, and a token is read alone as well. -/
def Piece.Covers (text tail : List Char) : Piece → Prop
  | .blank => (∀ c ∈ text, isSpace c) ∨ ∃ line, text = ';' :: line ∧ '\n' ∉ line ∧ Stops (· != '\n') tail
  | .token t => (∀ ok : Float → Prop, (∀ x, t = .float x → ok x) → t.Valid ok) ∧
    ∃ c body, text = c :: body ∧ scan c body = ⟨.token t, body.length + 1⟩
  | .stray => True

/-- A piece at the front of a text. -/
def Scan.Covers (s : Scan) (cs : List Char) : Prop :=
  ∃ text tail, cs = text ++ tail ∧ text ≠ [] ∧ s.length = text.length ∧ s.piece.Covers text tail

theorem covers_strayChar : Scan.strayChar.Covers (c :: rest) := ⟨[c], rest, rfl, by simp, rfl, trivial⟩

/-- Tokens other than numbers are read as they are written. -/
theorem covers_spelling (t : Token) (tail : List Char) (ht : ∀ ok, t.Valid ok) {n : Nat}
    (hn : n = t.spelling.length) : (Scan.mk (.token t) n).Covers (t.spelling ++ tail) := by
  obtain ⟨c, body, hspelling, hscan⟩ := scan_spelling (ht _) fun _ => stops_nil
  refine ⟨_, tail, rfl, by simp [hspelling], hn, fun ok _ => ht ok, c, body, hspelling, ?_⟩
  rwa [List.append_nil] at hscan

theorem covers_scanName {make : String → Token} (hmake : ∀ n, IsName n → (∀ ok, (make n).Valid ok) ∧
    (make n).spelling = c :: n.toList) : (scanName make rest).Covers (c :: rest) := by
  unfold scanName
  dsimp only
  split_ifs with hname
  · exact covers_strayChar
  · obtain ⟨hvalid, hspelling⟩ := hmake (String.ofList (rest.takeWhile isNameChar))
      ⟨by simpa using hname, by simpa using fun c hc => List.mem_takeWhile_imp hc⟩
    have hcovers := covers_spelling _ (rest.dropWhile isNameChar) hvalid rfl
    simpa [hspelling] using hcovers

theorem covers_scanString : (scanString rest).Covers ('"' :: rest) := by
  unfold scanString
  dsimp only
  rw [drop_takeWhile_length]
  generalize hp : (fun c => c != '"' && c != '\n') = p
  have hsplit : rest.takeWhile p ++ rest.dropWhile p = rest := List.takeWhile_append_dropWhile
  have hline : IsLine (String.ofList (rest.takeWhile p)) := by
    intro c hc
    rw [String.toList_ofList] at hc
    have := List.mem_takeWhile_imp hc
    simpa [← hp] using this
  split
  · next tail htail =>
    rw [htail] at hsplit
    have hcovers := covers_spelling (.str (String.ofList (rest.takeWhile p))) tail (fun _ => hline) rfl
    simpa [Token.spelling, Token.text, hsplit] using hcovers
  · exact ⟨'"' :: rest.takeWhile p, rest.dropWhile p, by simp [hsplit], by simp, rfl, trivial⟩

theorem spelling_symbol? (h : symbol? c = some t) : (∀ ok, t.Valid ok) ∧ t.spelling = [c] := by
  unfold symbol? at h
  split at h <;> first | (obtain rfl := Option.some.inj h; exact ⟨fun _ => trivial, rfl⟩) | simp at h

/-- The piece at the front of a text is what it is said to be. -/
theorem covers_scan (c : Char) (rest : List Char) : (scan c rest).Covers (c :: rest) := by
  unfold scan
  split_ifs with hspace hcomment hloc hglob hquote hmark hdbg hrange hword
  · refine ⟨c :: rest.takeWhile isSpace, rest.dropWhile isSpace, by simp, by simp,
      by simp [Nat.add_comm], .inl ?_⟩
    exact List.forall_mem_cons.2 ⟨hspace, fun d hd => List.mem_takeWhile_imp hd⟩
  · refine ⟨c :: rest.takeWhile (· != '\n'), rest.dropWhile (· != '\n'), by simp, by simp,
      by simp [Nat.add_comm], .inr ⟨_, by rw [beq_iff_eq.1 hcomment], fun h => ?_, fun d hd => ?_⟩⟩
    · simpa using List.mem_takeWhile_imp h
    · have := List.head?_dropWhile_not (· != '\n') rest
      rw [Option.mem_def.1 hd] at this
      exact this
  · rw [beq_iff_eq.1 hloc]
    exact covers_scanName fun n hn => ⟨fun _ => hn, by simp [Token.spelling, Token.text]⟩
  · rw [beq_iff_eq.1 hglob]
    exact covers_scanName fun n hn => ⟨fun _ => hn, by simp [Token.spelling, Token.text]⟩
  · rw [beq_iff_eq.1 hquote]
    exact covers_scanString
  · obtain ⟨tail, rfl⟩ := List.isPrefixOf_iff_prefix.1 hdbg
    rw [beq_iff_eq.1 hmark]
    exact covers_spelling .metaDbg tail (fun _ => trivial) rfl
  · obtain ⟨tail, rfl⟩ := List.isPrefixOf_iff_prefix.1 hrange
    rw [beq_iff_eq.1 hmark]
    exact covers_spelling .metaRange tail (fun _ => trivial) rfl
  · exact covers_strayChar
  · have hcovers := covers_spelling (.word (String.ofList (c :: rest.takeWhile isNameChar)))
      (rest.dropWhile isNameChar)
      (fun _ => ⟨c, _, String.toList_ofList, hword, fun d hd => List.mem_takeWhile_imp hd⟩) rfl
    simpa [Token.spelling, Token.text] using hcovers
  · split
    · next t hsymbol =>
      obtain ⟨hvalid, hspelling⟩ := spelling_symbol? hsymbol
      have hcovers := covers_spelling t rest hvalid rfl
      simpa [hspelling] using hcovers
    split
    · next n hread =>
      obtain ⟨hn, tail, htail⟩ := Numeral.wellFormed_read? hread
      obtain ⟨d, body, hchars, -⟩ := hn.chars_eq_cons
      refine ⟨n.chars, tail, htail.symm, by simp [hchars], rfl, ?_⟩
      cases htoken : n.token? with
      | none => trivial
      | some t =>
        obtain ⟨d, body, hchars, hscan⟩ := scan_of_numeral hn htoken stops_nil
        rw [List.append_nil] at hscan
        exact ⟨fun ok => valid_token? htoken, d, body, hchars, hscan⟩
    · exact covers_strayChar

/-! ## 3. Segments -/

theorem byteCount_cons (c : Char) (cs : List Char) : byteCount (c :: cs) = c.utf8Size + byteCount cs := by
  have (n : Nat) : cs.foldl (fun n c => n + c.utf8Size) n = n + byteCount cs := by
    unfold byteCount
    induction cs generalizing n with
    | nil => rfl
    | cons d cs ih => rw [List.foldl_cons, List.foldl_cons, ih, ih (0 + _)]; omega
  rw [byteCount, List.foldl_cons, this]
  omega

@[simp] theorem byteCount_append (cs ds : List Char) : byteCount (cs ++ ds) = byteCount cs + byteCount ds := by
  induction cs with
  | nil => simp [byteCount]
  | cons c cs ih => simp [byteCount_cons, ih, Nat.add_assoc]

theorem byteCount_pos (h : cs ≠ []) : 0 < byteCount cs := by
  cases cs with
  | nil => simp at h
  | cons c cs => rw [byteCount_cons]; exact Nat.add_pos_left c.utf8Size_pos _

/-- One span ends before the other starts. -/
def Span.Before (a b : Span) : Prop := a.stop ≤ b.start

def Span.Apart (a b : Span) : Prop := a.Before b ∨ b.Before a

/-- A byte lies in a span. -/
def Span.Has (s : Span) (offset : Nat) : Prop := s.start ≤ offset ∧ offset < s.stop

/-- A span is not empty and stands for whole characters of a text that starts at an offset: for `text`, with
`tail` behind it. -/
def Span.Cuts (s : Span) (start : Nat) (cs text tail : List Char) : Prop :=
  s.start < s.stop ∧ ∃ before, cs = before ++ (text ++ tail) ∧ s.start = start + byteCount before ∧
    s.stop = s.start + byteCount text

/-- A piece where it stands in the source. -/
structure Segment where
  piece : Piece
  span : Span
  text : List Char
  tail : List Char

namespace Segment

variable {g : Segment} {gs : List Segment}

def lexeme? (g : Segment) : Option Lexeme :=
  match g.piece with
  | .token t => some ⟨t, g.span⟩
  | _ => none

def stray? (g : Segment) : Option Stray :=
  match g.piece with
  | .stray => some ⟨g.span, String.ofList g.text⟩
  | _ => none

theorem lexeme?_eq_some {l : Lexeme} : g.lexeme? = some l ↔ g.piece = .token l.token ∧ g.span = l.span := by
  obtain ⟨piece, span, text, tail⟩ := g
  obtain ⟨token, at'⟩ := l
  cases piece <;> simp [lexeme?]

theorem stray?_eq_some {s : Stray} :
    g.stray? = some s ↔ g.piece = .stray ∧ g.span = s.span ∧ String.ofList g.text = s.text := by
  obtain ⟨piece, span, text, tail⟩ := g
  obtain ⟨at', shown⟩ := s
  cases piece <;> simp [stray?]

theorem mem_lexemes {l : Lexeme} :
    l ∈ gs.filterMap lexeme? ↔ ∃ g ∈ gs, g.piece = .token l.token ∧ g.span = l.span := by
  simp only [List.mem_filterMap, lexeme?_eq_some]

theorem mem_strays {s : Stray} : s ∈ gs.filterMap stray? ↔
    ∃ g ∈ gs, g.piece = .stray ∧ g.span = s.span ∧ String.ofList g.text = s.text := by
  simp only [List.mem_filterMap, stray?_eq_some]

/-- Segments that divide a text that starts at an offset. -/
inductive Divide : Nat → List Char → List Segment → Prop
  | nil {start : Nat} : Divide start [] []
  | cons {start : Nat} {text tail : List Char} {gs : List Segment} {piece : Piece}
      (hne : text ≠ []) (hpiece : piece.Covers text tail) (hlater : Divide (start + byteCount text) tail gs) :
      Divide start (text ++ tail) (⟨piece, ⟨start, start + byteCount text⟩, text, tail⟩ :: gs)

theorem lexFrom_divides (fuel start : Nat) (cs : List Char) (hfuel : cs.length ≤ fuel) :
    ∃ gs, Divide start cs gs ∧ lexFrom fuel start cs = ⟨gs.filterMap lexeme?, gs.filterMap stray?⟩ := by
  induction fuel generalizing start cs with
  | zero =>
    obtain rfl := List.length_eq_zero_iff.1 (Nat.le_zero.1 hfuel)
    exact ⟨[], .nil, rfl⟩
  | succ fuel ih =>
    cases cs with
    | nil => exact ⟨[], .nil, rfl⟩
    | cons c rest =>
      obtain ⟨text, tail, hcs, hne, hlength, hpiece⟩ := covers_scan c rest
      have htail : tail.length ≤ fuel := by
        have := congrArg List.length hcs
        have := List.length_pos_iff.2 hne
        simp at *
        omega
      obtain ⟨gs, hgs, hlater⟩ := ih (start + byteCount text) tail htail
      refine ⟨_, hcs ▸ Divide.cons hne hpiece hgs, ?_⟩
      rw [lexFrom, hcs, hlength, List.take_left, List.drop_left, hlater]
      cases (scan c rest).piece <;> simp [lexeme?, stray?, List.filterMap_cons]

theorem Divide.cuts (h : Divide start cs gs) :
    ∀ g ∈ gs, g.span.Cuts start cs g.text g.tail ∧ g.piece.Covers g.text g.tail := by
  induction h with
  | nil => simp
  | @cons start text tail gs piece hne hpiece hlater ih =>
    rw [List.forall_mem_cons]
    refine ⟨⟨⟨Nat.lt_add_of_pos_right (byteCount_pos hne), [], rfl, rfl, rfl⟩, hpiece⟩, fun g hg => ?_⟩
    obtain ⟨⟨hspan, before, htail, hstart, hstop⟩, hg⟩ := ih g hg
    refine ⟨⟨hspan, text ++ before, ?_, ?_, hstop⟩, hg⟩
    · rw [htail, List.append_assoc]
    · rw [hstart, byteCount_append, Nat.add_assoc]

theorem Divide.pairwise (h : Divide start cs gs) : gs.Pairwise fun a b => a.span.Before b.span := by
  induction h with
  | nil => exact .nil
  | cons hne hpiece hlater ih =>
    refine .cons (fun g hg => ?_) ih
    obtain ⟨⟨-, before, -, hstart, -⟩, -⟩ := hlater.cuts g hg
    exact (Nat.le_add_right _ _).trans_eq hstart.symm

theorem Divide.apart (h : Divide start cs gs) {a b : Segment} (ha : a ∈ gs) (hb : b ∈ gs)
    (hne : a.piece ≠ b.piece) : a.span.Apart b.span := by
  have : Std.Symm fun a b : Segment => a.span.Apart b.span := ⟨fun _ _ => Or.symm⟩
  have hpairwise : gs.Pairwise fun a b => a.span.Apart b.span := h.pairwise.imp .inl
  exact hpairwise.forall ha hb fun heq => hne (heq ▸ rfl)

theorem Divide.exists_has (h : Divide start cs gs) {offset : Nat} (hle : start ≤ offset)
    (hlt : offset < start + byteCount cs) : ∃ g ∈ gs, g.span.Has offset := by
  induction h with
  | nil => exact absurd (Nat.lt_of_le_of_lt hle hlt) (Nat.lt_irrefl _)
  | @cons start text tail gs piece hne hpiece hlater ih =>
    by_cases hfirst : offset < start + byteCount text
    · exact ⟨_, List.mem_cons_self, hle, hfirst⟩
    · obtain ⟨g, hg, hhas⟩ := ih (Nat.le_of_not_lt hfirst) (by rw [byteCount_append] at hlt; omega)
      exact ⟨g, List.mem_cons_of_mem _ hg, hhas⟩

end Segment

/-! ## 4. The whole text -/

theorem valid_lex {ok : Float → Prop} {source : String} {l : Lexeme} (h : l ∈ (lex source).lexemes)
    (hok : ∀ x, l.token = .float x → ok x) : l.token.Valid ok := by
  obtain ⟨gs, hdivide, hlex⟩ := Segment.lexFrom_divides _ 0 source.toList (Nat.le_refl _)
  rw [lex, hlex] at h
  obtain ⟨g, hg, hpiece, -⟩ := Segment.mem_lexemes.1 h
  have hcovers := (hdivide.cuts g hg).2
  rw [hpiece] at hcovers
  exact hcovers.1 ok hok

/-- A text that is one token. -/
theorem lex_ofList {body : List Char} (h : scan c body = ⟨.token t, body.length + 1⟩) :
    lex (String.ofList (c :: body)) = ⟨[⟨t, ⟨0, byteCount (c :: body)⟩⟩], []⟩ := by
  have hnil (fuel start : Nat) : lexFrom fuel start [] = ⟨[], []⟩ := by cases fuel <;> rfl
  have htake : (c :: body).take (body.length + 1) = c :: body := by simp
  have hdrop : (c :: body).drop (body.length + 1) = [] := by simp
  simp only [lex, String.toList_ofList, List.length_cons, lexFrom, h, htake, hdrop, hnil, Nat.zero_add]

/-- Reading accounts for every byte of a text. Tokens and strays are parts of it, in order and apart from
each other. A token is read from its part alone. All else is white space and comments. -/
structure Accounts (source : String) (r : LexResult) : Prop where
  token : ∀ l ∈ r.lexemes, ∃ text tail, l.span.Cuts 0 source.toList text tail ∧
    lex (String.ofList text) = ⟨[⟨l.token, ⟨0, byteCount text⟩⟩], []⟩
  stray : ∀ s ∈ r.strays, ∃ text tail, s.span.Cuts 0 source.toList text tail ∧ s.text = String.ofList text
  tokens : r.lexemes.Pairwise fun a b => a.span.Before b.span
  strays : r.strays.Pairwise fun a b => a.span.Before b.span
  apart : ∀ l ∈ r.lexemes, ∀ s ∈ r.strays, l.span.Apart s.span
  rest : ∀ offset < byteCount source.toList, (∃ l ∈ r.lexemes, l.span.Has offset) ∨
    (∃ s ∈ r.strays, s.span.Has offset) ∨ ∃ blank text tail, Span.Cuts blank 0 source.toList text tail ∧
      blank.Has offset ∧ Piece.blank.Covers text tail ∧
      (∀ l ∈ r.lexemes, l.span.Apart blank) ∧ ∀ s ∈ r.strays, s.span.Apart blank

/-- **Reading loses nothing.** -/
theorem lex_accounts (source : String) : Accounts source (lex source) := by
  obtain ⟨gs, hdivide, hlex⟩ := Segment.lexFrom_divides _ 0 source.toList (Nat.le_refl _)
  rw [lex, hlex]
  refine ⟨fun l hl => ?_, fun s hs => ?_, ?_, ?_, fun l hl s hs => ?_, fun offset hoffset => ?_⟩
  · obtain ⟨g, hg, hpiece, hspan⟩ := Segment.mem_lexemes.1 hl
    obtain ⟨hcuts, hcovers⟩ := hdivide.cuts g hg
    rw [hpiece] at hcovers
    obtain ⟨-, c, body, htext, hscan⟩ := hcovers
    exact ⟨g.text, g.tail, hspan ▸ hcuts, htext ▸ lex_ofList hscan⟩
  · obtain ⟨g, hg, -, hspan, htext⟩ := Segment.mem_strays.1 hs
    exact ⟨g.text, g.tail, hspan ▸ (hdivide.cuts g hg).1, htext.symm⟩
  · refine List.pairwise_filterMap.2 (hdivide.pairwise.imp fun hbefore a ha b hb => ?_)
    rwa [← (Segment.lexeme?_eq_some.1 ha).2, ← (Segment.lexeme?_eq_some.1 hb).2]
  · refine List.pairwise_filterMap.2 (hdivide.pairwise.imp fun hbefore a ha b hb => ?_)
    rwa [← (Segment.stray?_eq_some.1 ha).2.1, ← (Segment.stray?_eq_some.1 hb).2.1]
  · obtain ⟨a, ha, hpiece, hl⟩ := Segment.mem_lexemes.1 hl
    obtain ⟨b, hb, hstray, hs, -⟩ := Segment.mem_strays.1 hs
    exact hl ▸ hs ▸ hdivide.apart ha hb (by simp [hpiece, hstray])
  · obtain ⟨g, hg, hhas⟩ := hdivide.exists_has (Nat.zero_le offset) (by rwa [Nat.zero_add])
    obtain ⟨hcuts, hcovers⟩ := hdivide.cuts g hg
    cases hpiece : g.piece with
    | token t => exact .inl ⟨⟨t, g.span⟩, Segment.mem_lexemes.2 ⟨g, hg, hpiece, rfl⟩, hhas⟩
    | stray =>
      exact .inr (.inl ⟨⟨g.span, String.ofList g.text⟩, Segment.mem_strays.2 ⟨g, hg, hpiece, rfl, rfl⟩, hhas⟩)
    | blank =>
      rw [hpiece] at hcovers
      refine .inr (.inr ⟨g.span, g.text, g.tail, hcuts, hhas, hcovers, fun l hl => ?_, fun s hs => ?_⟩)
      · obtain ⟨a, ha, htoken, hl⟩ := Segment.mem_lexemes.1 hl
        exact hl ▸ hdivide.apart ha hg (by simp [hpiece, htoken])
      · obtain ⟨a, ha, hstray, hs, -⟩ := Segment.mem_strays.1 hs
        exact hs ▸ hdivide.apart ha hg (by simp [hpiece, hstray])

end RangedIR.Source
