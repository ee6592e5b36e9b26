/-
RangedIR.Proofs.Code.Debug — declared types read back from their text.

The text of a declared type that was read is read as the same type, although white
space may have been lost on the way: what is inside the wrappers is trimmed, and a
wrapper is written the way it is tried first.
-/
import Mathlib.Data.List.DropRight
import Mathlib.Data.List.Infix
import RangedIR.Code.Debug

namespace RangedIR

open Text

/-! ## 1. Trimmed texts -/

/-- No white space at either end. -/
structure Trimmed (cs : List Char) : Prop where
  front : ∀ c ∈ cs.head?, isBlank c = false
  back : ∀ c ∈ cs.getLast?, isBlank c = false

section

variable {cs rest : List Char}

theorem trim_eq (cs : List Char) : trim cs = (cs.dropWhile isBlank).rdropWhile isBlank := rfl

theorem head_dropWhile_isBlank (cs : List Char) : ∀ c ∈ (cs.dropWhile isBlank).head?, isBlank c = false := by
  intro c hc
  have h := List.head?_dropWhile_not isBlank cs
  rwa [hc] at h

theorem trimmed_trim (cs : List Char) : Trimmed (trim cs) where
  front := by
    intro c hc
    obtain ⟨later, hlater⟩ := List.rdropWhile_prefix isBlank (cs.dropWhile isBlank)
    refine head_dropWhile_isBlank cs c ?_
    rw [← hlater, List.head?_append, trim_eq] at *
    rw [hc]
    rfl
  back := by
    intro c hc
    obtain ⟨hne, rfl⟩ := List.mem_getLast?_eq_getLast hc
    exact Bool.eq_false_iff.2 (List.rdropWhile_last_not isBlank _ hne)

theorem rdropWhile_of_back (h : ∀ c ∈ cs.getLast?, isBlank c = false) : cs.rdropWhile isBlank = cs := by
  rw [List.rdropWhile_eq_self_iff]
  intro hne
  simpa using h _ (List.getLast?_eq_some_getLast hne)

theorem trim_of_trimmed (h : Trimmed cs) : trim cs = cs := by
  have hfront : cs.dropWhile isBlank = cs := by
    cases cs with
    | nil => rfl
    | cons c cs => simp [h.front c rfl]
  rw [trim_eq, hfront, rdropWhile_of_back h.back]

theorem isInfix_trim (cs : List Char) : trim cs <:+: cs :=
  (List.rdropWhile_prefix isBlank _).isInfix.trans (List.dropWhile_suffix isBlank).isInfix

/-- A text behind one that starts without white space. -/
theorem Trimmed.behind (h : Trimmed rest) (hne : rest ≠ []) (hfront : ∀ c ∈ cs.head?, isBlank c = false) :
    Trimmed (cs ++ rest) where
  front := by
    cases cs with
    | nil => exact h.front
    | cons c cs => exact hfront
  back := by
    rw [List.getLast?_append_of_ne_nil cs hne]
    exact h.back

end

/-! ## 2. Declared types in normal form -/

namespace DebugType

theorem structWord_eq : structWord = ['s', 't', 'r', 'u', 'c', 't', ' '] := by decide

/-- A text that ends like no address and no array. -/
def EndsPlain (cs : List Char) : Prop := ¬ ['*'] <:+ cs ∧ ¬ ['[', ']'] <:+ cs

section

variable {fuel : Nat} {cs inner : List Char}

theorem dropEnding?_append (ending cs : List Char) : dropEnding? ending (cs ++ ending) = some cs := by
  simp [dropEnding?]

theorem dropEnding?_eq_none {ending : List Char} (h : ¬ ending <:+ cs) : dropEnding? ending cs = none := by
  simpa [dropEnding?] using h

theorem ofChars_pointer (h : inner ++ ['*'] = trim cs) : ofChars (fuel + 1) cs = pointer (ofChars fuel inner) := by
  rw [ofChars, ← h]
  simp only [dropEnding?_append]

theorem ofChars_array (hstar : ¬ ['*'] <:+ trim cs) (h : inner ++ ['[', ']'] = trim cs) :
    ofChars (fuel + 1) cs = array (ofChars fuel inner) := by
  rw [ofChars, dropEnding?_eq_none hstar, ← h]
  simp only [dropEnding?_append]

theorem ofChars_struct (hends : EndsPlain (trim cs)) (h : structWord ++ inner = trim cs) :
    ofChars (fuel + 1) cs = struct (ofChars fuel inner) := by
  have hword : dropBeginning? structWord (structWord ++ inner) = some inner := by simp [dropBeginning?]
  rw [ofChars, dropEnding?_eq_none hends.1, dropEnding?_eq_none hends.2, ← h, hword]

theorem ofChars_named (hends : EndsPlain (trim cs)) (h : ¬ structWord <+: trim cs) :
    ofChars (fuel + 1) cs = named (String.ofList (trim cs)) := by
  have hword : dropBeginning? structWord (trim cs) = none := by simpa [dropBeginning?] using h
  rw [ofChars, dropEnding?_eq_none hends.1, dropEnding?_eq_none hends.2, hword]

/-- What is read from a text, by the way the text without white space ends and begins. -/
theorem ofChars_cases (fuel : Nat) (cs : List Char) :
    (∃ inner, inner ++ ['*'] = trim cs ∧ ofChars (fuel + 1) cs = pointer (ofChars fuel inner)) ∨
      (∃ inner, inner ++ ['[', ']'] = trim cs ∧ ofChars (fuel + 1) cs = array (ofChars fuel inner)) ∨
      (∃ inner, structWord ++ inner = trim cs ∧ EndsPlain (trim cs) ∧
        ofChars (fuel + 1) cs = struct (ofChars fuel inner)) ∨
      EndsPlain (trim cs) ∧ ¬ structWord <+: trim cs ∧ ofChars (fuel + 1) cs = named (String.ofList (trim cs)) := by
  by_cases hstar : ['*'] <:+ trim cs
  · obtain ⟨inner, h⟩ := hstar
    exact .inl ⟨inner, h, ofChars_pointer h⟩
  by_cases hbrackets : ['[', ']'] <:+ trim cs
  · obtain ⟨inner, h⟩ := hbrackets
    exact .inr (.inl ⟨inner, h, ofChars_array hstar h⟩)
  have hends : EndsPlain (trim cs) := ⟨hstar, hbrackets⟩
  by_cases hword : structWord <+: trim cs
  · obtain ⟨inner, h⟩ := hword
    exact .inr (.inr (.inl ⟨inner, h, hends, ofChars_struct hends h⟩))
  · exact .inr (.inr (.inr ⟨hends, hword, ofChars_named hends hword⟩))

end

/-- A declared type that is read back from its text. -/
def Normal : DebugType → Prop
  | named n => Trimmed n.toList ∧ EndsPlain n.toList ∧ ¬ structWord <+: n.toList
  | pointer t | array t => t.Normal
  | struct t => t.Normal ∧ t.text.toList ≠ [] ∧ EndsPlain t.text.toList

theorem toList_text_pointer (t : DebugType) : (pointer t).text.toList = t.text.toList ++ ['*'] := by
  simp [text]

theorem toList_text_array (t : DebugType) : (array t).text.toList = t.text.toList ++ ['[', ']'] := by
  simp [text]

theorem toList_text_struct (t : DebugType) : (struct t).text.toList = structWord ++ t.text.toList :=
  String.toList_append

theorem Normal.trimmed {t : DebugType} (h : t.Normal) : Trimmed t.text.toList := by
  induction t with
  | named n => exact h.1
  | pointer t ih =>
    have hstar : Trimmed ['*'] := ⟨by simp [isBlank], by simp [isBlank]⟩
    rw [toList_text_pointer]
    exact hstar.behind (by simp) (ih h).front
  | array t ih =>
    have hbrackets : Trimmed ['[', ']'] := ⟨by simp [isBlank], by simp [isBlank]⟩
    rw [toList_text_array]
    exact hbrackets.behind (by simp) (ih h).front
  | struct t ih =>
    have hword : ∀ c ∈ structWord.head?, isBlank c = false := by simp [structWord_eq, isBlank]
    rw [toList_text_struct]
    exact (ih h.1).behind h.2.1 hword

/-- The word in front of a text does not change how it ends. -/
theorem EndsPlain.struct {cs : List Char} (h : EndsPlain cs) (hne : cs ≠ []) : EndsPlain (structWord ++ cs) := by
  have hlength := List.length_pos_iff.2 hne
  have hself : cs <:+ structWord ++ cs := List.suffix_append _ _
  refine ⟨fun hstar => h.1 (List.suffix_of_suffix_length_le hstar hself hlength), fun hbrackets => ?_⟩
  by_cases hlong : 2 ≤ cs.length
  · exact h.2 (List.suffix_of_suffix_length_le hbrackets hself hlong)
  · -- a single character has the blank of the word in front of it
    obtain ⟨c, rfl⟩ := List.length_eq_one_iff.1 (show cs.length = 1 by omega)
    obtain ⟨before, hbefore⟩ := hbrackets
    have hfront : before ++ ['['] = structWord := by
      have hdropped := congrArg List.dropLast hbefore
      rwa [List.dropLast_concat, List.append_cons before '[' [']'], List.dropLast_concat] at hdropped
    have hlast := congrArg List.getLast? hfront
    rw [List.getLast?_concat] at hlast
    exact absurd hlast (by decide)

theorem exists_fuel {n k fuel : Nat} (hk : 0 < k) (h : n + k ≤ fuel) : ∃ left, fuel = left + 1 ∧ n ≤ left :=
  ⟨fuel - 1, by omega, by omega⟩

theorem Normal.ofChars_text {t : DebugType} (h : t.Normal) {fuel : Nat} (hfuel : t.text.toList.length ≤ fuel) :
    ofChars fuel t.text.toList = t := by
  have htrim := trim_of_trimmed h.trimmed
  induction t generalizing fuel with
  | named n =>
    have hself : trim n.toList = n.toList := htrim
    cases fuel with
    | zero => simp [ofChars, text, hself]
    | succ fuel =>
      rw [text, ofChars_named (by rw [hself]; exact h.2.1) (by rw [hself]; exact h.2.2), hself, String.ofList_toList]
  | pointer t ih =>
    rw [toList_text_pointer] at hfuel htrim ⊢
    rw [List.length_append] at hfuel
    obtain ⟨left, rfl, hleft⟩ := exists_fuel (by decide) hfuel
    rw [ofChars_pointer htrim.symm, ih h hleft (trim_of_trimmed (Normal.trimmed h))]
  | array t ih =>
    rw [toList_text_array] at hfuel htrim ⊢
    rw [List.length_append] at hfuel
    obtain ⟨left, rfl, hleft⟩ := exists_fuel (by decide) hfuel
    have hstar : ¬ ['*'] <:+ t.text.toList ++ ['[', ']'] := by
      rintro ⟨before, hbefore⟩
      have hlast := congrArg List.getLast? hbefore
      simp at hlast
    rw [ofChars_array (by rwa [htrim]) htrim.symm, ih h hleft (trim_of_trimmed (Normal.trimmed h))]
  | struct t ih =>
    rw [toList_text_struct] at hfuel htrim ⊢
    rw [List.length_append, Nat.add_comm] at hfuel
    obtain ⟨left, rfl, hleft⟩ := exists_fuel (by decide) hfuel
    have hends := h.2.2.struct h.2.1
    rw [ofChars_struct (by rwa [htrim]) htrim.symm, ih h.1 hleft (trim_of_trimmed h.1.trimmed)]

/-! ## 3. Declared types that were read -/

/-- What stands behind the word of a trimmed text ends the way the text does. -/
theorem endsPlain_trim_behind {inner : List Char} (h : Trimmed (structWord ++ inner))
    (hends : EndsPlain (structWord ++ inner)) : EndsPlain (trim inner) ∧ trim inner ≠ [] := by
  have hne : inner ≠ [] := by
    rintro rfl
    exact absurd (h.back ' ' rfl) (by decide)
  have hback : ∀ c ∈ inner.getLast?, isBlank c = false := by
    rw [← List.getLast?_append_of_ne_nil structWord hne]
    exact h.back
  obtain ⟨c, hc⟩ := Option.ne_none_iff_exists'.1 (mt List.getLast?_eq_none_iff.1 hne)
  have hkept : inner.dropWhile isBlank ≠ [] := by
    intro hnil
    have hblank := List.dropWhile_eq_nil_iff.1 hnil c (List.mem_of_getLast? hc)
    simp [hback c hc] at hblank
  have hsuffix := List.dropWhile_suffix (l := inner) isBlank
  have htrim : trim inner = inner.dropWhile isBlank := by
    refine rdropWhile_of_back ?_
    obtain ⟨front, hfront⟩ := hsuffix
    rw [← List.getLast?_append_of_ne_nil front hkept, hfront]
    exact hback
  rw [htrim]
  have hwhole : inner.dropWhile isBlank <:+ structWord ++ inner := hsuffix.trans (List.suffix_append _ _)
  exact ⟨⟨fun hstar => hends.1 (hstar.trans hwhole), fun hbrackets => hends.2 (hbrackets.trans hwhole)⟩, hkept⟩

/-- What is read from a text with a plain end has such an end, and is not empty unless the
text is. -/
theorem endsPlain_ofChars {fuel : Nat} {cs : List Char} (hends : EndsPlain (trim cs))
    (hnormal : (ofChars fuel cs).Normal) :
    EndsPlain (ofChars fuel cs).text.toList ∧ (trim cs ≠ [] → (ofChars fuel cs).text.toList ≠ []) := by
  cases fuel with
  | zero => simpa [ofChars, text] using hends
  | succ fuel =>
    by_cases hword : structWord <+: trim cs
    · obtain ⟨inner, hinner⟩ := hword
      rw [ofChars_struct hends hinner] at hnormal ⊢
      rw [toList_text_struct]
      exact ⟨hnormal.2.2.struct hnormal.2.1, fun _ => List.append_ne_nil_of_right_ne_nil _ hnormal.2.1⟩
    · rw [ofChars_named hends hword]
      simpa [text] using hends

theorem normal_ofChars {fuel : Nat} {cs : List Char} (hfuel : cs.length ≤ fuel) : (ofChars fuel cs).Normal := by
  induction fuel generalizing cs with
  | zero =>
    obtain rfl := List.length_eq_zero_iff.1 (Nat.le_zero.1 hfuel)
    exact ⟨⟨by simp [trim], by simp [trim]⟩, ⟨by simp [trim], by simp [trim]⟩, by decide⟩
  | succ fuel ih =>
    have hlength := (isInfix_trim cs).length_le.trans hfuel
    have htrimmed := trimmed_trim cs
    obtain ⟨inner, hinner, h⟩ | ⟨inner, hinner, h⟩ | ⟨inner, hinner, hends, h⟩ | ⟨hends, hword, h⟩ := ofChars_cases fuel cs
    · rw [← hinner, List.length_append] at hlength
      exact h ▸ ih (Nat.le_of_succ_le_succ hlength)
    · rw [← hinner, List.length_append] at hlength
      exact h ▸ ih (Nat.le_of_succ_le (Nat.le_of_succ_le_succ hlength))
    · rw [← hinner] at htrimmed hends hlength
      have hshort : (ofChars fuel inner).Normal := by
        rw [List.length_append, Nat.add_comm] at hlength
        obtain ⟨left, hleft, hle⟩ := exists_fuel (by decide) hlength
        exact ih (Nat.succ.inj hleft ▸ hle)
      obtain ⟨hends, hne⟩ := endsPlain_trim_behind htrimmed hends
      obtain ⟨hplain, hsome⟩ := endsPlain_ofChars hends hshort
      exact h ▸ ⟨hshort, hsome hne, hplain⟩
    · rw [h]
      exact ⟨by simpa using htrimmed, by simpa using hends, by simpa using hword⟩

theorem ofText_text_ofText (s : String) : ofText (ofText s).text = ofText s :=
  (normal_ofChars (Nat.le_refl _)).ofChars_text (Nat.le_refl _)

/-- Reading and writing a declared type brings in no characters but those of its wrappers. -/
theorem mem_text_ofChars {fuel : Nat} {cs : List Char} {c : Char} (h : c ∈ (ofChars fuel cs).text.toList) :
    c ∈ cs ∨ c ∈ ['*', '[', ']'] ++ structWord := by
  induction fuel generalizing cs with
  | zero => exact Or.inl ((isInfix_trim cs).subset (by simpa [ofChars, text] using h))
  | succ fuel ih =>
    have hinner {inner : List Char} (hsub : inner ⊆ trim cs) (hc : c ∈ (ofChars fuel inner).text.toList) :
        c ∈ cs ∨ c ∈ ['*', '[', ']'] ++ structWord :=
      (ih hc).imp_left fun hmem => (isInfix_trim cs).subset (hsub hmem)
    obtain ⟨inner, heq, hread⟩ | ⟨inner, heq, hread⟩ | ⟨inner, heq, -, hread⟩ | ⟨-, -, hread⟩ := ofChars_cases fuel cs
    · rw [hread, toList_text_pointer, List.mem_append, List.mem_singleton] at h
      exact h.elim (hinner (heq ▸ List.subset_append_left _ _)) fun hc => Or.inr (by simp [hc])
    · rw [hread, toList_text_array, List.mem_append] at h
      exact h.elim (hinner (heq ▸ List.subset_append_left _ _)) fun hc =>
        Or.inr (List.mem_append_left _ (List.mem_cons_of_mem _ hc))
    · rw [hread, toList_text_struct, List.mem_append] at h
      exact h.elim (fun hc => Or.inr (List.mem_append_right _ hc))
        (hinner (heq ▸ List.subset_append_right _ _))
    · rw [hread] at h
      exact Or.inl ((isInfix_trim cs).subset (by simpa [text] using h))

/-! ## 4. Names inside the wrappers -/

theorem baseName_infix (fuel : Nat) (cs : List Char) : (ofChars fuel cs).baseName.toList <:+: cs := by
  induction fuel generalizing cs with
  | zero => simpa [ofChars, baseName] using isInfix_trim cs
  | succ fuel ih =>
    refine .trans ?_ (isInfix_trim cs)
    obtain ⟨inner, heq, hread⟩ | ⟨inner, heq, hread⟩ | ⟨inner, heq, -, hread⟩ | ⟨-, -, hread⟩ := ofChars_cases fuel cs
    · exact hread ▸ heq ▸ (ih inner).trans (List.prefix_append _ _).isInfix
    · exact hread ▸ heq ▸ (ih inner).trans (List.prefix_append _ _).isInfix
    · exact hread ▸ heq ▸ (ih inner).trans (List.suffix_append _ _).isInfix
    · simp [hread, baseName]

theorem Normal.baseName {t : DebugType} (h : t.Normal) : (named t.baseName).Normal := by
  induction t with
  | named n => exact h
  | pointer t ih | array t ih => exact ih h
  | struct t ih => exact ih h.1

/-- **Declared types round-trip.** The text of what was read from a text is read as the same, and
the name inside the wrappers is a part of the text that has no white space around it, ends like no
address and no array, and begins like no structure. -/
theorem ofText_roundTrip (s : String) :
    ofText (ofText s).text = ofText s ∧ (ofText s).baseName.toList <:+: s.toList ∧
      Trimmed (ofText s).baseName.toList ∧ ¬ ['*'] <:+ (ofText s).baseName.toList ∧
      ¬ ['[', ']'] <:+ (ofText s).baseName.toList ∧ ¬ structWord <+: (ofText s).baseName.toList := by
  obtain ⟨htrimmed, hends, hword⟩ := (normal_ofChars (Nat.le_refl s.toList.length)).baseName
  exact ⟨ofText_text_ofText s, baseName_infix _ _, htrimmed, hends.1, hends.2, hword⟩

end DebugType

end RangedIR
