import Rover.Proofs.Terminals

/-!
# How tokens are written

The texts of each terminal, as patterns, and the two halves of what the choice of a lexeme means: a token that is cut off a
text is written as its terminal says (`Lexeme.spells_of_first?`), and a text that is written so is cut off as that token
(`Lexeme.first?_of_spells`). For the second half the terminal has to be possible and the text has to end there, and one
character more is enough to see that it does (`Terminal.Ends`).
-/

namespace Rover

namespace Lexeme

/-! ### Classes of characters -/

theorem isDecimalDigit_of_lt {c : Char} (h : c.toNat < 128) :
    isDecimalDigit c = decide (48 ≤ c.toNat ∧ c.toNat ≤ 57) := by
  unfold isDecimalDigit digitValue?
  rw [if_pos h]
  split <;> simp_all

/-- Characters that start a name are no digits, no blanks, and open neither a string nor a comment. -/
theorem class_of_isNameStart {c : Char} (h : isNameStart c = true) :
    isDecimalDigit c = false ∧ isLayout c = false ∧ c ≠ '"' ∧ c ≠ '/' := by
  have hrange : c = '_' ∨ (65 ≤ c.toNat ∧ c.toNat ≤ 90) ∨ (97 ≤ c.toNat ∧ c.toNat ≤ 122) := by
    change ((c.isUpper || c.isLower) || c == '_') = true at h
    rw [Bool.or_eq_true, Bool.or_eq_true, beq_iff_eq] at h
    rcases h with (h | h) | h
    · have hupper : 65 ≤ c.val ∧ c.val ≤ 90 := of_decide_eq_true h
      exact .inr (.inl hupper)
    · have hlower : (decide (97 ≤ c.val) && decide (c.val ≤ 122)) = true := h
      rw [Bool.and_eq_true, decide_eq_true_eq, decide_eq_true_eq] at hlower
      exact .inr (.inr hlower)
    · exact .inl h
  rcases hrange with rfl | hrange
  · decide
  · refine ⟨?_, ?_, ?_, ?_⟩
    · rw [isDecimalDigit_of_lt (by omega)]
      exact decide_eq_false (by omega)
    · simp only [isLayout, Bool.or_eq_false_iff, beq_eq_false_iff_ne]
      refine ⟨⟨⟨⟨?_, ?_⟩, ?_⟩, ?_⟩, ?_⟩ <;> rintro rfl <;> revert hrange <;> decide
    · rintro rfl
      revert hrange
      decide
    · rintro rfl
      revert hrange
      decide

/-- Digits start neither a name nor a string nor something to skip. -/
theorem class_of_isDecimalDigit {c : Char} (h : isDecimalDigit c = true) :
    isNameStart c = false ∧ isLayout c = false ∧ c ≠ '"' ∧ c ≠ '/' := by
  refine ⟨?_, ?_, ?_, ?_⟩
  · by_contra hname
    rw [(class_of_isNameStart (Bool.not_eq_false _ ▸ hname)).1] at h
    cases h
  · by_contra hlayout
    rw [Bool.not_eq_false] at hlayout
    simp only [isLayout, Bool.or_eq_true, beq_iff_eq] at hlayout
    rcases hlayout with (((rfl | rfl) | rfl) | rfl) | rfl <;> revert h <;> decide
  · rintro rfl
    revert h
    decide
  · rintro rfl
    revert h
    decide

/-- Blanks are part of no token but of strings. -/
theorem class_of_isLayout {c : Char} (h : isLayout c = true) :
    isDecimalDigit c = false ∧ isNameStart c = false ∧ isNamePart c = false ∧ c ≠ '"' ∧ c ≠ '/' ∧ c ≠ '*' ∧ c ≠ '=' ∧
      c ≠ '.' ∧ c ≠ 'e' ∧ c ≠ 'E' := by
  simp only [isLayout, Bool.or_eq_true, beq_iff_eq] at h
  rcases h with (((rfl | rfl) | rfl) | rfl) | rfl <;> decide

/-! ### Runs of characters -/

theorem run_append {p : Char → Bool} {cs rest : List Char} (hcs : ∀ c ∈ cs, p c = true)
    (hrest : ∀ c ∈ rest.head?, p c = false) : run p (cs ++ rest) = cs.length := by
  unfold run
  rw [List.takeWhile_append_of_pos hcs]
  cases rest with
  | nil => simp
  | cons c rest => simp [hrest c rfl]

theorem run_spec (p : Char → Bool) (cs : List Char) :
    run p cs ≤ cs.length ∧ (∀ c ∈ cs.take (run p cs), p c = true) ∧ ∀ c ∈ (cs.drop (run p cs)).head?, p c = false := by
  unfold run
  induction cs with
  | nil => simp
  | cons c cs ih =>
      by_cases hc : p c = true
      · rw [List.takeWhile_cons_of_pos hc]
        simp only [List.length_cons, List.take_succ_cons, List.drop_succ_cons, List.mem_cons, forall_eq_or_imp]
        exact ⟨Nat.succ_le_succ ih.1, ⟨hc, ih.2.1⟩, ih.2.2⟩
      · rw [List.takeWhile_cons_of_neg hc]
        simpa using hc

theorem run_cons_of_false {p : Char → Bool} {c : Char} (h : p c = false) (cs : List Char) : run p (c :: cs) = 0 := by
  simp [run, h]

/-! ### Patterns -/

def IsDigits (cs : List Char) : Prop := cs ≠ [] ∧ ∀ c ∈ cs, isDecimalDigit c = true

/-- An `e`, a sign or none, and digits. -/
def IsExponent (cs : List Char) : Prop :=
  ∃ e sign digits, (e = 'e' ∨ e = 'E') ∧ (sign = [] ∨ sign = ['+'] ∨ sign = ['-']) ∧ IsDigits digits ∧
    cs = e :: (sign ++ digits)

/-- Digits with a point among them and an exponent or none, or digits with an exponent. -/
inductive IsFloat : List Char → Prop
  | point {whole fraction exponent : List Char} : IsDigits whole → IsDigits fraction →
      (exponent = [] ∨ IsExponent exponent) → IsFloat (whole ++ '.' :: (fraction ++ exponent))
  | exponent {whole exponent : List Char} : IsDigits whole → IsExponent exponent → IsFloat (whole ++ exponent)

def IsName (cs : List Char) : Prop :=
  ∃ c rest, cs = c :: rest ∧ isNameStart c = true ∧ ∀ d ∈ rest, isNamePart d = true

/-- What stands between the quotes of a string: escapes, and characters that need none. -/
inductive IsContent : List Char → Prop
  | nil : IsContent []
  | plain {c : Char} {cs : List Char} : c ≠ '"' → c ≠ '\\' → c ≠ '\n' → IsContent cs → IsContent (c :: cs)
  | escape {c : Char} {cs : List Char} : c ≠ '\n' → IsContent cs → IsContent ('\\' :: c :: cs)

def IsString (cs : List Char) : Prop := ∃ content, IsContent content ∧ cs = '"' :: (content ++ ['"'])

theorem intLength_append {cs rest : List Char} (h : IsDigits cs) (hrest : ∀ c ∈ rest.head?, isDecimalDigit c = false) :
    intLength (cs ++ rest) = cs.length := run_append h.2 hrest

theorem exponentLength_unsigned {e c : Char} (he : e = 'e' ∨ e = 'E') (hplus : c ≠ '+') (hminus : c ≠ '-')
    (cs : List Char) :
    exponentLength (e :: c :: cs) = if intLength (c :: cs) = 0 then 0 else 1 + intLength (c :: cs) := by
  simp only [exponentLength, if_pos he]
  split
  · rename_i heq
    exact absurd (List.cons.inj heq).1 hplus
  · rename_i heq
    exact absurd (List.cons.inj heq).1 hminus
  · rfl

theorem exponentLength_append {cs rest : List Char} (h : IsExponent cs)
    (hrest : ∀ c ∈ rest.head?, isDecimalDigit c = false) : exponentLength (cs ++ rest) = cs.length := by
  obtain ⟨e, sign, digits, he, hsign, hdigits, rfl⟩ := h
  have hlength := intLength_append hdigits hrest
  obtain ⟨d, ds, rfl⟩ := List.exists_cons_of_ne_nil hdigits.1
  have hd := hdigits.2 d List.mem_cons_self
  rcases hsign with rfl | rfl | rfl
  · have hplus : d ≠ '+' := by
      rintro rfl
      revert hd
      decide
    have hminus : d ≠ '-' := by
      rintro rfl
      revert hd
      decide
    simp only [List.cons_append, List.nil_append] at hlength ⊢
    rw [exponentLength_unsigned he hplus hminus, hlength]
    simp
    omega
  · simp only [List.cons_append, List.nil_append] at hlength ⊢
    simp [exponentLength, he, hlength]
    omega
  · simp only [List.cons_append, List.nil_append] at hlength ⊢
    simp [exponentLength, he, hlength]
    omega

theorem exists_of_intLength {cs : List Char} (h : intLength cs ≠ 0) :
    ∃ text rest, cs = text ++ rest ∧ text.length = intLength cs ∧ IsDigits text ∧
      ∀ c ∈ rest.head?, isDecimalDigit c = false := by
  obtain ⟨hle, htake, hdrop⟩ := run_spec isDecimalDigit cs
  have hlength : (cs.take (intLength cs)).length = intLength cs := List.length_take_of_le hle
  refine ⟨_, _, (List.take_append_drop (intLength cs) cs).symm, hlength, ⟨?_, htake⟩, hdrop⟩
  exact List.ne_nil_of_length_pos (by omega)

theorem exists_of_exponentLength {cs : List Char} (h : exponentLength cs ≠ 0) :
    ∃ text rest, cs = text ++ rest ∧ text.length = exponentLength cs ∧ IsExponent text ∧
      ∀ c ∈ rest.head?, isDecimalDigit c = false := by
  cases cs with
  | nil => simp [exponentLength] at h
  | cons e cs =>
      by_cases he : e = 'e' ∨ e = 'E'
      · have hdigits {sign cs : List Char} (hsign : sign = [] ∨ sign = ['+'] ∨ sign = ['-']) (hcs : intLength cs ≠ 0) :
            ∃ text rest, e :: (sign ++ cs) = text ++ rest ∧ text.length = 1 + sign.length + intLength cs ∧
              IsExponent text ∧ ∀ c ∈ rest.head?, isDecimalDigit c = false := by
          obtain ⟨digits, rest, heq, hlength, hdigits, hrest⟩ := exists_of_intLength hcs
          refine ⟨e :: (sign ++ digits), rest, by simp [heq], ?_, ⟨e, sign, digits, he, hsign, hdigits, rfl⟩, hrest⟩
          simp [hlength]
          omega
        have hvalue : exponentLength (e :: cs) ≠ 0 → ∃ sign cs', (sign = [] ∨ sign = ['+'] ∨ sign = ['-']) ∧
            cs = sign ++ cs' ∧ intLength cs' ≠ 0 ∧ exponentLength (e :: cs) = 1 + sign.length + intLength cs' := by
          simp only [exponentLength, if_pos he]
          split
          · rename_i rest
            intro hne
            have hdrop : intLength rest ≠ 0 := by
              intro hzero
              simp [hzero] at hne
            exact ⟨['+'], rest, by simp, rfl, hdrop, by simp [hdrop]⟩
          · rename_i rest
            intro hne
            have hdrop : intLength rest ≠ 0 := by
              intro hzero
              simp [hzero] at hne
            exact ⟨['-'], rest, by simp, rfl, hdrop, by simp [hdrop]⟩
          · intro hne
            have hdrop : intLength cs ≠ 0 := by
              intro hzero
              simp [hzero] at hne
            exact ⟨[], cs, by simp, rfl, hdrop, by simp [hdrop]⟩
        obtain ⟨sign, cs', hsign, rfl, hne, hlength⟩ := hvalue h
        rw [hlength]
        exact hdigits hsign hne
      · simp [exponentLength, he] at h

theorem floatLength_point {whole : List Char} (h : IsDigits whole) (rest : List Char) :
    floatLength (whole ++ '.' :: rest) =
      if intLength rest = 0 then 0
      else whole.length + 1 + intLength rest + exponentLength (rest.drop (intLength rest)) := by
  have hwhole : intLength (whole ++ '.' :: rest) = whole.length := intLength_append h (by simp; decide)
  have hpos : whole.length ≠ 0 := by simpa using h.1
  simp only [floatLength, hwhole, if_neg hpos, List.drop_left]

theorem floatLength_plain {whole rest : List Char} (h : IsDigits whole) (hdigit : ∀ c ∈ rest.head?, isDecimalDigit c = false)
    (hpoint : ∀ c ∈ rest.head?, c ≠ '.') :
    floatLength (whole ++ rest) = if exponentLength rest = 0 then 0 else whole.length + exponentLength rest := by
  have hwhole : intLength (whole ++ rest) = whole.length := intLength_append h hdigit
  have hpos : whole.length ≠ 0 := by simpa using h.1
  simp only [floatLength, hwhole, if_neg hpos, List.drop_left]
  split
  · exact absurd rfl (hpoint '.' rfl)
  · rfl

theorem exponentLength_of_head {cs : List Char} (h : ∀ c ∈ cs.head?, c ≠ 'e' ∧ c ≠ 'E') : exponentLength cs = 0 := by
  cases cs with
  | nil => rfl
  | cons c cs => simp [exponentLength, h c rfl]

theorem IsExponent.head {cs : List Char} (h : IsExponent cs) :
    cs ≠ [] ∧ ∀ (rest : List Char), ∀ c ∈ (cs ++ rest).head?, isDecimalDigit c = false ∧ c ≠ '.' := by
  obtain ⟨e, sign, digits, he, -, -, rfl⟩ := h
  refine ⟨List.cons_ne_nil _ _, fun rest c hc => ?_⟩
  cases hc
  rcases he with rfl | rfl <;> decide

theorem floatLength_append {cs rest : List Char} (h : IsFloat cs)
    (hrest : ∀ c ∈ rest.head?, isDecimalDigit c = false ∧ c ≠ 'e' ∧ c ≠ 'E') : floatLength (cs ++ rest) = cs.length := by
  have hdigit : ∀ c ∈ rest.head?, isDecimalDigit c = false := fun c hc => (hrest c hc).1
  cases h with
  | @point whole fraction exponent hwhole hfraction hexponent =>
      have htail : (∀ c ∈ (exponent ++ rest).head?, isDecimalDigit c = false) ∧
          exponentLength (exponent ++ rest) = exponent.length := by
        rcases hexponent with rfl | hexponent
        · exact ⟨hdigit, exponentLength_of_head fun c hc => (hrest c hc).2⟩
        · exact ⟨fun c hc => (hexponent.head.2 rest c hc).1, exponentLength_append hexponent hdigit⟩
      have hlength : intLength (fraction ++ (exponent ++ rest)) = fraction.length := intLength_append hfraction htail.1
      have hpos : fraction.length ≠ 0 := by simpa using hfraction.1
      have hpoint := floatLength_point hwhole (fraction ++ (exponent ++ rest))
      rw [hlength, if_neg hpos, List.drop_left, htail.2] at hpoint
      simp only [List.append_assoc, List.cons_append, hpoint, List.length_append, List.length_cons]
      omega
  | @exponent whole exponent hwhole hexponent =>
      have hlength : exponentLength (exponent ++ rest) = exponent.length := exponentLength_append hexponent hdigit
      have hpos : exponent.length ≠ 0 := by simpa using hexponent.head.1
      rw [List.append_assoc, floatLength_plain hwhole (fun c hc => (hexponent.head.2 rest c hc).1)
        (fun c hc => (hexponent.head.2 rest c hc).2), hlength, if_neg hpos, List.length_append]

theorem exists_of_floatLength {cs : List Char} (h : floatLength cs ≠ 0) :
    ∃ text rest, cs = text ++ rest ∧ text.length = floatLength cs ∧ IsFloat text ∧
      ∀ c ∈ rest.head?, isDecimalDigit c = false := by
  have hwhole : intLength cs ≠ 0 := by
    intro hzero
    simp [floatLength, hzero] at h
  obtain ⟨whole, rest, rfl, -, hdigits, hrest⟩ := exists_of_intLength hwhole
  by_cases hpoint : rest.head? = some '.'
  · obtain ⟨rest, rfl⟩ := List.head?_eq_some_iff.1 hpoint
    rw [floatLength_point hdigits] at h ⊢
    have hfraction : intLength rest ≠ 0 := by
      intro hzero
      simp [hzero] at h
    rw [if_neg hfraction]
    obtain ⟨fraction, rest, rfl, hlength, hfractionDigits, hrest⟩ := exists_of_intLength hfraction
    rw [← hlength, List.drop_left]
    by_cases hexponent : exponentLength rest = 0
    · refine ⟨whole ++ '.' :: (fraction ++ []), rest, by simp, ?_, .point hdigits hfractionDigits (.inl rfl), hrest⟩
      simp [hexponent]
      omega
    · obtain ⟨exponent, rest, rfl, hlength, hexponent, hrest⟩ := exists_of_exponentLength hexponent
      refine ⟨whole ++ '.' :: (fraction ++ exponent), rest, by simp, ?_, .point hdigits hfractionDigits (.inr hexponent), hrest⟩
      simp [hlength]
      omega
  · have hplain : ∀ c ∈ rest.head?, c ≠ '.' := by
      rintro c hc rfl
      exact hpoint hc
    rw [floatLength_plain hdigits hrest hplain] at h ⊢
    have hexponent : exponentLength rest ≠ 0 := by
      intro hzero
      simp [hzero] at h
    rw [if_neg hexponent]
    obtain ⟨exponent, rest, rfl, hlength, hexponent, hrest⟩ := exists_of_exponentLength hexponent
    exact ⟨whole ++ exponent, rest, by simp, by simp [hlength], .exponent hdigits hexponent, hrest⟩

theorem IsFloat.ne_nil {cs : List Char} (h : IsFloat cs) : cs ≠ [] := by
  cases h with
  | point hwhole hfraction hexponent => simp
  | exponent hwhole hexponent => simp [hwhole.1]

theorem nameLength_append {cs rest : List Char} (h : IsName cs) (hrest : ∀ c ∈ rest.head?, isNamePart c = false) :
    nameLength (cs ++ rest) = cs.length := by
  obtain ⟨c, cs, rfl, hc, hcs⟩ := h
  simp [nameLength, hc, run_append hcs hrest]

theorem exists_of_nameLength {cs : List Char} (h : nameLength cs ≠ 0) :
    ∃ text rest, cs = text ++ rest ∧ text.length = nameLength cs ∧ IsName text ∧
      ∀ c ∈ rest.head?, isNamePart c = false := by
  cases cs with
  | nil => exact absurd rfl h
  | cons c cs =>
      have hc : isNameStart c = true := by
        by_contra hc
        simp [nameLength, hc] at h
      obtain ⟨hle, htake, hdrop⟩ := run_spec isNamePart cs
      refine ⟨c :: cs.take (run isNamePart cs), cs.drop (run isNamePart cs), by simp, ?_, ⟨c, _, rfl, hc, htake⟩, hdrop⟩
      simp [nameLength, hc, hle]

theorem closingLength_append {content : List Char} (h : IsContent content) (rest : List Char) :
    closingLength (content ++ '"' :: rest) = content.length + 1 := by
  induction h with
  | nil => cases rest <;> simp [closingLength]
  | @plain c cs hquote hbackslash hnewline hcs ih =>
      obtain ⟨d, tail, htail⟩ := List.exists_cons_of_ne_nil (show cs ++ '"' :: rest ≠ [] by simp)
      rw [htail] at ih
      simp [htail, closingLength, hquote, hbackslash, hnewline, ih]
  | @escape c cs hnewline hcs ih => simp [closingLength, hnewline, ih]

theorem exists_of_closingLength {cs : List Char} (h : closingLength cs ≠ 0) :
    ∃ content rest, cs = content ++ '"' :: rest ∧ content.length + 1 = closingLength cs ∧ IsContent content := by
  fun_induction closingLength cs with
  | case1 => exact absurd rfl h
  | case2 => exact ⟨[], [], rfl, rfl, .nil⟩
  | case3 => exact absurd rfl h
  | case4 d rest => exact ⟨[], d :: rest, rfl, rfl, .nil⟩
  | case5 => exact absurd rfl h
  | case6 => exact absurd rfl h
  | case7 => exact absurd rfl h
  | case8 d rest hnewline _ _ hn ih =>
      obtain ⟨content, rest', rfl, hlength, hcontent⟩ := ih hn
      exact ⟨'\\' :: d :: content, rest', rfl, by simp [← hlength], .escape hnewline hcontent⟩
  | case9 => exact absurd rfl h
  | case10 c d rest hquote hnewline hbackslash hn ih =>
      obtain ⟨content, rest', heq, hlength, hcontent⟩ := ih hn
      refine ⟨c :: content, rest', by simp [heq], by simp [← hlength], .plain hquote hbackslash hnewline hcontent⟩

theorem stringLength_append {cs : List Char} (h : IsString cs) (rest : List Char) :
    stringLength (cs ++ rest) = cs.length := by
  obtain ⟨content, hcontent, rfl⟩ := h
  simp [stringLength, closingLength_append hcontent]

theorem exists_of_stringLength {cs : List Char} (h : stringLength cs ≠ 0) :
    ∃ text rest, cs = text ++ rest ∧ text.length = stringLength cs ∧ IsString text := by
  unfold stringLength at h ⊢
  split at h
  · rename_i cs
    have hclosing : closingLength cs ≠ 0 := by
      intro hzero
      simp [hzero] at h
    obtain ⟨content, rest, rfl, hlength, hcontent⟩ := exists_of_closingLength hclosing
    refine ⟨'"' :: (content ++ ['"']), rest, by simp, ?_, content, hcontent, rfl⟩
    simp [← hlength]
  · exact absurd rfl h

theorem fillerLength_of_ne {c : Char} (h : c ≠ '/') (cs : List Char) :
    fillerLength (c :: cs) = run isLayout (c :: cs) := by
  unfold fillerLength
  split
  · rename_i heq
    exact absurd (List.cons.inj heq).1 h
  · rename_i heq
    exact absurd (List.cons.inj heq).1 h
  · rfl

theorem fillerLength_slash {cs : List Char} (h : ∀ c ∈ cs.head?, c ≠ '/' ∧ c ≠ '*') : fillerLength ('/' :: cs) = 0 := by
  unfold fillerLength
  split
  · rename_i heq
    cases heq
    exact absurd rfl (h '/' rfl).1
  · rename_i heq
    cases heq
    exact absurd rfl (h '*' rfl).2
  · exact run_cons_of_false (by decide) _

/-- Nothing is skipped at a character that is neither blank nor a slash. -/
theorem fillerLength_of_head {c : Char} (hlayout : isLayout c = false) (hslash : c ≠ '/') (cs : List Char) :
    fillerLength (c :: cs) = 0 := by
  rw [fillerLength_of_ne hslash]
  exact run_cons_of_false hlayout cs

end Lexeme

/-! ### Spellings -/

/-- How the tokens of a terminal are written. -/
def Terminal.Spells : Terminal → List Char → Prop
  | .float, cs => Lexeme.IsFloat cs
  | .name, cs => Lexeme.IsName cs
  | .string, cs => Lexeme.IsString cs
  | .int, cs => Lexeme.IsDigits cs
  | .keyword k, cs => cs = k.spelling.toList
  | .mark m, cs => cs = m.spelling.toList

/-- A character that cannot belong to a token of the terminal any more. -/
def Terminal.Stops (possible : Terminal → Bool) (c : Char) : Terminal → Prop
  | .float => isDecimalDigit c = false
  | .name => Lexeme.isNamePart c = false
  | .string => True
  | .int => isDecimalDigit c = false
  | .keyword _ => possible .name = true → Lexeme.isNamePart c = false
  | .mark m => (m = .slash → c ≠ '/') ∧
      ∀ m', possible (.mark m') = true → m'.spelling.toList ≠ m.spelling.toList ++ [c]

/-- A character after which the token may go on, if what follows is right: the exponent or the fraction of a number, or a
comment. -/
def Terminal.Tempts (c : Char) : Terminal → Prop
  | .float => c = 'e' ∨ c = 'E'
  | .int => c = '.' ∨ c = 'e' ∨ c = 'E'
  | .mark m => m = .slash ∧ c = '*'
  | _ => False

/-- A character that shows that the token of the terminal has ended. -/
def Terminal.Ends (possible : Terminal → Bool) (c : Char) (k : Terminal) : Prop := k.Stops possible c ∧ ¬ k.Tempts c

namespace Keyword

theorem spelling_injective {k k' : Keyword} (h : k.spelling.toList = k'.spelling.toList) : k = k' := by
  revert h
  cases k <;> cases k' <;> decide

theorem mem_all (k : Keyword) : k ∈ all := by
  cases k <;> decide

theorem isName_spelling (k : Keyword) : Lexeme.IsName k.spelling.toList := by
  cases k <;> exact ⟨_, _, rfl, by decide, List.all_eq_true.1 (by decide)⟩

/-- No keyword starts with another one. -/
theorem eq_of_starts {k k' : Keyword} {rest : List Char} (h : k'.spelling.toList <+: k.spelling.toList ++ rest) : k' = k := by
  have hor := List.prefix_or_prefix_of_prefix h (List.prefix_append k.spelling.toList rest)
  revert hor
  cases k <;> cases k' <;> decide

end Keyword

namespace Mark

theorem spelling_injective {m m' : Mark} (h : m.spelling.toList = m'.spelling.toList) : m = m' := by
  revert h
  cases m <;> cases m' <;> decide

theorem spelling_head (m : Mark) :
    ∃ c cs, m.spelling.toList = c :: cs ∧ isDecimalDigit c = false ∧ Lexeme.isNameStart c = false ∧ c ≠ '"' ∧
      Lexeme.isLayout c = false ∧ (c = '/' → m = .slash ∧ cs = []) := by
  cases m <;> exact ⟨_, _, rfl, by decide, by decide, by decide, by decide, by decide⟩

/-- A mark has at most two characters, and longer marks are tried first. -/
theorem all_eq (m : Mark) :
    ∃ before after, all = before ++ m :: after ∧
      ∀ m' ∈ before, m' ≠ m ∧ m.spelling.toList.length ≤ m'.spelling.toList.length ∧
        m'.spelling.toList.length ≤ m.spelling.toList.length + 1 := by
  refine ⟨all.takeWhile (· ≠ m), (all.dropWhile (· ≠ m)).tail, ?_, ?_⟩
  · cases m <;> rfl
  · cases m <;> decide

theorem mem_before {m m' : Mark} {before after : List Mark} (hall : all = before ++ m :: after)
    (h : m.spelling.toList.length < m'.spelling.toList.length) : m' ∈ before := by
  have hsorted : all.Pairwise fun a b => b.spelling.toList.length ≤ a.spelling.toList.length := by
    decide
  have hmem : m' ∈ all := by
    cases m' <;> decide
  rw [hall] at hsorted hmem
  rcases List.mem_append.1 hmem with hbefore | hafter
  · exact hbefore
  · rcases List.mem_cons.1 hafter with rfl | hafter
    · exact absurd h (Nat.lt_irrefl _)
    · have hle := List.rel_of_pairwise_cons (List.pairwise_append.1 hsorted).2.1 hafter
      omega

end Mark

namespace Lexeme

variable {possible : Terminal → Bool}

theorem token?_zero (k : Terminal) : token? possible k 0 = none := by
  simp [token?]

theorem token?_eq_some {k : Terminal} {n : Nat} {l : Lexeme} :
    token? possible k n = some l ↔ possible k = true ∧ 0 < n ∧ l = .token k n := by
  unfold token?
  split_ifs with h
  · simp [h, eq_comm]
  · exact ⟨nofun, fun hl => absurd ⟨hl.1, hl.2.1⟩ h⟩

theorem floatLength_of_head {c : Char} (h : isDecimalDigit c = false) (cs : List Char) : floatLength (c :: cs) = 0 := by
  have hzero : intLength (c :: cs) = 0 := run_cons_of_false h cs
  simp [floatLength, hzero]

theorem name?_of_head {c : Char} (h : isNameStart c = false) (cs : List Char) : name? possible (c :: cs) = none := by
  simp [name?, nameLength, h]

theorem stringLength_of_head {c : Char} (h : c ≠ '"') (cs : List Char) : stringLength (c :: cs) = 0 := by
  unfold stringLength
  split
  · rename_i heq
    exact absurd (List.cons.inj heq).1 h
  · rfl

theorem filler?_of_zero {cs : List Char} (h : fillerLength cs = 0) : filler? cs = none := by
  simp [filler?, h]

theorem spellingLength_eq {spelling : String} {cs : List Char} (h : spelling.toList <+: cs) :
    spellingLength spelling cs = spelling.toList.length := by
  rw [spellingLength, if_pos (List.isPrefixOf_iff_prefix.2 h), String.length_toList]

theorem starts_of_spellingLength {spelling : String} {cs : List Char} (h : 0 < spellingLength spelling cs) :
    spelling.toList <+: cs := by
  unfold spellingLength at h
  split_ifs at h with hstarts
  · exact List.isPrefixOf_iff_prefix.1 hstarts
  · exact absurd h (Nat.lt_irrefl 0)

/-- At a character that starts no name there is no keyword. -/
theorem keyword?_of_head {c : Char} (h : isNameStart c = false) (cs : List Char) : keyword? possible (c :: cs) = none := by
  refine List.findSome?_eq_none_iff.2 fun k _ => ?_
  by_contra hsome
  obtain ⟨l, hl⟩ := Option.ne_none_iff_exists'.1 hsome
  obtain ⟨-, hpos, -⟩ := token?_eq_some.1 hl
  obtain ⟨d, ds, hspelling, hd, -⟩ := k.isName_spelling
  have hstarts := starts_of_spellingLength hpos
  rw [hspelling] at hstarts
  rw [(List.cons_prefix_cons.1 hstarts).1, h] at hd
  cases hd

/-- What stands at the start of a text, as the first alternative that matches. -/
theorem first?_eq (cs : List Char) :
    first? possible cs = ((token? possible .float (floatLength cs)).or ((name? possible cs).or
      ((token? possible .string (stringLength cs)).or ((filler? cs).or ((token? possible .int (intLength cs)).or
        ((keyword? possible cs).or (mark? possible cs))))))) := by
  simp only [first?, Option.orElse_eq_orElse, Option.orElse_eq_or]

theorem mark?_spelling {m : Mark} (hpossible : possible (.mark m) = true) {rest : List Char}
    (hends : ∀ c ∈ rest.head?, Terminal.Stops possible c (.mark m)) :
    mark? possible (m.spelling.toList ++ rest) = some (.token (.mark m) m.spelling.toList.length) := by
  obtain ⟨before, after, hall, hbefore⟩ := m.all_eq
  refine List.findSome?_eq_some_iff.2 ⟨before, m, after, hall, ?_, fun m' hm' => ?_⟩
  · obtain ⟨c, cs, hspelling, -⟩ := m.spelling_head
    rw [spellingLength_eq (List.prefix_append _ _), token?_eq_some]
    exact ⟨hpossible, by simp [hspelling], rfl⟩
  · -- A mark that is tried earlier is as long, and another one, or longer by a character that is not there.
    by_contra hsome
    obtain ⟨l, hl⟩ := Option.ne_none_iff_exists'.1 hsome
    obtain ⟨hpossible', hpos, -⟩ := token?_eq_some.1 hl
    obtain ⟨hne, hle, hle'⟩ := hbefore m' hm'
    obtain ⟨more, hmore⟩ := starts_of_spellingLength hpos
    obtain ⟨tail, htail, hrest⟩ | ⟨tail, htail, hrest⟩ := List.append_eq_append_iff.1 hmore
    · have htail_nil : tail = [] := by
        rw [htail, List.length_append] at hle
        exact List.length_eq_zero_iff.1 (by omega)
      rw [htail_nil, List.append_nil] at htail
      exact hne (Mark.spelling_injective htail.symm)
    · rw [htail] at hle'
      have hlength : tail.length ≤ 1 := by simpa using hle'
      match tail, hlength with
      | [], _ =>
          rw [List.append_nil] at htail
          exact hne (Mark.spelling_injective htail)
      | [c], _ => exact (hends c (by simp [hrest])).2 m' hpossible' htail

theorem keyword?_spelling {k : Keyword} (hpossible : possible (.keyword k) = true) (rest : List Char) :
    keyword? possible (k.spelling.toList ++ rest) = some (.token (.keyword k) k.spelling.toList.length) := by
  have hlength := spellingLength_eq (List.prefix_append k.spelling.toList rest)
  have hk : token? possible (.keyword k) (spellingLength k.spelling (k.spelling.toList ++ rest)) =
      some (.token (.keyword k) k.spelling.toList.length) := by
    obtain ⟨c, cs, hspelling, -⟩ := k.isName_spelling
    rw [hlength, token?_eq_some]
    exact ⟨hpossible, by simp [hspelling], rfl⟩
  have hsome : (keyword? possible (k.spelling.toList ++ rest)).isSome := by
    refine List.findSome?_isSome_iff.2 ⟨k, k.mem_all, ?_⟩
    rw [hk]
    rfl
  obtain ⟨l, hl⟩ := Option.isSome_iff_exists.1 hsome
  obtain ⟨_, k', _, _, hk', _⟩ := List.findSome?_eq_some_iff.1 hl
  obtain ⟨-, hpos, -⟩ := token?_eq_some.1 hk'
  rw [Keyword.eq_of_starts (starts_of_spellingLength hpos), hk] at hk'
  rw [hl, ← hk']

theorem nameTerminal_keyword {k : Keyword} (hpossible : possible (.keyword k) = true) :
    nameTerminal possible k.spelling.toList = .keyword k := by
  unfold nameTerminal
  split
  · rename_i k' hk'
    have hspelling := List.find?_some hk'
    simp only [Bool.and_eq_true, beq_iff_eq] at hspelling
    rw [Keyword.spelling_injective hspelling.2]
  · rename_i hnone
    simpa [hpossible] using List.find?_eq_none.1 hnone k k.mem_all

theorem nameTerminal_name {cs : List Char} (h : ∀ k, possible (.keyword k) = true → k.spelling.toList ≠ cs) :
    nameTerminal possible cs = .name := by
  unfold nameTerminal
  split
  · rename_i k hk
    have hspelling := List.find?_some hk
    simp only [Bool.and_eq_true, beq_iff_eq] at hspelling
    exact absurd hspelling.2 (h k hspelling.1)
  · rfl

/-- A text that is written as a possible terminal, and that ends there, is cut off as a token of it. -/
theorem first?_of_spells {k : Terminal} {cs rest : List Char} (hpossible : possible k = true) (hcs : k.Spells cs)
    (hname : k = .name → ∀ k', possible (.keyword k') = true → k'.spelling.toList ≠ cs)
    (hends : ∀ c ∈ rest.head?, k.Ends possible c) : first? possible (cs ++ rest) = some (.token k cs.length) := by
  rw [first?_eq]
  cases k with
  | float =>
      have hlength : floatLength (cs ++ rest) = cs.length :=
        floatLength_append hcs fun c hc => ⟨(hends c hc).1, fun h => (hends c hc).2 (.inl h), fun h => (hends c hc).2 (.inr h)⟩
      rw [hlength, token?_eq_some.2 ⟨hpossible, List.length_pos_iff.2 hcs.ne_nil, rfl⟩, Option.some_or]
  | name =>
      have hlength : nameLength (cs ++ rest) = cs.length := nameLength_append hcs fun c hc => (hends c hc).1
      obtain ⟨c, cs, rfl, hc, -⟩ := hcs
      have hsome : name? possible (c :: cs ++ rest) = some (.token .name (c :: cs).length) := by
        simp only [name?, hlength, hpossible, List.take_left, nameTerminal_name (hname rfl)]
        simp
      rw [hsome, List.cons_append, floatLength_of_head (class_of_isNameStart hc).1, token?_zero, Option.none_or, Option.some_or]
  | string =>
      have hlength := stringLength_append hcs rest
      obtain ⟨content, -, rfl⟩ := hcs
      rw [hlength, token?_eq_some.2 ⟨hpossible, by simp, rfl⟩, List.cons_append, floatLength_of_head (by decide), token?_zero,
        name?_of_head (by decide), Option.none_or, Option.none_or, Option.some_or]
  | int =>
      have hlength : intLength (cs ++ rest) = cs.length := intLength_append hcs fun c hc => (hends c hc).1
      have hfloat : floatLength (cs ++ rest) = 0 := by
        rw [floatLength_plain hcs (fun c hc => (hends c hc).1) fun c hc h => (hends c hc).2 (.inl h),
          exponentLength_of_head fun c hc => ⟨fun h => (hends c hc).2 (.inr (.inl h)), fun h => (hends c hc).2 (.inr (.inr h))⟩,
          if_pos rfl]
      obtain ⟨c, cs, rfl⟩ := List.exists_cons_of_ne_nil hcs.1
      obtain ⟨hstart, hlayout, hquote, hslash⟩ := class_of_isDecimalDigit (hcs.2 c List.mem_cons_self)
      rw [hlength, hfloat, token?_eq_some.2 ⟨hpossible, by simp, rfl⟩, List.cons_append, token?_zero, name?_of_head hstart,
        stringLength_of_head hquote, token?_zero, filler?_of_zero (fillerLength_of_head hlayout hslash _), Option.none_or,
        Option.none_or, Option.none_or, Option.none_or, Option.some_or]
  | keyword k =>
      cases hcs
      obtain ⟨c, cs, hspelling, hc, -⟩ := k.isName_spelling
      obtain ⟨hdigit, hlayout, hquote, hslash⟩ := class_of_isNameStart hc
      have hfloat : token? possible .float (floatLength (k.spelling.toList ++ rest)) = none := by
        rw [hspelling, List.cons_append, floatLength_of_head hdigit, token?_zero]
      by_cases hnames : possible .name = true
      · have hlength : nameLength (k.spelling.toList ++ rest) = k.spelling.toList.length :=
          nameLength_append k.isName_spelling fun c hc => (hends c hc).1 hnames
        have hsome : name? possible (k.spelling.toList ++ rest) = some (.token (.keyword k) k.spelling.toList.length) := by
          simp only [name?, hlength, hnames, List.take_left, nameTerminal_keyword hpossible]
          simp [hspelling]
        rw [hfloat, hsome, Option.none_or, Option.some_or]
      · have hnone : name? possible (k.spelling.toList ++ rest) = none := by
          simp [name?, hnames]
        have hint : intLength (c :: (cs ++ rest)) = 0 := run_cons_of_false hdigit _
        rw [hfloat, hnone, keyword?_spelling hpossible, hspelling, List.cons_append, stringLength_of_head hquote, token?_zero,
          filler?_of_zero (fillerLength_of_head hlayout hslash _), hint, token?_zero, Option.none_or, Option.none_or,
          Option.none_or, Option.none_or, Option.none_or, Option.some_or]
  | mark m =>
      cases hcs
      have hmark := mark?_spelling hpossible fun c hc => (hends c hc).1
      obtain ⟨c, cs, hspelling, hdigit, hstart, hquote, hlayout, hslash⟩ := m.spelling_head
      have hfiller : fillerLength (c :: (cs ++ rest)) = 0 := by
        by_cases hc : c = '/'
        · obtain ⟨rfl, rfl⟩ := hslash hc
          subst hc
          exact fillerLength_slash fun d hd => ⟨(hends d hd).1.1 rfl, fun h => (hends d hd).2 ⟨rfl, h⟩⟩
        · exact fillerLength_of_head hlayout hc _
      have hint : intLength (c :: (cs ++ rest)) = 0 := run_cons_of_false hdigit _
      rw [hmark, hspelling, List.cons_append, floatLength_of_head hdigit, token?_zero, name?_of_head hstart,
        stringLength_of_head hquote, token?_zero, filler?_of_zero hfiller, hint, token?_zero, keyword?_of_head hstart,
        Option.none_or, Option.none_or, Option.none_or, Option.none_or, Option.none_or, Option.none_or]

theorem spells_of_name? {cs : List Char} {k : Terminal} {n : Nat} (h : name? possible cs = some (.token k n)) :
    ∃ text rest, cs = text ++ rest ∧ text.length = n ∧ possible k = true ∧ k.Spells text ∧
      (k = .name → ∀ k', possible (.keyword k') = true → k'.spelling.toList ≠ text) ∧
      ∀ c ∈ rest.head?, k.Stops possible c := by
  simp only [name?] at h
  split_ifs at h with hcond
  obtain ⟨hnames, hpos⟩ := hcond
  obtain ⟨text, rest, rfl, hlength, htext, hrest⟩ := exists_of_nameLength (Nat.ne_of_gt hpos)
  rw [← hlength, List.take_left] at h
  simp only [Option.some.injEq, Lexeme.token.injEq] at h
  obtain ⟨hk, hn⟩ := h
  refine ⟨text, rest, rfl, hn, ?_⟩
  unfold nameTerminal at hk
  split at hk
  · rename_i k' hk'
    have hspelling := List.find?_some hk'
    simp only [Bool.and_eq_true, beq_iff_eq] at hspelling
    subst hk
    exact ⟨hspelling.1, hspelling.2.symm, (fun hname => by cases hname), fun c hc _ => hrest c hc⟩
  · rename_i hnone
    subst hk
    refine ⟨hnames, htext, fun _ k' hpossible => ?_, hrest⟩
    simpa [hpossible] using List.find?_eq_none.1 hnone k' k'.mem_all

theorem spells_of_mark? {cs : List Char} {k : Terminal} {n : Nat} (h : mark? possible cs = some (.token k n))
    (hfiller : filler? cs = none) :
    ∃ text rest, cs = text ++ rest ∧ text.length = n ∧ possible k = true ∧ k.Spells text ∧
      ∀ c ∈ rest.head?, k.Stops possible c := by
  obtain ⟨before, m, after, hall, hm, hbefore⟩ := List.findSome?_eq_some_iff.1 h
  obtain ⟨hpossible, hpos, hl⟩ := token?_eq_some.1 hm
  cases hl
  obtain ⟨rest, rfl⟩ := starts_of_spellingLength hpos
  refine ⟨m.spelling.toList, rest, rfl, (spellingLength_eq (List.prefix_append _ _)).symm, hpossible, rfl,
    fun c hc => ⟨?_, fun m' hm' hspelling => ?_⟩⟩
  · -- Two slashes would have been a comment.
    rintro rfl rfl
    obtain ⟨rest, rfl⟩ := List.head?_eq_some_iff.1 hc
    have hpos : 0 < fillerLength ('/' :: '/' :: rest) := by
      simp only [fillerLength]
      omega
    have hcomment : filler? ('/' :: '/' :: rest) = some (.filler (fillerLength ('/' :: '/' :: rest))) := if_pos hpos
    rw [show Mark.slash.spelling.toList ++ '/' :: rest = '/' :: '/' :: rest from rfl, hcomment] at hfiller
    cases hfiller
  · obtain ⟨rest, rfl⟩ := List.head?_eq_some_iff.1 hc
    have hstarts : m'.spelling.toList <+: m.spelling.toList ++ c :: rest := by
      rw [hspelling]
      exact ⟨rest, by simp⟩
    have hlonger : m.spelling.toList.length < m'.spelling.toList.length := by
      rw [hspelling, List.length_append]
      exact Nat.lt_succ_self _
    have hmem : m' ∈ before := Mark.mem_before hall hlonger
    have hnone := hbefore m' hmem
    rw [spellingLength_eq hstarts, token?_eq_some.2 ⟨hm', by omega, rfl⟩] at hnone
    cases hnone

/-- A token that is cut off a text is a possible one and is written as its terminal says, and the next character cannot
belong to it. -/
theorem spells_of_first? {cs : List Char} {k : Terminal} {n : Nat} (h : first? possible cs = some (.token k n)) :
    ∃ text rest, cs = text ++ rest ∧ text.length = n ∧ possible k = true ∧ k.Spells text ∧
      (k = .name → ∀ k', possible (.keyword k') = true → k'.spelling.toList ≠ text) ∧
      ∀ c ∈ rest.head?, k.Stops possible c := by
  rw [first?_eq] at h
  simp only [Option.or_eq_some_iff] at h
  rcases h with h | ⟨-, h | ⟨hname, h | ⟨-, h | ⟨hfiller, h | ⟨-, h | ⟨-, h⟩⟩⟩⟩⟩⟩
  · obtain ⟨hpossible, hpos, hl⟩ := token?_eq_some.1 h
    cases hl
    obtain ⟨text, rest, hcs, hlength, htext, hrest⟩ := exists_of_floatLength (Nat.ne_of_gt hpos)
    exact ⟨text, rest, hcs, hlength, hpossible, htext, nofun, hrest⟩
  · exact spells_of_name? h
  · obtain ⟨hpossible, hpos, hl⟩ := token?_eq_some.1 h
    cases hl
    obtain ⟨text, rest, hcs, hlength, htext⟩ := exists_of_stringLength (Nat.ne_of_gt hpos)
    exact ⟨text, rest, hcs, hlength, hpossible, htext, nofun, fun _ _ => trivial⟩
  · unfold filler? at h
    dsimp only at h
    split_ifs at h
    cases h
  · obtain ⟨hpossible, hpos, hl⟩ := token?_eq_some.1 h
    cases hl
    obtain ⟨text, rest, hcs, hlength, htext, hrest⟩ := exists_of_intLength (Nat.ne_of_gt hpos)
    exact ⟨text, rest, hcs, hlength, hpossible, htext, nofun, hrest⟩
  · obtain ⟨_, k', _, _, hk', _⟩ := List.findSome?_eq_some_iff.1 h
    obtain ⟨hpossible, hpos, hl⟩ := token?_eq_some.1 hk'
    cases hl
    obtain ⟨rest, rfl⟩ := starts_of_spellingLength hpos
    refine ⟨k'.spelling.toList, rest, rfl, (spellingLength_eq (List.prefix_append _ _)).symm, hpossible, rfl, nofun,
      fun c hc hnames => ?_⟩
    -- Where names are possible, the keyword would have been found as a name.
    obtain ⟨d, ds, hspelling, hd, -⟩ := k'.isName_spelling
    simp [name?, hnames, hspelling, nameLength, hd] at hname
  · obtain ⟨text, rest, hcs, hlength, hpossible, htext, hrest⟩ := spells_of_mark? h hfiller
    refine ⟨text, rest, hcs, hlength, hpossible, htext, ?_, hrest⟩
    rintro rfl
    obtain ⟨_, m, _, _, hm, _⟩ := List.findSome?_eq_some_iff.1 h
    cases (token?_eq_some.1 hm).2.2

end Lexeme

end Rover
