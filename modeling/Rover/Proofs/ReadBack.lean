import Rover.Proofs.Decimals
import Rover.Proofs.InputWords
import Rover.Proofs.Values

/-!
# Numbers read back

What a program writes for a number is a word of the input that reads as this number: an integer as an integer, and a float
as a float, to the sign of a zero. A double is written with digits that read back (`written_doubleText`). A float gets
the digits of a double that rounds to it, and the reader rounds as well (`singleText_eq_doubleText`).
-/

namespace Rover

open Numeral (digits)
open Reading

/-! ### Signs -/

theorem isDecimalDigit_of_isPlainDigit {c : Char} (h : isPlainDigit c = true) : isDecimalDigit c = true := by
  obtain ⟨d, hd, rfl⟩ := char_of_isPlainDigit h
  rw [isDecimalDigit, (digitChar_spec hd).2.2]
  rfl

/-- A body that starts with a digit, behind its sign. -/
def signedText (neg : Bool) (body : List Char) : List Char := if neg then '-' :: body else body

theorem sign_signed {c : Char} (hc : isPlainDigit c = true) (neg : Bool) (rest : List Char) :
    sign (signedText neg (c :: rest)) = (neg, c :: rest) := by
  cases neg with
  | true => rfl
  | false =>
      obtain ⟨d, hd, rfl⟩ := char_of_isPlainDigit hc
      interval_cases d <;> rfl

theorem isNumeralChar_signed {body : List Char} (h : ∀ c ∈ body, isNumeralChar c = true) (neg : Bool) :
    ∀ c ∈ signedText neg body, isNumeralChar c = true := by
  intro c hc
  cases neg with
  | true =>
      rcases List.mem_cons.1 hc with rfl | hc
      · decide
      · exact h c hc
  | false => exact h c hc

/-! ### Integers -/

theorem toList_ofInt (n : Int) : (Numeral.ofInt n).toList = signedText (decide (n < 0)) (digits n.natAbs) := by
  by_cases hn : n < 0
  · simp [Numeral.ofInt, Numeral.ofNat, signedText, hn]
  · simp [Numeral.ofInt, Numeral.ofNat, signedText, hn]

theorem isNumeralChar_ofInt (n : Int) : ∀ c ∈ (Numeral.ofInt n).toList, isNumeralChar c = true := by
  rw [toList_ofInt]
  exact isNumeralChar_signed (fun c hc => isNumeralChar_of_isPlainDigit (isPlainDigit_of_mem_digits hc)) _

theorem sign_ofInt (n : Int) : sign (Numeral.ofInt n).toList = (decide (n < 0), digits n.natAbs) := by
  obtain ⟨c, rest, hdigits⟩ := List.exists_cons_of_ne_nil (digits_ne_nil n.natAbs)
  have hc : isPlainDigit c = true := isPlainDigit_of_mem_digits (hdigits ▸ List.mem_cons_self)
  rw [toList_ofInt, hdigits]
  exact sign_signed hc _ rest

theorem isWholeToken_ofInt (n : Int) : Value.isWholeToken (Numeral.ofInt n).toList = true := by
  have hdigits : (digits n.natAbs).all isDecimalDigit = true :=
    List.all_eq_true.2 fun c hc => isDecimalDigit_of_isPlainDigit (isPlainDigit_of_mem_digits hc)
  simp [Value.isWholeToken, sign_ofInt, hdigits, digits_ne_nil]

theorem int?_ofInt (n : Int) : int? (Numeral.ofInt n) = some n := by
  have hdigits : (digits n.natAbs).all isPlainDigit = true :=
    List.all_eq_true.2 fun c hc => isPlainDigit_of_mem_digits hc
  rw [int?, plain?_eq_self (isNumeralChar_ofInt n), Option.bind_some]
  simp only [plainInt?, sign_ofInt, hdigits, digits_ne_nil, natOf_digits, ne_eq, not_false_eq_true, and_self, if_true,
    decide_eq_true_eq]
  congr 1
  split_ifs <;> omega

theorem leadingDigits_ofInt (n : Int) : leadingDigits (Numeral.ofInt n).toList = digits n.natAbs := by
  have hchars := isNumeralChar_ofInt n
  have hsign : sign ((Numeral.ofInt n).toList.map plainChar) = (decide (n < 0), digits n.natAbs) := by
    rw [map_plainChar_eq_self hchars, sign_ofInt]
  exact leadingDigits_eq (fun c hc => (isNumeralChar_spec (hchars c hc)).2.1) hsign
    fun c hc => isPlainDigit_of_mem_digits hc

/-- A word has few digits, so that none is refused. -/
theorem int_ofInt {n : Int} (hn : IsWord n) : Reading.int (Numeral.ofInt n) = .ok (some n) := by
  have hdigits : (digits n.natAbs).length ≤ 10 := length_digits_le (by norm_num) (by have := hn.1; have := hn.2; omega)
  rw [int_of_length_le, int?_ofInt]
  rw [leadingDigits_ofInt]
  exact hdigits.trans (by decide)

theorem ofToken_ofInt {n : Int} (hn : IsWord n) : Value.ofToken (Numeral.ofInt n) = .ok (.integer n) := by
  have hwhole : Value.wholeOfToken (Numeral.ofInt n) = .ok (some n) := by
    rw [Value.wholeOfToken, if_pos (isWholeToken_ofInt n), int_ofInt hn]
  have hfilter : (some n).filter (IsWord ·) = some n := by simp [hn]
  simp only [Value.ofToken, hwhole, bind, Except.bind, hfilter]
  rfl

/-! ### Doubles -/

/-- A numeral for a double that nothing else can be read from. -/
structure Written (text : List Char) (x : Float) : Prop where
  chars : ∀ c ∈ text, isNumeralChar c = true
  notWhole : Value.isWholeToken text = false
  reads : plainFloat? text = some x

theorem Written.ne_nil {text : List Char} {x : Float} (h : Written text x) : text ≠ [] := by
  rintro rfl
  have hnone : plainFloat? [] = none := by decide +kernel
  rw [h.reads] at hnone
  cases hnone

theorem Written.ofToken {token : String} {x : Float} (h : Written token.toList x) :
    Value.ofToken token = .ok (.ofFloat x) := by
  have hfloat : float? token = some x := by rw [float?, plain?_eq_self h.chars, Option.bind_some, h.reads]
  have hline : '_' ∉ token.toList := fun hmem => (isNumeralChar_spec (h.chars _ hmem)).2.2.1 rfl
  have hwhole : Value.wholeOfToken token = .ok none := by simp [Value.wholeOfToken, h.notWhole]
  rw [Value.ofToken, hwhole, if_neg hline, hfloat]
  rfl

/-- Digits are not the start of a name. -/
theorem lower_ne {c d : Char} (hc : isPlainDigit c = true) (hd : isPlainDigit d = false) (rest name : List Char) :
    String.ofList ((c :: rest).map Char.toLower) ≠ String.ofList (d :: name) := by
  intro heq
  have hlower : c.toLower = d := by
    have hlists := String.ofList_injective heq
    rw [List.map_cons] at hlists
    exact (List.cons.inj hlists).1
  obtain ⟨k, hk, rfl⟩ := char_of_isPlainDigit hc
  have hsame : (Nat.digitChar k).toLower = Nat.digitChar k := by interval_cases k <;> decide
  rw [← hlower, hsame, hc] at hd
  cases hd

theorem isWholeToken_eq_false {text rest : List Char} {neg : Bool} {c : Char} (hsign : sign text = (neg, rest))
    (hmem : c ∈ rest) (hc : isDecimalDigit c = false) : Value.isWholeToken text = false := by
  have hall : rest.all isDecimalDigit = false := List.all_eq_false.2 ⟨c, hmem, by simp [hc]⟩
  simp only [Value.isWholeToken, hsign, hall, Bool.and_false]

theorem Spells.written {body : List Char} {v : ℚ} (h : Spells body v) {neg : Bool} {x : Float}
    (hx : ∀ d : Decimal, d.value = v → d.toFloat neg = x) : Written (signedText neg body) x where
  chars := isNumeralChar_signed h.chars neg
  notWhole := by
    obtain ⟨c, hc, hbroken⟩ := h.broken
    obtain ⟨first, rest, rfl, hfirst⟩ := h.head
    exact isWholeToken_eq_false (sign_signed hfirst neg rest) hc hbroken
  reads := by
    obtain ⟨d, hread, hvalue⟩ := h.reads
    obtain ⟨first, rest, rfl, hfirst⟩ := h.head
    have hinf := lower_ne hfirst (d := 'i') (by decide) rest ['n', 'f']
    have hinfinity := lower_ne hfirst (d := 'i') (by decide) rest ['n', 'f', 'i', 'n', 'i', 't', 'y']
    have hnan := lower_ne hfirst (d := 'n') (by decide) rest ['a', 'n']
    rw [plainFloat?, sign_signed hfirst]
    dsimp only
    rw [if_neg (not_or.2 ⟨hinf, hinfinity⟩), if_neg hnan, hread, Option.map_some, hx d hvalue]

theorem Decimal.toFloat_of_value_zero {d : Decimal} (h : d.value = 0) (neg : Bool) : d.toFloat neg = ofFields neg 0 0 := by
  have hzero : d.coefficient = 0 := by
    rcases mul_eq_zero.1 h with h | h
    · exact_mod_cast h
    · exact absurd h (by positivity)
  rw [toFloat]
  exact if_pos (.inl hzero)

theorem eq_zero_of_parts {x : Float} {neg : Bool} {q : Int} (h : parts x = .finite neg 0 q) : x = ofFields neg 0 0 := by
  have hdouble : (Parts.finite neg 0 q).IsDouble := h ▸ parts_isDouble x
  have hq : q = -1074 := hdouble.2.2.2.resolve_left (by decide)
  apply parts_injective
  rw [h, hq, parts_ofFields (by decide) (by decide)]
  rfl

theorem sign_nan : sign ['n', 'a', 'n'] = (false, ['n', 'a', 'n']) := rfl

theorem written_nan : Written ['n', 'a', 'n'] notANumber where
  chars c hc := by fin_cases hc <;> decide
  notWhole := isWholeToken_eq_false sign_nan List.mem_cons_self (by decide)
  reads := by
    have hinf : String.ofList ['n', 'a', 'n'] ≠ "inf" ∧ String.ofList ['n', 'a', 'n'] ≠ "infinity" := by decide
    rw [plainFloat?, sign_nan]
    exact (if_neg (not_or.2 hinf)).trans (if_pos rfl)

theorem sign_infinity (neg : Bool) : sign (signedText neg ['i', 'n', 'f']) = (neg, ['i', 'n', 'f']) := by
  cases neg <;> rfl

theorem written_infinity (neg : Bool) : Written (signedText neg ['i', 'n', 'f']) (infinity neg) where
  chars := isNumeralChar_signed (fun c hc => by fin_cases hc <;> decide) neg
  notWhole := isWholeToken_eq_false (sign_infinity neg) List.mem_cons_self (by decide)
  reads := by
    rw [plainFloat?, sign_infinity]
    exact if_pos (.inl rfl)

/-- The text of a double reads back. -/
theorem written_doubleText (x : Float) : Written (doubleText x).toList x := by
  unfold doubleText writeFloat
  cases hparts : parts x with
  | nan =>
      have hx : x = notANumber := parts_injective (hparts.trans (by decide +kernel))
      have htext : "nan".toList = ['n', 'a', 'n'] := String.toList_ofList
      rw [hx]
      exact htext ▸ written_nan
  | infinite neg =>
      have hx : x = infinity neg := parts_injective (hparts.trans (parts_infinity neg).symm)
      have htext : (if neg then "-inf" else "inf").toList = signedText neg ['i', 'n', 'f'] := by
        cases neg <;> exact String.toList_ofList
      rw [hx]
      exact htext ▸ written_infinity neg
  | finite neg m q =>
      dsimp only [Layout.double]
      obtain ⟨body, hrender, hspells⟩ := spells_render .program neg
        (if (quotient m q).1 = 0 then ⟨0, 0⟩ else Decimal.shortest neg x (quotient m q).1 (quotient m q).2)
      rw [hrender, String.toList_ofList]
      refine hspells.written fun d hd => ?_
      rcases Nat.eq_zero_or_pos m with rfl | hm
      · have hnum : (quotient 0 q).1 = 0 := Nat.zero_shiftLeft _
        rw [if_pos hnum] at hd
        rw [eq_zero_of_parts hparts]
        exact Decimal.toFloat_of_value_zero (hd.trans (by simp [Decimal.value])) neg
      · have hnum : 0 < (quotient m q).1 := shiftLeft_pos hm _
        rw [if_neg hnum.ne'] at hd
        rw [Decimal.toFloat_congr hd]
        exact Decimal.toFloat_shortest hparts hm hnum (one_shiftLeft_pos _) (shifted_quotient m q)

/-! ### Floats -/

/-- The text of a float is that of a double that rounds to it. -/
theorem singleText_eq_doubleText {x : Float} (hx : toSingle x = x) : ∃ y, singleText x = doubleText y ∧ toSingle y = x := by
  cases hparts : parts x with
  | nan => exact ⟨x, by rw [singleText, doubleText, writeFloat, writeFloat, hparts], hx⟩
  | infinite neg => exact ⟨x, by rw [singleText, doubleText, writeFloat, writeFloat, hparts], hx⟩
  | finite neg m q =>
      rcases Nat.eq_zero_or_pos m with rfl | hm
      · refine ⟨x, ?_, hx⟩
        have hnum : (quotient 0 q).1 = 0 := Nat.zero_shiftLeft _
        simp only [singleText, doubleText, writeFloat, hparts, hnum, if_true, Layout.double]
      · have hnum : (quotient m q).1 ≠ 0 := (shiftLeft_pos hm _).ne'
        simp only [singleText, writeFloat, hparts, hnum, if_false]
        split
        · rename_i y hfound
          obtain ⟨n, -, hn⟩ := List.exists_of_findSome?_eq_some hfound
          split_ifs at hn with hbeq
          cases hn
          exact ⟨_, rfl, eq_of_beq hparts hm hbeq⟩
        · exact ⟨x, rfl, hx⟩

/-! ### Values -/

namespace Value

instance : DecidablePred Proper
  | .void => inferInstanceAs (Decidable False)
  | .integer n => inferInstanceAs (Decidable (IsWord n))
  | .float x => inferInstanceAs (Decidable (toSingle x = x))
  | .boolean _ => inferInstanceAs (Decidable True)
  | .string _ => inferInstanceAs (Decidable True)

/-- The numbers a program can have. -/
def IsNumber (v : Value) : Prop := v.isNumeric = true ∧ v.Proper

instance : DecidablePred IsNumber := fun v => inferInstanceAs (Decidable (v.isNumeric = true ∧ v.Proper))

/-- The word that a program writes for a number is read as this number. -/
theorem ofToken_text {v : Value} (hv : v.IsNumber) : ofToken v.text = .ok v := by
  obtain ⟨hnumeric, hproper⟩ := hv
  cases v with
  | integer n => exact ofToken_ofInt hproper
  | float x =>
      obtain ⟨y, htext, hy⟩ := singleText_eq_doubleText hproper
      have hwritten : Written (text (float x)).toList y := by
        rw [text, htext]
        exact written_doubleText y
      rw [hwritten.ofToken, ofFloat, hy]
  | void => cases hnumeric
  | boolean b => cases hnumeric
  | string s => cases hnumeric

theorem text_isWord {v : Value} (hv : v.IsNumber) : v.text.toList ≠ [] ∧ ∀ c ∈ v.text.toList, isSeparator c = false := by
  obtain ⟨hnumeric, hproper⟩ := hv
  cases v with
  | integer n =>
      refine ⟨?_, fun c hc => (isNumeralChar_spec (isNumeralChar_ofInt n c hc)).1⟩
      intro hnil
      have hwhole := isWholeToken_ofInt n
      rw [text] at hnil
      rw [hnil] at hwhole
      cases hwhole
  | float x =>
      obtain ⟨y, htext, hy⟩ := singleText_eq_doubleText hproper
      rw [text, htext]
      exact ⟨(written_doubleText y).ne_nil, fun c hc => (isNumeralChar_spec ((written_doubleText y).chars c hc)).1⟩
  | void => cases hnumeric
  | boolean b => cases hnumeric
  | string s => cases hnumeric

end Value

/-! ### Spaced words -/

/-- The words in this order, with white space between any two of them, and at will before the first and after the last. -/
inductive Spaced : List String → List Char → Prop
  | blank {gap : List Char} (hgap : ∀ c ∈ gap, isSeparator c = true) : Spaced [] gap
  | word {gap rest : List Char} {word : String} {more : List String} (hgap : ∀ c ∈ gap, isSeparator c = true)
      (hstops : StopsWord rest) (hrest : Spaced more rest) : Spaced (word :: more) (gap ++ (word.toList ++ rest))

theorem Spaced.words_eq {tokens : List String} {text : List Char} (h : Spaced tokens text)
    (htokens : ∀ t ∈ tokens, t.toList ≠ [] ∧ ∀ c ∈ t.toList, isSeparator c = false) : words text = tokens := by
  induction h with
  | blank hgap =>
      have hwords := words_separators_append hgap []
      rwa [List.append_nil, words_nil] at hwords
  | word hgap hstops _ ih =>
      obtain ⟨hne, hword⟩ := htokens _ List.mem_cons_self
      rw [words_separators_append hgap, words_append hword hne hstops, String.ofList_toList,
        ih fun t ht => htokens t (List.mem_cons_of_mem _ ht)]

/-- Every text is made of its words. -/
theorem spaced_words (text : List Char) : Spaced (words text) text := by
  generalize hlength : text.length = n
  induction n using Nat.strongRecOn generalizing text with
  | ind n ih =>
      rcases words_cut text with hblank | ⟨gap, word, rest, rfl, hgap, hword, hne, hrest⟩
      · have hwords := words_separators_append hblank []
        rw [List.append_nil, words_nil] at hwords
        rw [hwords]
        exact .blank hblank
      · have hshorter : rest.length < n := by
          have := List.length_pos_iff.2 hne
          simp only [List.length_append] at hlength
          omega
        have hspaced : Spaced (String.ofList word :: words rest) (gap ++ ((String.ofList word).toList ++ rest)) :=
          .word hgap hrest (ih _ hshorter rest rfl)
        rw [String.toList_ofList] at hspaced
        rwa [words_separators_append hgap, words_append hword hne hrest]

/-! ### Reading values -/

namespace Eval

/-- Reads a value, as a read statement does. -/
def readValue : Eval Value := do
  let token ← nextToken
  ofExcept .oversize (Value.ofToken token)

/-- Reads so many values in a row. -/
def readValues : Nat → Eval (List Value)
  | 0 => pure []
  | n + 1 => do
    let v ← readValue
    let vs ← readValues n
    return v :: vs

theorem readValue_of_cons {m : Machine} {token : String} {rest : List String} (h : m.input = token :: rest) {v : Value}
    (hv : Value.ofToken token = .ok v) : readValue m = .done v m.taken := by
  rw [readValue, bind_of_done (nextToken_of_cons h), hv]
  rfl

theorem readValue_of_nil {m : Machine} (h : m.input = []) : readValue m = .failed (.bare .noInput) m.taken :=
  bind_of_failed (nextToken_of_nil h)

/-- As many values are read as there are tokens, and the reader is all that changes. -/
theorem readValues_eq {tokens : List String} {values : List Value}
    (hvalues : List.Forall₂ (fun token v => Value.ofToken token = .ok v) tokens values) {m : Machine}
    (h : m.input = tokens) :
    ∃ reader : WordReader, readValues tokens.length m = .done values { m with reader } ∧
      ({ m with reader } : Machine).input = [] := by
  induction hvalues generalizing m with
  | nil => exact ⟨m.reader, rfl, h⟩
  | cons hv _ ih =>
      obtain ⟨reader, hread, hinput⟩ := ih (m := m.taken) (by rw [Machine.input_taken, h, List.tail_cons])
      refine ⟨reader, ?_, hinput⟩
      exact (bind_of_done (readValue_of_cons h hv)).trans (bind_of_done hread)

end Eval

/-- Numbers that are written with white space between them are read back as they were, and then there is no more input. -/
theorem written_numbers_read_back (m : Machine) {values : List Value} (hvalues : ∀ v ∈ values, v.IsNumber)
    {text : List Char} (htext : Spaced (values.map Value.text) text) :
    ∃ reader reader' : WordReader,
      Eval.readValues values.length (m.reading (String.ofList text)) = .done values { m with reader } ∧
        Eval.readValue { m with reader } = .failed (.bare .noInput) { m with reader := reader' } := by
  have hwords : words text = values.map Value.text := by
    refine htext.words_eq fun t ht => ?_
    obtain ⟨v, hv, rfl⟩ := List.mem_map.1 ht
    exact Value.text_isWord (hvalues v hv)
  have hinput : (m.reading (String.ofList text)).input = values.map Value.text := by
    rw [Machine.input_reading, String.toList_ofList, hwords]
  have hback : List.Forall₂ (fun token v => Value.ofToken token = .ok v) (values.map Value.text) values := by
    rw [List.forall₂_map_left_iff, List.forall₂_same]
    exact fun v hv => Value.ofToken_text (hvalues v hv)
  obtain ⟨reader, hread, hnone⟩ := Eval.readValues_eq hback hinput
  rw [List.length_map] at hread
  exact ⟨reader, _, hread, Eval.readValue_of_nil hnone⟩

/-! The least integer, a whole float beside the integer, the negative zero, the least positive single, a decimal that no
single equals, and what is not finite. -/

namespace Extremes

def values : List Value :=
  [.integer (-2147483648), .integer 1, .float 1.0, .float (ofFields true 0 0), .float (Float.ofBits 0x36a0000000000000),
    .float (toSingle 0.1), .float (infinity true), .float notANumber]

def text : List Char := "-2147483648\t1 1.0\n\n -0.0\u30001e-45\u001f0.1\r\n-inf nan".toList

theorem extremes_read_back : Spaced (values.map Value.text) text ∧ ∃ reader reader' : WordReader,
    Eval.readValues 8 ((Machine.initial .default "" .unobserved).reading (String.ofList text)) =
        .done values { Machine.initial .default "" .unobserved with reader } ∧
      Eval.readValue { Machine.initial .default "" .unobserved with reader } =
        .failed (.bare .noInput) { Machine.initial .default "" .unobserved with reader := reader' } := by
  have hwords : words text = values.map Value.text := by decide +kernel
  have hspaced : Spaced (values.map Value.text) text := hwords ▸ spaced_words text
  have hvalues : ∀ v ∈ values, v.IsNumber := by decide +kernel
  exact ⟨hspaced, written_numbers_read_back _ hvalues hspaced⟩

end Extremes

end Rover
