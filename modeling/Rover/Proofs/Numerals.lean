import Mathlib
import Rover.Value

/-!
# Numerals and their readings

The digits of a number denote it (`natOf_digits`), and so do digits with a point and an exponent, wherever the point stands
(`spells_plain`, `spells_scientific`). A numeral in plain characters is its own plain form (`plain?_eq_self`).
-/

namespace Rover

open Numeral (digits)
open Reading

/-! ### Digits -/

theorem digitChar_spec {d : Nat} (hd : d < 10) :
    isPlainDigit d.digitChar = true ∧ d.digitChar.toNat - 48 = d ∧ digitValue? d.digitChar = some d := by
  interval_cases d <;> decide

theorem digits_of_lt {n : Nat} (h : n < 10) : digits n = [n.digitChar] := by
  rw [digits, if_pos h]

theorem digits_of_le {n : Nat} (h : 10 ≤ n) : digits n = digits (n / 10) ++ [(n % 10).digitChar] := by
  rw [digits, if_neg (Nat.not_lt.2 h)]

theorem digits_ne_nil (n : Nat) : digits n ≠ [] := by
  rw [digits]
  split_ifs <;> simp

theorem isPlainDigit_of_mem_digits {n : Nat} : ∀ {c : Char}, c ∈ digits n → isPlainDigit c = true := by
  induction n using Nat.strongRecOn with
  | ind n ih =>
      intro c hc
      by_cases hn : n < 10
      · rw [digits_of_lt hn, List.mem_singleton] at hc
        rw [hc]
        exact (digitChar_spec hn).1
      · rw [digits_of_le (Nat.not_lt.1 hn), List.mem_append, List.mem_singleton] at hc
        rcases hc with hc | rfl
        · exact ih (n / 10) (by omega) hc
        · exact (digitChar_spec (Nat.mod_lt n (by decide))).1

/-- A number has as many digits as the least power of ten above it. -/
theorem length_digits (n : Nat) : n < 10 ^ (digits n).length ∧ (0 < n → 10 ^ ((digits n).length - 1) ≤ n) := by
  induction n using Nat.strongRecOn with
  | ind n ih =>
      by_cases hn : n < 10
      · rw [digits_of_lt hn]
        exact ⟨by simpa using hn, fun hpos => by simpa using Nat.succ_le_of_lt hpos⟩
      · have hle := Nat.not_lt.1 hn
        obtain ⟨hlt, hge⟩ := ih (n / 10) (by omega)
        have hge := hge (by omega)
        rw [digits_of_le hle, List.length_append, List.length_singleton]
        have hlength : 0 < (digits (n / 10)).length := List.length_pos_iff.2 (digits_ne_nil _)
        refine ⟨?_, fun _ => ?_⟩
        · rw [pow_succ]
          omega
        · obtain ⟨k, hk⟩ := Nat.exists_eq_add_of_lt hlength
          rw [Nat.zero_add] at hk
          rw [hk, Nat.add_sub_cancel] at hge
          rw [Nat.add_sub_cancel, hk, pow_succ]
          omega

/-! ### Reading digits -/

theorem length_digits_le {c n : Nat} (hn : 0 < n) (h : c < 10 ^ n) : (digits c).length ≤ n := by
  rcases Nat.eq_zero_or_pos c with rfl | hpos
  · rwa [digits_of_lt (by decide)]
  · have hless := (Nat.pow_lt_pow_iff_right (by norm_num : 1 < 10)).1 (((length_digits c).2 hpos).trans_lt h)
    omega

theorem foldl_natOf (n : Nat) (ds : List Char) :
    ds.foldl (fun n c => 10 * n + (c.toNat - 48)) n = n * 10 ^ ds.length + natOf ds := by
  induction ds generalizing n with
  | nil => simp [natOf]
  | cons d ds ih =>
      have hone : natOf (d :: ds) = (d.toNat - 48) * 10 ^ ds.length + natOf ds := by
        rw [natOf, List.foldl_cons, ih, Nat.mul_zero, Nat.zero_add]
      rw [List.foldl_cons, ih, hone, List.length_cons]
      ring

theorem natOf_append (as bs : List Char) : natOf (as ++ bs) = natOf as * 10 ^ bs.length + natOf bs := by
  rw [natOf, List.foldl_append, foldl_natOf]
  rfl

theorem natOf_replicate (k : Nat) : natOf (List.replicate k '0') = 0 := by
  induction k with
  | zero => rfl
  | succ k ih =>
      rw [List.replicate_succ', natOf_append, ih]
      decide

theorem natOf_digits (n : Nat) : natOf (digits n) = n := by
  induction n using Nat.strongRecOn with
  | ind n ih =>
      by_cases hn : n < 10
      · rw [digits_of_lt hn, natOf, List.foldl_cons, List.foldl_nil, (digitChar_spec hn).2.1]
        omega
      · rw [digits_of_le (Nat.not_lt.1 hn), natOf_append, ih (n / 10) (by omega), natOf, List.foldl_cons, List.foldl_nil,
          (digitChar_spec (Nat.mod_lt n (by decide))).2.1, List.length_singleton]
        omega

theorem natOf_padded (width n : Nat) : natOf (Numeral.padded width n) = n := by
  rw [Numeral.padded, natOf_append, natOf_replicate, natOf_digits, Nat.zero_mul, Nat.zero_add]

theorem isPlainDigit_of_mem_padded {width n : Nat} {c : Char} (hc : c ∈ Numeral.padded width n) :
    isPlainDigit c = true := by
  rw [Numeral.padded, List.mem_append, List.mem_replicate] at hc
  rcases hc with ⟨-, rfl⟩ | hc
  · decide
  · exact isPlainDigit_of_mem_digits hc

theorem padded_ne_nil (width n : Nat) : Numeral.padded width n ≠ [] := by
  rw [Numeral.padded]
  simp [digits_ne_nil]

/-! ### Plain characters -/

/-- The characters that numerals of programs are made of. -/
def isNumeralChar (c : Char) : Bool := isPlainDigit c || c ∈ ['-', '+', '.', 'e', 'i', 'n', 'f', 'a']

theorem isNumeralChar_of_isPlainDigit {c : Char} (h : isPlainDigit c = true) : isNumeralChar c = true := by
  rw [isNumeralChar, h]
  rfl

theorem char_of_isPlainDigit {c : Char} (h : isPlainDigit c = true) : ∃ d < 10, c = Nat.digitChar d := by
  have hc : 48 ≤ c.toNat ∧ c.toNat ≤ 57 := by simpa [isPlainDigit] using h
  have hofNat : c = Char.ofNat c.toNat := (Char.ofNat_toNat c).symm
  refine ⟨c.toNat - 48, by omega, ?_⟩
  rw [hofNat]
  obtain ⟨hlow, hhigh⟩ := hc
  generalize c.toNat = n at *
  interval_cases n <;> decide

/-- A character of a numeral stands for itself, and does not end a word. -/
theorem isNumeralChar_spec {c : Char} (h : isNumeralChar c = true) :
    isSeparator c = false ∧ isBlank c = false ∧ c ≠ '_' ∧ (∀ d, digitValue? c = some d → d.digitChar = c) := by
  rw [isNumeralChar, Bool.or_eq_true] at h
  rcases h with h | h
  · obtain ⟨d, hd, rfl⟩ := char_of_isPlainDigit h
    refine ⟨?_, ?_, ?_, ?_⟩
    · interval_cases d <;> decide
    · interval_cases d <;> decide
    · interval_cases d <;> decide
    · intro d' hd'
      rw [(digitChar_spec hd).2.2] at hd'
      cases hd'
      rfl
  · have hmem : c ∈ ['-', '+', '.', 'e', 'i', 'n', 'f', 'a'] := by simpa using h
    fin_cases hmem <;> exact ⟨by decide, by decide, by decide, by decide⟩

theorem dropWhile_eq_self {p : Char → Bool} {text : List Char} (h : ∀ c ∈ text, p c = false) : text.dropWhile p = text := by
  cases text with
  | nil => rfl
  | cons c text => exact List.dropWhile_cons_of_neg (by simp [h c List.mem_cons_self])

theorem ungroup?_eq_self {text : List Char} (h : '_' ∉ text) (previous : Option Char) :
    ungroup? previous text = some text := by
  induction text generalizing previous with
  | nil => rfl
  | cons c text ih =>
      have hc : c ≠ '_' := fun heq => h (heq ▸ List.mem_cons_self)
      rw [ungroup?, if_neg hc, ih fun hmem => h (List.mem_cons_of_mem _ hmem)]
      rfl

theorem trimBlank_eq_self {text : List Char} (h : ∀ c ∈ text, isBlank c = false) : trimBlank text = text := by
  rw [trimBlank, dropWhile_eq_self h, dropWhile_eq_self, List.reverse_reverse]
  intro c hc
  exact h c (List.mem_reverse.1 hc)

theorem map_plainChar_eq_self {text : List Char} (h : ∀ c ∈ text, isNumeralChar c = true) : text.map plainChar = text := by
  refine (List.map_congr_left fun c hc => ?_).trans (List.map_id' text)
  have hvalue := (isNumeralChar_spec (h c hc)).2.2.2
  unfold plainChar
  cases hd : digitValue? c with
  | none => rfl
  | some d => exact hvalue d hd

/-- A numeral in plain characters is its own plain form. -/
theorem plain?_eq_self {text : List Char} (h : ∀ c ∈ text, isNumeralChar c = true) : plain? text = some text := by
  rw [plain?, trimBlank_eq_self fun c hc => (isNumeralChar_spec (h c hc)).2.1, map_plainChar_eq_self h]
  exact ungroup?_eq_self (fun hmem => (isNumeralChar_spec (h _ hmem)).2.2.1 rfl) none

/-- The digits of a numeral that has nothing but digits behind its sign. -/
theorem leadingDigits_eq {text ds : List Char} {neg : Bool} (hblank : ∀ c ∈ text, isBlank c = false)
    (hsign : sign (text.map plainChar) = (neg, ds)) (hds : ∀ c ∈ ds, isPlainDigit c = true) : leadingDigits text = ds := by
  have hline : '_' ∉ ds := fun hmem => absurd (hds _ hmem) (by decide)
  have htake : ds.takeWhile (fun c => isPlainDigit c || c == '_') = ds :=
    List.takeWhile_eq_self_iff.2 fun c hc => by simp [hds c hc]
  rw [leadingDigits, trimBlank_eq_self hblank, hsign, htake, ungroup?_eq_self hline none, Option.getD_some]

theorem int_of_length_le {text : String} (h : (leadingDigits text.toList).length ≤ maxDigits) : int text = .ok (int? text) :=
  dif_neg (Nat.not_lt.2 h)

theorem int_of_lt {text : String} {n : Nat} (hlength : (leadingDigits text.toList).length = n) (h : maxDigits < n) :
    int text = .error ⟨n, h⟩ := by
  subst hlength
  exact dif_pos h

/-! ### Decimals -/

/-- The number that a decimal stands for. -/
def Decimal.value (d : Decimal) : ℚ := d.coefficient * 10 ^ d.exponent

theorem Decimal.value_trim (d : Decimal) : d.trim.value = d.value := by
  obtain ⟨c, e⟩ := d
  induction c using Nat.strongRecOn generalizing e with
  | ind c ih =>
      rw [trim]
      by_cases hzero : c = 0
      · simp [hzero, value]
      · by_cases hten : c % 10 = 0
        · have hc : (c : ℚ) = (c / 10 : Nat) * 10 := by exact_mod_cast (show c = c / 10 * 10 by omega)
          rw [if_neg hzero, if_pos hten, ih (c / 10) (by omega), value, value, hc, zpow_add₀ (by norm_num)]
          ring
        · rw [if_neg hzero, if_neg hten]

/-- A text that goes on with something else than a digit, if it goes on at all. -/
def StopsDigits (text : List Char) : Prop := ∀ c ∈ text.head?, isPlainDigit c = false

theorem takeWhile_digits {ds rest : List Char} (hds : ∀ c ∈ ds, isPlainDigit c = true) (hrest : StopsDigits rest) :
    (ds ++ rest).takeWhile isPlainDigit = ds ∧ (ds ++ rest).dropWhile isPlainDigit = rest := by
  rw [List.takeWhile_append_of_pos hds, List.dropWhile_append_of_pos hds]
  cases rest with
  | nil => simp
  | cons c rest =>
      have hc : isPlainDigit c = false := hrest c rfl
      simp [hc]

theorem decimal?_point {whole fraction rest : List Char} (hwhole : ∀ c ∈ whole, isPlainDigit c = true) (hne : whole ≠ [])
    (hfraction : ∀ c ∈ fraction, isPlainDigit c = true) (hrest : StopsDigits rest) :
    decimal? (whole ++ '.' :: (fraction ++ rest)) =
      (exponent? rest).map fun e => ⟨natOf (whole ++ fraction), e - fraction.length⟩ := by
  have hpoint : StopsDigits ('.' :: (fraction ++ rest)) := by simp [StopsDigits, isPlainDigit]
  obtain ⟨htake, hdrop⟩ := takeWhile_digits hwhole hpoint
  obtain ⟨htake', hdrop'⟩ := takeWhile_digits hfraction hrest
  simp only [decimal?, htake, hdrop, htake', hdrop', hne, false_and, if_false]

theorem decimal?_whole {whole rest : List Char} (hwhole : ∀ c ∈ whole, isPlainDigit c = true) (hne : whole ≠ []) :
    decimal? (whole ++ 'e' :: rest) = (exponent? ('e' :: rest)).map fun e => ⟨natOf whole, e⟩ := by
  have hmark : StopsDigits ('e' :: rest) := by simp [StopsDigits, isPlainDigit]
  obtain ⟨htake, hdrop⟩ := takeWhile_digits hwhole hmark
  simp [decimal?, htake, hdrop, hne]

/-- The written exponent of a number. -/
theorem exponent?_written (e : Int) (width : Nat) :
    exponent? ('e' :: (if e < 0 then '-' else '+') :: Numeral.padded width e.natAbs) = some e := by
  have hdigits : (Numeral.padded width e.natAbs).all isPlainDigit = true :=
    List.all_eq_true.2 fun c hc => isPlainDigit_of_mem_padded hc
  have hne := padded_ne_nil width e.natAbs
  rw [exponent?, if_pos (.inl rfl)]
  split_ifs with hneg
  · simp only [sign, hne, hdigits, natOf_padded, if_true, ne_eq, not_false_eq_true, and_self]
    congr 1
    omega
  · simp only [sign, hne, hdigits, natOf_padded, if_true, ne_eq, not_false_eq_true, and_self]
    simp only [Bool.false_eq_true, if_false]
    congr 1
    omega

/-- The text of a number that is not whole, without its sign. -/
structure Spells (body : List Char) (v : ℚ) : Prop where
  chars : ∀ c ∈ body, isNumeralChar c = true
  head : ∃ c rest, body = c :: rest ∧ isPlainDigit c = true
  broken : ∃ c ∈ body, isDecimalDigit c = false
  reads : ∃ d, decimal? body = some d ∧ d.value = v

/-- Texts with digits before a point and after it. -/
theorem spells_point (whole fraction : List Char) (hwhole : ∀ c ∈ whole, isPlainDigit c = true) (hne : whole ≠ [])
    (hfraction : ∀ c ∈ fraction, isPlainDigit c = true) :
    Spells (whole ++ '.' :: fraction) (natOf (whole ++ fraction) * 10 ^ (-(fraction.length : Int))) where
  chars c hc := by
    rw [List.mem_append, List.mem_cons] at hc
    rcases hc with hc | rfl | hc
    · exact isNumeralChar_of_isPlainDigit (hwhole c hc)
    · decide
    · exact isNumeralChar_of_isPlainDigit (hfraction c hc)
  head := by
    obtain ⟨c, rest, rfl⟩ := List.exists_cons_of_ne_nil hne
    exact ⟨c, _, rfl, hwhole c List.mem_cons_self⟩
  broken := ⟨'.', by simp, by decide⟩
  reads := by
    have hend : StopsDigits [] := by simp [StopsDigits]
    have hread := decimal?_point hwhole hne hfraction hend
    rw [List.append_nil] at hread
    refine ⟨⟨natOf (whole ++ fraction), 0 - fraction.length⟩, hread, ?_⟩
    rw [Decimal.value, zero_sub]

theorem spells_plain {ds : List Char} (hds : ∀ c ∈ ds, isPlainDigit c = true) (point : Int) :
    Spells (Layout.plain ds point) (natOf ds * 10 ^ (point - ds.length)) := by
  have hzero : ∀ (k : Nat) (c : Char), c ∈ List.replicate k '0' → isPlainDigit c = true := by
    intro k c hc
    rw [(List.mem_replicate.1 hc).2]
    decide
  unfold Layout.plain
  split_ifs with hneg hlong
  · -- Zeros stand between the point and the digits.
    have hspells := spells_point ['0'] (List.replicate (-point).toNat '0' ++ ds) (hzero 1)
      (List.cons_ne_nil _ _) fun c hc => (List.mem_append.1 hc).elim (hzero _ c) (hds c)
    have hvalue : natOf (['0'] ++ (List.replicate (-point).toNat '0' ++ ds)) = natOf ds := by
      rw [natOf_append, natOf_append, natOf_replicate]
      simp [natOf]
    rw [hvalue, List.length_append, List.length_replicate,
      show -(((-point).toNat + ds.length : Nat) : Int) = point - ds.length by omega] at hspells
    exact hspells
  · -- Zeros stand between the digits and the point.
    have hspells := spells_point (ds ++ List.replicate (point.toNat - ds.length) '0') ['0']
      (fun c hc => (List.mem_append.1 hc).elim (hds c) (hzero _ c)) ?_ (hzero 1)
    · have hvalue : natOf (ds ++ List.replicate (point.toNat - ds.length) '0' ++ ['0'])
          = natOf ds * 10 ^ (point.toNat - ds.length) * 10 := by
        rw [natOf_append, natOf_append, natOf_replicate, List.length_replicate]
        simp [natOf]
      have hpower : ((natOf ds * 10 ^ (point.toNat - ds.length) * 10 : Nat) : ℚ) * 10 ^ (-(1 : Nat) : Int)
          = natOf ds * 10 ^ (point - ds.length) := by
        rw [show point - ds.length = ((point.toNat - ds.length : Nat) : Int) by omega, zpow_natCast]
        push_cast
        ring
      rw [hvalue, List.length_singleton, hpower] at hspells
      exact hspells
    · intro hnil
      rw [List.append_eq_nil_iff, List.replicate_eq_nil_iff] at hnil
      rw [hnil.1] at hlong hnil
      simp only [List.length_nil] at hnil
      omega
  · have hspells := spells_point (ds.take point.toNat) (ds.drop point.toNat)
      (fun c hc => hds c (List.mem_of_mem_take hc)) ?_ fun c hc => hds c (List.mem_of_mem_drop hc)
    · rw [List.take_append_drop, List.length_drop, show -((ds.length - point.toNat : Nat) : Int) = point - ds.length by omega]
        at hspells
      rw [List.append_assoc]
      exact hspells
    · intro hnil
      rcases List.take_eq_nil_iff.1 hnil with hnil | hnil
      · omega
      · simp [hnil] at hlong

theorem spells_scientific (l : Layout) {ds : List Char} (hds : ∀ c ∈ ds, isPlainDigit c = true) (hne : ds ≠ [])
    (exponent : Int) : Spells (l.scientific ds exponent) (natOf ds * 10 ^ (exponent + 1 - ds.length)) := by
  obtain ⟨d, fraction, rfl⟩ := List.exists_cons_of_ne_nil hne
  have hfraction : ∀ c ∈ fraction, isPlainDigit c = true := fun c hc => hds c (List.mem_cons_of_mem _ hc)
  have hd : ∀ c ∈ [d], isPlainDigit c = true := by simpa using hds d List.mem_cons_self
  have hlength : exponent + 1 - ((d :: fraction).length : Int) = exponent - fraction.length := by
    rw [List.length_cons]
    omega
  have htext : l.scientific (d :: fraction) exponent = [d] ++ ((if fraction.isEmpty then [] else '.' :: fraction) ++
      'e' :: (if exponent < 0 then '-' else '+') :: Numeral.padded l.exponentWidth exponent.natAbs) := by
    simp [Layout.scientific]
  have hmark : isNumeralChar (if exponent < 0 then '-' else '+') = true := by
    split_ifs <;> decide
  rw [htext, hlength]
  refine ⟨?_, ⟨d, _, rfl, hd d List.mem_cons_self⟩, ⟨'e', by simp, by decide⟩, ?_⟩
  · intro c hc
    simp only [List.mem_append, List.mem_cons, List.not_mem_nil, or_false] at hc
    rcases hc with rfl | hc | rfl | rfl | hc
    · exact isNumeralChar_of_isPlainDigit (hd c List.mem_cons_self)
    · split_ifs at hc with hempty
      · cases hc
      · rcases List.mem_cons.1 hc with rfl | hc
        · decide
        · exact isNumeralChar_of_isPlainDigit (hfraction c hc)
    · decide
    · exact hmark
    · exact isNumeralChar_of_isPlainDigit (isPlainDigit_of_mem_padded hc)
  · cases fraction with
    | nil =>
        refine ⟨⟨natOf [d], exponent⟩, (decimal?_whole hd (List.cons_ne_nil _ _)).trans ?_, ?_⟩
        · rw [exponent?_written]
          rfl
        · simp [Decimal.value]
    | cons c fraction =>
        refine ⟨⟨natOf (d :: c :: fraction), exponent - (c :: fraction).length⟩,
          (decimal?_point hd (List.cons_ne_nil _ _) hfraction ?_).trans ?_, ?_⟩
        · simp [StopsDigits, isPlainDigit]
        · rw [exponent?_written]
          rfl
        · simp [Decimal.value]

/-- What a layout writes stands for the decimal, behind its sign. -/
theorem spells_render (l : Layout) (neg : Bool) (d : Decimal) :
    ∃ body, l.render neg d = String.ofList (if neg then '-' :: body else body) ∧ Spells body d.value := by
  have hds : ∀ c ∈ digits d.trim.coefficient, isPlainDigit c = true := fun c hc => isPlainDigit_of_mem_digits hc
  refine ⟨_, rfl, ?_⟩
  have hvalue : d.value = natOf (digits d.trim.coefficient) * 10 ^ d.trim.exponent := by
    rw [natOf_digits, ← Decimal.value_trim]
    rfl
  rw [hvalue]
  split_ifs
  · have hspells := spells_plain hds ((digits d.trim.coefficient).length + d.trim.exponent)
    rwa [add_sub_cancel_left] at hspells
  · have hspells := spells_scientific l hds (digits_ne_nil _) ((digits d.trim.coefficient).length + d.trim.exponent - 1)
    rwa [sub_add_cancel, add_sub_cancel_left] at hspells

end Rover
