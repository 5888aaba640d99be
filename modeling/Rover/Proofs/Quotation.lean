import Rover.Proofs.Numerals
import Rover.Text.Quoted

/-!
# Reading quoted text

A quoted text ends at the first quote that is not escaped, whatever the text holds: its characters can be read back one by one
(`next?_escapeChar`), and none of them is written with the closing quote first. So from a quoted text and whatever is written after
it both can be told (`encode_append_inj`), and no quoted text reaches into a second line (`newline_notMem_encode`).
-/

namespace Rover.Quoted

/-! ### Code points -/

def hexValue (c : Char) : Nat := if c.toNat < 'a'.toNat then c.toNat - '0'.toNat else c.toNat - 'a'.toNat + 10

/-- The number that hexadecimal digits stand for. -/
def hexNumber (ds : List Char) : Nat := ds.foldl (fun n d => 16 * n + hexValue d) 0

theorem hexValue_digitChar {n : Nat} (h : n < 16) : hexValue n.digitChar = n := by
  decide +revert

theorem length_hexDigits (width n : Nat) : (hexDigits width n).length = width := by
  induction width generalizing n with
  | zero => rfl
  | succ width ih => rw [hexDigits, List.length_append, ih, List.length_singleton]

theorem hexNumber_hexDigits (width n : Nat) : hexNumber (hexDigits width n) = n % 16 ^ width := by
  induction width generalizing n with
  | zero => rw [pow_zero, Nat.mod_one]; rfl
  | succ width ih =>
      have hlast := hexValue_digitChar (Nat.mod_lt n (by decide : 0 < 16))
      calc hexNumber (hexDigits (width + 1) n)
          = 16 * hexNumber (hexDigits width (n / 16)) + hexValue (n % 16).digitChar := by
            rw [hexDigits, hexNumber, List.foldl_append]; rfl
        _ = n % 16 ^ (width + 1) := by
            rw [ih, hlast, Nat.pow_succ', Nat.mod_mul, Nat.add_comm]

theorem newline_notMem_hexDigits (width n : Nat) : '\n' ∉ hexDigits width n := by
  induction width generalizing n with
  | zero => exact List.not_mem_nil
  | succ width ih =>
      have hlast : ∀ d < 16, '\n' ≠ Nat.digitChar d := by decide
      rw [hexDigits, List.mem_append, List.mem_singleton, not_or]
      exact ⟨ih (n / 16), hlast _ (Nat.mod_lt n (by decide))⟩

/-! ### Single characters -/

/-- How many digits of a code point follow a letter after a backslash. -/
def codeWidth? : Char → Option Nat
  | 'x' => some 2
  | 'u' => some 4
  | 'U' => some 8
  | _ => none

/-- What a character after a backslash begins, and what comes after that. -/
def afterBackslash (c : Char) (rest : List Char) : Char × List Char :=
  (codeWidth? c).elim (Escape.meaning c, rest) fun width => (Char.ofNat (hexNumber (rest.take width)), rest.drop width)

/-- Reads one character of a quoted text, escaped or not. -/
def next? : List Char → Option (Char × List Char)
  | [] => none
  | c :: rest => if c = '\\' then rest.head?.map (afterBackslash · rest.tail) else some (c, rest)

theorem next?_code {letter c : Char} {width : Nat} (hletter : codeWidth? letter = some width) (hc : c.toNat < 16 ^ width)
    (rest : List Char) : next? (['\\', letter] ++ hexDigits width c.toNat ++ rest) = some (c, rest) := by
  have hcode : hexNumber (hexDigits width c.toNat) = c.toNat := by
    rw [hexNumber_hexDigits, Nat.mod_eq_of_lt hc]
  simp [next?, afterBackslash, hletter, length_hexDigits, hcode, Char.ofNat_toNat]

theorem next?_escapeCode (c : Char) (rest : List Char) : next? (escapeCode c ++ rest) = some (c, rest) := by
  have hc : c.toNat < 16 ^ 8 := Nat.lt_of_lt_of_le (UInt32.toNat_lt c.val) (by decide)
  simp only [escapeCode]
  split_ifs with hx hu
  · exact next?_code rfl hx rest
  · exact next?_code rfl hu rest
  · exact next?_code rfl hc rest

/-- The quotes a text can stand in. -/
def IsMark (q : Char) : Prop := q = '\'' ∨ q = '"'

theorem isMark_mark (text : List Char) : IsMark (mark text) := by
  unfold mark
  split_ifs
  · exact .inr rfl
  · exact .inl rfl

theorem next?_escapeChar {q : Char} (hq : IsMark q) (c : Char) (rest : List Char) :
    next? (escapeChar q c ++ rest) = some (c, rest) := by
  simp only [escapeChar]
  split_ifs with hmark hn hr ht hplain
  · obtain (rfl | rfl) := hmark
    · obtain (rfl | rfl) := hq <;> rfl
    · rfl
  · rw [hn]; rfl
  · rw [hr]; rfl
  · rw [ht]; rfl
  · rw [not_or] at hmark
    simp [next?, hmark.2]
  · exact next?_escapeCode c rest

theorem escapeCode_head (c : Char) : ∃ ds, escapeCode c = '\\' :: ds := by
  simp only [escapeCode]
  split_ifs <;> exact ⟨_, rfl⟩

/-- No character is written with the quote in use first. -/
theorem escapeChar_head {q : Char} (hq : IsMark q) (c : Char) : ∃ d ds, escapeChar q c = d :: ds ∧ d ≠ q := by
  have hbackslash : '\\' ≠ q := by obtain (rfl | rfl) := hq <;> decide
  obtain ⟨ds, hcode⟩ := escapeCode_head c
  simp only [escapeChar]
  split_ifs with hmark hn hr ht hplain
  · exact ⟨'\\', _, rfl, hbackslash⟩
  · exact ⟨'\\', _, rfl, hbackslash⟩
  · exact ⟨'\\', _, rfl, hbackslash⟩
  · exact ⟨'\\', _, rfl, hbackslash⟩
  · exact ⟨c, [], rfl, (not_or.1 hmark).1⟩
  · exact ⟨'\\', ds, hcode, hbackslash⟩

theorem newline_notMem_escapeCode (c : Char) : '\n' ∉ escapeCode c := by
  simp only [escapeCode]
  split_ifs <;> simp [newline_notMem_hexDigits]

theorem newline_notMem_escapeChar {q : Char} (hq : IsMark q) (c : Char) : '\n' ∉ escapeChar q c := by
  have hquote : '\n' ≠ q := by obtain (rfl | rfl) := hq <;> decide
  simp only [escapeChar]
  split_ifs with hmark hn hr ht hplain
  · have hc : '\n' ≠ c := by
      obtain (rfl | rfl) := hmark
      · exact hquote
      · decide
    simp [hc]
  · decide
  · decide
  · decide
  · simpa using Ne.symm hn
  · exact newline_notMem_escapeCode c

/-! ### Whole texts -/

theorem body_inj {q : Char} (hq : IsMark q) {text text' rest rest' : List Char}
    (h : text.flatMap (escapeChar q) ++ q :: rest = text'.flatMap (escapeChar q) ++ q :: rest') :
    text = text' ∧ rest = rest' := by
  induction text generalizing text' with
  | nil =>
      cases text' with
      | nil => simpa using h
      | cons c' text' =>
          obtain ⟨d, ds, hd, hne⟩ := escapeChar_head hq c'
          simp [hd] at h
          exact absurd h.1.symm hne
  | cons c text ih =>
      cases text' with
      | nil =>
          obtain ⟨d, ds, hd, hne⟩ := escapeChar_head hq c
          simp [hd] at h
          exact absurd h.1 hne
      | cons c' text' =>
          rw [List.flatMap_cons, List.flatMap_cons, List.append_assoc, List.append_assoc] at h
          have hnext := congrArg next? h
          rw [next?_escapeChar hq, next?_escapeChar hq, Option.some_inj, Prod.mk.injEq] at hnext
          obtain ⟨rfl, hrest⟩ := hnext
          obtain ⟨rfl, rfl⟩ := ih hrest
          exact ⟨rfl, rfl⟩

/-- From a quoted text and what is written after it both can be told. -/
theorem encode_append_inj {text text' rest rest' : List Char} (h : encode text ++ rest = encode text' ++ rest') :
    text = text' ∧ rest = rest' := by
  simp only [encode, List.cons_append, List.append_assoc, List.nil_append, List.cons.injEq] at h
  obtain ⟨hmark, hbody⟩ := h
  rw [← hmark] at hbody
  exact body_inj (isMark_mark text) hbody

theorem newline_notMem_encode (text : List Char) : '\n' ∉ encode text := by
  have hmark := isMark_mark text
  have hquote : '\n' ≠ mark text := by obtain (h | h) := hmark <;> rw [h] <;> decide
  simp only [encode, List.cons_append, List.mem_cons, List.mem_append, List.mem_flatMap, List.not_mem_nil, or_false, not_or]
  refine ⟨hquote, ?_, hquote⟩
  rintro ⟨c, -, hc⟩
  exact newline_notMem_escapeChar hmark c hc

end Rover.Quoted
