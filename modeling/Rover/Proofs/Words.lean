import Mathlib
import Rover.Value

/-!
# Integers as machine words

The integers of the language are held as `Int`, divided by their magnitudes with the sign put right afterwards, and folded
back into range after every operator. What comes out is the arithmetic of a machine with 32-bit registers in two's
complement: `BitVec 32`. Only a zero divisor has no result, and an operator that fails leaves the value it is applied to.
-/

namespace Rover

/-! ### Words and bit vectors -/

theorem toInt_ofInt_word (n : Int) : (BitVec.ofInt 32 n).toInt = wrap n := by rw [wrap_eq_bmod, BitVec.toInt_ofInt]

theorem toInt_ofInt_of_isWord {n : Int} (h : IsWord n) : (BitVec.ofInt 32 n).toInt = n := by
  rw [toInt_ofInt_word, wrap_eq_self_iff.2 h]

theorem ofInt_eq_zero_iff {n : Int} (h : IsWord n) : BitVec.ofInt 32 n = 0#32 ↔ n = 0 := by
  rw [← BitVec.toInt_inj, toInt_ofInt_of_isWord h]
  rfl

/-- The machine instruction of an operator. There is none for a zero divisor. -/
def ArithmeticOp.instruction (op : ArithmeticOp) (a b : BitVec 32) : Option (BitVec 32) :=
  match op with
  | .add => some (a + b)
  | .sub => some (a - b)
  | .mul => some (a * b)
  | .div => if b = 0#32 then none else some (a.sdiv b)
  | .mod => if b = 0#32 then none else some (a.srem b)

/-! ### Quotient and remainder -/

/-- The sign is put right exactly where truncation toward zero wants it. -/
theorem truncatedQuotient_eq_tdiv (a b : Int) : truncatedQuotient a b = a.tdiv b := by
  have hmagnitudes : ((a.natAbs / b.natAbs : Nat) : Int) = |a|.tdiv |b| := by
    rw [Int.abs_eq_natAbs, Int.abs_eq_natAbs]
    exact Int.ofNat_tdiv _ _
  unfold truncatedQuotient
  rw [hmagnitudes]
  rcases lt_or_ge a 0 with ha | ha <;> rcases lt_or_ge b 0 with hb | hb
  · simp [ha, hb, abs_of_neg, Int.neg_tdiv, Int.tdiv_neg]
  · simp [ha, not_lt.2 hb, abs_of_neg, abs_of_nonneg, hb, Int.neg_tdiv]
  · simp [not_lt.2 ha, hb, abs_of_neg, abs_of_nonneg, ha, Int.tdiv_neg]
  · simp [not_lt.2 ha, not_lt.2 hb, abs_of_nonneg, ha, hb]

theorem truncatedRest_eq_tmod (a b : Int) : truncatedRest a b = a.tmod b := by
  rw [truncatedRest, truncatedQuotient_eq_tdiv, Int.tmod_def]

/-- A remainder of words is a word. -/
theorem isWord_tmod {a : Int} (ha : IsWord a) (b : Int) : IsWord (a.tmod b) := by
  have hle : (a.tmod b).natAbs ≤ a.natAbs := by
    rw [Int.natAbs_tmod]
    exact Nat.mod_le _ _
  have hneg : a ≤ 0 → a.tmod b ≤ 0 := by
    intro h
    have hnonneg := Int.tmod_nonneg b (show 0 ≤ -a by omega)
    rw [Int.neg_tmod] at hnonneg
    omega
  unfold IsWord at *
  omega

theorem abs_tmod_lt (a : Int) {b : Int} (hb : b ≠ 0) : |a.tmod b| < |b| := by
  rw [Int.abs_eq_natAbs, Int.abs_eq_natAbs, Int.natAbs_tmod]
  exact_mod_cast Nat.mod_lt _ (Int.natAbs_pos.2 hb)

theorem tmod_eq_zero_or_sign (a b : Int) : a.tmod b = 0 ∨ (a.tmod b).sign = a.sign := by
  by_cases hdvd : b ∣ a
  · exact .inl (Int.tmod_eq_zero_of_dvd hdvd)
  · exact .inr (by rw [Int.sign_tmod, if_neg hdvd])

/-- The wrapped quotient still gives the dividend back. -/
theorem eq_wrap_quotient {a : Int} (ha : IsWord a) (b : Int) : a = wrap (wrap (a.tdiv b) * b + a.tmod b) := by
  have hproduct : wrap (wrap (a.tdiv b) * b) = wrap (a.tdiv b * b) := by
    rw [← wrap_mul_wrap, wrap_eq_self_iff.2 (isWord_wrap _), wrap_mul_wrap]
  rw [← wrap_add_wrap, hproduct, wrap_add_wrap, Int.tdiv_mul_add_tmod, wrap_eq_self_iff.2 ha]

namespace Value

/-! ### Operators in place -/

/-- A symbol between two integers, applied in place to the left one. -/
def applied (symbol : String) (a b : Int) : EStateM.Result OperandError Value Unit :=
  inPlace (arithmeticSymbol symbol · (integer b)) (integer a)

theorem ofSymbol?_symbol (op : ArithmeticOp) : ArithmeticOp.ofSymbol? op.symbol = some op := by
  cases op <;> decide

theorem ofSymbol?_eq_some_iff {symbol : String} {op : ArithmeticOp} :
    ArithmeticOp.ofSymbol? symbol = some op ↔ symbol = op.symbol := by
  refine ⟨fun h => ?_, fun h => h ▸ ofSymbol?_symbol op⟩
  have hfound := List.find?_some h
  exact (beq_iff_eq.1 hfound).symm

theorem applied_symbol (op : ArithmeticOp) (a b : Int) :
    applied op.symbol a b = inPlace (arithmetic op · (integer b)) (integer a) := by
  unfold applied inPlace
  simp only [arithmeticSymbol, ofSymbol?_symbol]

theorem applied_unknown {symbol : String} (h : ArithmeticOp.ofSymbol? symbol = none) (a b : Int) :
    applied symbol a b = .error (.unknownArithmetic symbol) (integer a) := by
  unfold applied inPlace
  simp only [arithmeticSymbol, h]
  rfl

/-- An operator does to words what its instruction does. -/
theorem arithmetic_eq_instruction (op : ArithmeticOp) {a b : Int} (ha : IsWord a) (hb : IsWord b) :
    arithmetic op (integer a) (integer b) =
      (op.instruction (.ofInt 32 a) (.ofInt 32 b)).elim (.error .divisionByZero) fun w => .ok (integer w.toInt) := by
  have hdone (n : Int) (w : BitVec 32) (h : w.toInt = wrap n) : ofInt n = integer w.toInt := by rw [ofInt, h]
  have hx := toInt_ofInt_of_isWord ha
  have hy := toInt_ofInt_of_isWord hb
  have hzero := ofInt_eq_zero_iff hb
  cases op with
  | add => exact congrArg Except.ok (hdone _ _ (by rw [BitVec.toInt_add, hx, hy, wrap_eq_bmod]))
  | sub => exact congrArg Except.ok (hdone _ _ (by rw [BitVec.toInt_sub, hx, hy, wrap_eq_bmod]))
  | mul => exact congrArg Except.ok (hdone _ _ (by rw [BitVec.toInt_mul, hx, hy, wrap_eq_bmod]))
  | div =>
      simp only [arithmetic, wordArithmetic, ArithmeticOp.instruction, hzero, truncatedQuotient_eq_tdiv]
      split_ifs with hdivisor
      · rfl
      · exact congrArg Except.ok (hdone _ _ (by rw [BitVec.toInt_sdiv, hx, hy, wrap_eq_bmod]))
  | mod =>
      simp only [arithmetic, wordArithmetic, ArithmeticOp.instruction, hzero, truncatedRest_eq_tmod]
      split_ifs with hdivisor
      · rfl
      · refine congrArg Except.ok (hdone _ _ ?_)
        rw [BitVec.toInt_srem, hx, hy, wrap_eq_self_iff.2 (isWord_tmod ha b)]

theorem negate_eq {a : Int} (ha : IsWord a) : negate (integer a) = .ok (integer (-BitVec.ofInt 32 a).toInt) := by
  rw [negate, ofInt, BitVec.toInt_neg, toInt_ofInt_of_isWord ha, wrap_eq_bmod]

/-- An operator in place that fails leaves its operand. -/
theorem eq_of_inPlace_error {operator : Value → Except OperandError Value} {v w : Value} {e : OperandError}
    (h : inPlace operator v = .error e w) : operator v = .error e ∧ w = v := by
  unfold inPlace at h
  cases hresult : operator v with
  | ok u =>
      rw [hresult] at h
      cases h
  | error e' =>
      rw [hresult] at h
      cases h
      exact ⟨rfl, rfl⟩

theorem applied_eq_instruction (op : ArithmeticOp) {a b : Int} (ha : IsWord a) (hb : IsWord b) :
    applied op.symbol a b = (op.instruction (.ofInt 32 a) (.ofInt 32 b)).elim
      (.error .divisionByZero (integer a)) fun w => .ok () (integer w.toInt) := by
  rw [applied_symbol, inPlace, arithmetic_eq_instruction op ha hb]
  cases op.instruction (.ofInt 32 a) (.ofInt 32 b) <;> rfl

theorem instruction_eq_none_iff {op : ArithmeticOp} {b : Int} (hb : IsWord b) (a : BitVec 32) :
    op.instruction a (.ofInt 32 b) = none ↔ (op = .div ∨ op = .mod) ∧ b = 0 := by
  cases op <;> simp [ArithmeticOp.instruction, ofInt_eq_zero_iff hb]

/-- Dividing by zero, and nothing else, fails as a division by zero. -/
theorem applied_divisionByZero_iff {symbol : String} {a b : Int} (ha : IsWord a) (hb : IsWord b) {v : Value} :
    applied symbol a b = .error .divisionByZero v ↔ (symbol = "/" ∨ symbol = "%") ∧ b = 0 ∧ v = integer a := by
  cases hop : ArithmeticOp.ofSymbol? symbol with
  | none =>
      have hdiv : symbol ≠ "/" := by
        intro h
        rw [h, show "/" = ArithmeticOp.div.symbol from rfl, ofSymbol?_symbol] at hop
        cases hop
      have hmod : symbol ≠ "%" := by
        intro h
        rw [h, show "%" = ArithmeticOp.mod.symbol from rfl, ofSymbol?_symbol] at hop
        cases hop
      rw [applied_unknown hop]
      simp [hdiv, hmod]
  | some op =>
      obtain rfl := ofSymbol?_eq_some_iff.1 hop
      have hsymbol : (op.symbol = "/" ∨ op.symbol = "%") ↔ (op = .div ∨ op = .mod) := by cases op <;> decide
      rw [applied_eq_instruction op ha hb, hsymbol, ← and_assoc, ← instruction_eq_none_iff hb (.ofInt 32 a)]
      cases op.instruction (.ofInt 32 a) (.ofInt 32 b) with
      | none => simp [eq_comm]
      | some w => simp

/-- Quotient and remainder of words. Only the least word divided by minus one needs the wrapping. -/
theorem applied_division {a b : Int} (ha : IsWord a) (hb : b ≠ 0) :
    applied "/" a b = .ok () (integer (wrap (a.tdiv b))) ∧ applied "%" a b = .ok () (integer (a.tmod b)) := by
  refine ⟨?_, ?_⟩
  · refine (applied_symbol .div a b).trans ?_
    simp only [inPlace, arithmetic, wordArithmetic, if_neg hb, truncatedQuotient_eq_tdiv]
    rfl
  · refine (applied_symbol .mod a b).trans ?_
    simp only [inPlace, arithmetic, wordArithmetic, if_neg hb, truncatedRest_eq_tmod]
    change EStateM.Result.ok () (integer (wrap (a.tmod b))) = _
    rw [wrap_eq_self_iff.2 (isWord_tmod ha b)]

/-- Integers follow the semantics of 32-bit machine words. Every operator, by its symbol, does in place what the
instruction does to the two's complement words; negation does as well. Quotient and remainder by a number other than zero
give the dividend back, and the remainder is smaller than the divisor and has the sign of the dividend. Exactly a division
by zero fails as such, and whatever fails leaves the operand. -/
theorem integers_are_machine_words {a b : Int} (ha : IsWord a) (hb : IsWord b) :
    (∀ op : ArithmeticOp, applied op.symbol a b = (op.instruction (.ofInt 32 a) (.ofInt 32 b)).elim
      (.error .divisionByZero (integer a)) fun w => .ok () (integer w.toInt)) ∧
    inPlace negate (integer a) = .ok () (integer (-BitVec.ofInt 32 a).toInt) ∧
    (b ≠ 0 → ∃ q r : Int, applied "/" a b = .ok () (integer q) ∧ applied "%" a b = .ok () (integer r) ∧
      a = wrap (q * b + r) ∧ |r| < |b| ∧ (r = 0 ∨ r.sign = a.sign)) ∧
    (∀ (symbol : String) (v : Value), applied symbol a b = .error .divisionByZero v ↔
      (symbol = "/" ∨ symbol = "%") ∧ b = 0 ∧ v = integer a) ∧
    ∀ (symbol : String) (e : OperandError) (v : Value), applied symbol a b = .error e v → v = integer a := by
  refine ⟨fun op => applied_eq_instruction op ha hb, ?_, fun hdivisor => ?_, fun symbol v => applied_divisionByZero_iff ha hb,
    fun symbol e v h => (eq_of_inPlace_error h).2⟩
  · rw [inPlace, negate_eq ha]
  · obtain ⟨hquotient, hremainder⟩ := applied_division ha hdivisor
    exact ⟨_, _, hquotient, hremainder, eq_wrap_quotient ha b, abs_tmod_lt a hdivisor, tmod_eq_zero_or_sign a b⟩

/-- The least word has no opposite: it is its own quotient by minus one, without a remainder. -/
theorem least_word_by_minus_one :
    IsWord (-2147483648) ∧ IsWord (-1) ∧ applied "/" (-2147483648) (-1) = .ok () (integer (-2147483648)) ∧
      applied "%" (-2147483648) (-1) = .ok () (integer 0) ∧
      inPlace negate (integer (-2147483648)) = .ok () (integer (-2147483648)) := by
  have hleast : IsWord (-2147483648) := by decide
  have hone : IsWord (-1) := by decide
  obtain ⟨hop, hnegate, -⟩ := integers_are_machine_words hleast hone
  exact ⟨hleast, hone, hop .div, hop .mod, hnegate⟩

end Value

end Rover
