import Rover.Proofs.Equations

/-!
# Integer expressions are polynomials

An expression of integer literals, integer variables, sums, differences, products and signs stands for a polynomial with
integer coefficients. The evaluator wraps the value of every node into a word. Wrapping once at the end would do: the
evaluator gives the wrapped value of the polynomial (`wrapping_once_suffices`), so that expressions with the same polynomial
cannot be told apart by a program.
-/

namespace Rover

/-! ### Trees and their polynomials -/

/-- Expressions of integer literals, variables that hold integers here, binary `+`, `-` and `*`, and the two signs. -/
inductive IntegerTree (s : Stack) : Node → Prop
  | literal {n : Int} {line : Int} {text : String} {children : List Node} (hn : IsWord n) :
      IntegerTree s ⟨.int, line, text, some (.integer n), children⟩
  | named {n : Int} {line : Int} {name : String} {value : Option Value} {children : List Node}
      (hholds : s.get name = .ok (.integer n)) (hn : IsWord n) : IntegerTree s ⟨.id, line, name, value, children⟩
  | plus {line : Int} {text : String} {value : Option Value} {a : Node} (ha : IntegerTree s a) :
      IntegerTree s ⟨.arithmetic .add, line, text, value, [a]⟩
  | minus {line : Int} {text : String} {value : Option Value} {a : Node} (ha : IntegerTree s a) :
      IntegerTree s ⟨.arithmetic .sub, line, text, value, [a]⟩
  | add {line : Int} {text : String} {value : Option Value} {a b : Node} (ha : IntegerTree s a) (hb : IntegerTree s b) :
      IntegerTree s ⟨.arithmetic .add, line, text, value, [a, b]⟩
  | sub {line : Int} {text : String} {value : Option Value} {a b : Node} (ha : IntegerTree s a) (hb : IntegerTree s b) :
      IntegerTree s ⟨.arithmetic .sub, line, text, value, [a, b]⟩
  | mul {line : Int} {text : String} {value : Option Value} {a b : Node} (ha : IntegerTree s a) (hb : IntegerTree s b) :
      IntegerTree s ⟨.arithmetic .mul, line, text, value, [a, b]⟩

/-- The integer that a variable holds. -/
def Stack.integer (s : Stack) (name : String) : Int :=
  match s.get name with
  | .ok (.integer n) => n
  | _ => 0

theorem Stack.integer_of_get {s : Stack} {name : String} {n : Int} (h : s.get name = .ok (.integer n)) :
    s.integer name = n := by
  rw [integer, h]

namespace Node

/-- The value of an expression in a commutative ring, where `env` gives the values of its variables. What is no integer
expression counts as zero. -/
def inRing {R : Type} [CommRing R] (env : String → R) : Node → R
  | ⟨.int, _, _, some (.integer n), _⟩ => n
  | ⟨.id, _, name, _, _⟩ => env name
  | ⟨.arithmetic .add, _, _, _, [a]⟩ => inRing env a
  | ⟨.arithmetic .sub, _, _, _, [a]⟩ => -inRing env a
  | ⟨.arithmetic .add, _, _, _, [a, b]⟩ => inRing env a + inRing env b
  | ⟨.arithmetic .sub, _, _, _, [a, b]⟩ => inRing env a - inRing env b
  | ⟨.arithmetic .mul, _, _, _, [a, b]⟩ => inRing env a * inRing env b
  | _ => 0

/-- The value of an expression in unbounded integers. -/
def exact (s : Stack) (e : Node) : Int := e.inRing s.integer

/-- The polynomial of an expression in its variables. -/
noncomputable def polynomial (e : Node) : MvPolynomial String Int := e.inRing MvPolynomial.X

end Node

namespace IntegerTree

variable {s : Stack} {e : Node}

/-- A ring homomorphism can be applied to the value of an expression or to the values of its variables. -/
theorem map_inRing (h : IntegerTree s e) {R S : Type} [CommRing R] [CommRing S] (φ : R →+* S) (env : String → R) :
    φ (e.inRing env) = e.inRing (φ ∘ env) := by
  induction h with
  | literal => simp only [Node.inRing, map_intCast]
  | named => simp only [Node.inRing, Function.comp_apply]
  | plus _ ih => simp only [Node.inRing, ih]
  | minus _ ih => simp only [Node.inRing, map_neg, ih]
  | add _ _ iha ihb => simp only [Node.inRing, map_add, iha, ihb]
  | sub _ _ iha ihb => simp only [Node.inRing, map_sub, iha, ihb]
  | mul _ _ iha ihb => simp only [Node.inRing, map_mul, iha, ihb]

/-- The exact value is a value of the polynomial. -/
theorem eval_polynomial (h : IntegerTree s e) : MvPolynomial.eval s.integer e.polynomial = e.exact s := by
  rw [Node.polynomial, h.map_inRing, Node.exact]
  congr 1
  funext name
  exact MvPolynomial.eval_X name

end IntegerTree

/-! ### Evaluation -/

/-- An expression has this value on every machine with these records, and leaves the machine as it was. -/
def Stack.Values (s : Stack) (e : Node) (v : Value) : Prop :=
  ∃ bound, ∀ fuel ≥ bound, ∀ m : Machine, m.stack = s → evaluate fuel e m = .done v m

namespace Stack.Values

variable {s : Stack} {a b : Node} {line : Int} {text : String} {value : Option Value} {children : List Node}

theorem of_node {n : Node} {v : Value} (bound : Nat)
    (h : ∀ fuel ≥ bound, ∀ m : Machine, m.stack = s → evaluateNode fuel n m = .done v m) : s.Values n v := by
  refine ⟨bound + 1, fun fuel hfuel m hm => ?_⟩
  obtain ⟨fuel, rfl⟩ := Nat.exists_eq_add_of_le' (Nat.one_le_of_lt hfuel)
  rw [evaluate_eq, h fuel (by omega) { m with line := n.line } hm]

theorem literal (n : Int) : s.Values ⟨.int, line, text, some (.integer n), children⟩ (.integer n) := by
  refine of_node 1 fun fuel hfuel m _ => ?_
  obtain ⟨fuel, rfl⟩ := Nat.exists_eq_add_of_le' hfuel
  rw [evaluateNode_literal rfl]
  rfl

theorem named {v : Value} (h : s.get text = .ok v) : s.Values ⟨.id, line, text, value, children⟩ v := by
  refine of_node 1 fun fuel hfuel m hm => ?_
  obtain ⟨fuel, rfl⟩ := Nat.exists_eq_add_of_le' hfuel
  rw [evaluateNode]
  simp only [Eval.variableValue, hm, h]

theorem unary {k : Kind} (hk : k.isOperator = true) {v w : Value} (ha : s.Values a v) (hw : unaryValue k v = .ok w) :
    s.Values ⟨k, line, text, value, [a]⟩ w := by
  obtain ⟨bound, ha⟩ := ha
  refine of_node (bound + 1) fun fuel hfuel m hm => ?_
  obtain ⟨fuel, rfl⟩ := Nat.exists_eq_add_of_le' (Nat.one_le_of_lt hfuel)
  rw [evaluateNode_operator hk]
  refine (Eval.bind_of_done (ha fuel (by omega) m hm)).trans ?_
  rw [hw]
  rfl

theorem arithmetic {op : ArithmeticOp} {v w u : Value} (ha : s.Values a v) (hb : s.Values b w)
    (hu : binaryValue (.arithmetic op) v w = .ok u) : s.Values ⟨.arithmetic op, line, text, value, [a, b]⟩ u := by
  obtain ⟨bound, ha⟩ := ha
  obtain ⟨bound', hb⟩ := hb
  refine of_node (bound + bound' + 1) fun fuel hfuel m hm => ?_
  obtain ⟨fuel, rfl⟩ := Nat.exists_eq_add_of_le' (Nat.one_le_of_lt hfuel)
  rw [evaluateNode_operator rfl]
  refine (Eval.bind_of_done (ha fuel (by omega) m hm)).trans ?_
  refine (Eval.bind_of_done (hb fuel (by omega) m hm)).trans ?_
  rw [hu]
  rfl

end Stack.Values

/-- The evaluator gives the exact value, wrapped into a word. -/
theorem IntegerTree.values {s : Stack} {e : Node} (h : IntegerTree s e) : s.Values e (.integer (wrap (e.exact s))) := by
  unfold Node.exact
  induction h with
  | literal hn =>
      rw [Node.inRing, Int.cast_id, wrap_eq_self_iff.2 hn]
      exact .literal _
  | named hholds hn =>
      rw [Node.inRing, Stack.integer_of_get hholds, wrap_eq_self_iff.2 hn]
      exact .named hholds
  | plus _ ih =>
      rw [Node.inRing]
      exact ih.unary rfl rfl
  | minus _ ih =>
      rw [Node.inRing, ← wrap_neg_wrap]
      exact ih.unary rfl rfl
  | add _ _ iha ihb =>
      rw [Node.inRing, ← wrap_add_wrap]
      exact iha.arithmetic ihb rfl
  | sub _ _ iha ihb =>
      rw [Node.inRing, ← wrap_sub_wrap]
      exact iha.arithmetic ihb rfl
  | mul _ _ iha ihb =>
      rw [Node.inRing, ← wrap_mul_wrap]
      exact iha.arithmetic ihb rfl

/-- Wrapping once or at every step is the same. An integer expression of any size has a value, the exact one wrapped into a
word, and two of them with one polynomial have the same value. -/
theorem wrapping_once_suffices (m : Machine) :
    (∀ e, IntegerTree m.stack e → ∃ bound, ∀ fuel ≥ bound, evaluate fuel e m = .done (.integer (wrap (e.exact m.stack))) m) ∧
      ∀ a b, IntegerTree m.stack a → IntegerTree m.stack b → a.polynomial = b.polynomial →
        ∃ v bound, ∀ fuel ≥ bound, evaluate fuel a m = .done v m ∧ evaluate fuel b m = .done v m := by
  refine ⟨fun e he => ?_, fun a b ha hb hpolynomial => ?_⟩
  · obtain ⟨bound, hvalue⟩ := he.values
    exact ⟨bound, fun fuel hfuel => hvalue fuel hfuel m rfl⟩
  · have hexact : a.exact m.stack = b.exact m.stack := by rw [← ha.eval_polynomial, ← hb.eval_polynomial, hpolynomial]
    obtain ⟨bound, ha⟩ := ha.values
    obtain ⟨bound', hb⟩ := hb.values
    rw [← hexact] at hb
    exact ⟨_, max bound bound', fun fuel hfuel =>
      ⟨ha fuel (le_of_max_le_left hfuel) m rfl, hb fuel (le_of_max_le_right hfuel) m rfl⟩⟩

/-! Two forms of the same square less one, where the variable is the greatest word: the sum overflows in one form, the
product in both. -/

namespace Squares

def machine : Machine :=
  { Machine.initial .default "" .unobserved with stack := ⟨[⟨"main", -1, [("x", 0)]⟩], #[.integer 2147483647]⟩ }

def x : Node := .leaf .id 1 "x"

def one : Node := ⟨.int, 1, "1", some (.integer 1), []⟩

def factored : Node := .branch (.arithmetic .mul) 1
  [.branch (.arithmetic .add) 1 [x, one], .branch (.arithmetic .add) 1 [x, .branch (.arithmetic .sub) 1 [one]]]

def expanded : Node := .branch (.arithmetic .sub) 1 [.branch (.arithmetic .mul) 1 [x, x], one]

theorem forms_agree : IntegerTree machine.stack factored ∧ IntegerTree machine.stack expanded ∧
    factored.polynomial = expanded.polynomial ∧ factored.exact machine.stack = 4611686014132420608 ∧
    ∃ bound, ∀ fuel ≥ bound, evaluate fuel factored machine = .done (.integer 0) machine ∧
      evaluate fuel expanded machine = .done (.integer 0) machine := by
  have hx : IntegerTree machine.stack x := .named (n := 2147483647) rfl (by decide)
  have hone : IntegerTree machine.stack one := .literal (by decide)
  have hfactored : IntegerTree machine.stack factored := .mul (.add hx hone) (.add hx (.minus hone))
  have hexpanded : IntegerTree machine.stack expanded := .sub (.mul hx hx) hone
  have hpolynomial : factored.polynomial = expanded.polynomial := by
    simp only [Node.polynomial, factored, expanded, x, one, Node.branch, Node.leaf, Node.inRing, Int.cast_one]
    ring
  have hexact : factored.exact machine.stack = 4611686014132420608 := by decide
  have hwrap : wrap 4611686014132420608 = 0 := by decide
  obtain ⟨hvalue, hsame⟩ := wrapping_once_suffices machine
  obtain ⟨bound, hvalue⟩ := hvalue factored hfactored
  obtain ⟨v, bound', hsame⟩ := hsame factored expanded hfactored hexpanded hpolynomial
  rw [hexact, hwrap] at hvalue
  refine ⟨hfactored, hexpanded, hpolynomial, hexact, max bound bound', fun fuel hfuel => ?_⟩
  have hzero := hvalue fuel (le_of_max_le_left hfuel)
  obtain ⟨ha, hb⟩ := hsame fuel (le_of_max_le_right hfuel)
  obtain rfl : v = .integer 0 := by
    rw [hzero] at ha
    injection ha with hv
    exact hv.symm
  exact ⟨ha, hb⟩

end Squares

end Rover
