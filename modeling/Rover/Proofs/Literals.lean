import Rover.Proofs.Cutting
import Rover.Proofs.Loading
import Rover.Proofs.Parsing
import Rover.Proofs.ReadBack

/-!
# Literals

The literals of a program tree, from its root on, are the literal tokens of the source in their order
(`Derivation.literals_image`). The numerals among them can be read, in whatever script their digits are written: a token of
digits denotes a natural number, and one with a point or an exponent denotes a double.
-/

namespace Rover

open Reading Lexeme

/-! ### Numerals of any script -/

/-- No digit is a blank. -/
theorem isBlank_digits : ∀ z ∈ zeroDigits, ∀ i < 10, isBlank (Char.ofNat (z + i)) = false := by decide

theorem digitValue?_spec {c : Char} {d : Nat} (h : digitValue? c = some d) :
    d < 10 ∧ ∃ z ∈ zeroDigits, c.toNat = z + d := by
  unfold digitValue? at h
  split_ifs at h with hascii hdigit
  · cases h
    exact ⟨by omega, 48, by decide, by omega⟩
  · obtain ⟨z, hz, hd⟩ := Option.map_eq_some_iff.1 h
    have hrange := List.find?_some hz
    rw [decide_eq_true_eq] at hrange
    exact ⟨by omega, z, List.mem_of_find?_eq_some hz, by omega⟩

theorem class_of_digit {c : Char} (h : isDecimalDigit c = true) :
    isBlank c = false ∧ isPlainDigit (plainChar c) = true := by
  obtain ⟨d, hd⟩ := Option.isSome_iff_exists.1 h
  obtain ⟨hlt, z, hz, hc⟩ := digitValue?_spec hd
  constructor
  · rw [← Char.ofNat_toNat c, hc]
    exact isBlank_digits z hz d hlt
  · rw [plainChar, hd]
    exact (digitChar_spec hlt).1

/-- Digits of any script, and the characters between them in a numeral. -/
def IsNumeralPart (c : Char) : Prop := isDecimalDigit c = true ∨ c ∈ ['.', 'e', 'E', '+', '-']

theorem class_of_numeralPart {c : Char} (h : IsNumeralPart c) : isBlank c = false ∧ plainChar c ≠ '_' := by
  rcases h with h | h
  · obtain ⟨hblank, hplain⟩ := class_of_digit h
    refine ⟨hblank, fun hline => ?_⟩
    rw [hline] at hplain
    exact absurd hplain (by decide)
  · fin_cases h <;> decide

theorem plain?_eq_map {text : List Char} (h : ∀ c ∈ text, IsNumeralPart c) : plain? text = some (text.map plainChar) := by
  rw [plain?, trimBlank_eq_self fun c hc => (class_of_numeralPart (h c hc)).1]
  refine ungroup?_eq_self (fun hmem => ?_) none
  obtain ⟨c, hc, hline⟩ := List.mem_map.1 hmem
  exact (class_of_numeralPart (h c hc)).2 hline

theorem sign_of_head {c : Char} (hc : isPlainDigit c = true) (rest : List Char) : sign (c :: rest) = (false, c :: rest) :=
  sign_signed hc false rest

/-- Digits as a number, which they are in any script. -/
theorem Lexeme.IsDigits.plain {ds : List Char} (h : IsDigits ds) :
    (∀ c ∈ ds.map plainChar, isPlainDigit c = true) ∧ ∃ c rest, ds.map plainChar = c :: rest ∧ isPlainDigit c = true := by
  have hplain : ∀ c ∈ ds.map plainChar, isPlainDigit c = true := by
    intro c hc
    obtain ⟨d, hd, rfl⟩ := List.mem_map.1 hc
    exact (class_of_digit (h.2 d hd)).2
  obtain ⟨d, rest, rfl⟩ := List.exists_cons_of_ne_nil h.1
  exact ⟨hplain, plainChar d, rest.map plainChar, rfl, hplain _ List.mem_cons_self⟩

theorem Lexeme.IsDigits.numeralPart {ds : List Char} (h : IsDigits ds) : ∀ c ∈ ds, IsNumeralPart c := fun c hc => .inl (h.2 c hc)

/-- A token of digits denotes a natural number. -/
theorem int?_of_digits {text : String} (h : IsDigits text.toList) : ∃ n : Nat, int? text = some (n : Int) := by
  obtain ⟨hdigits, c, rest, hcons, hc⟩ := h.plain
  refine ⟨natOf (c :: rest), ?_⟩
  rw [int?, plain?_eq_map h.numeralPart, Option.bind_some, plainInt?, hcons, sign_of_head hc]
  exact if_pos ⟨by simp, List.all_eq_true.2 (hcons ▸ hdigits)⟩

/-- All characters of a token of digits count as digits of it. -/
theorem length_leadingDigits {text : List Char} (h : IsDigits text) : (leadingDigits text).length = text.length := by
  obtain ⟨hdigits, c, rest, hcons, hc⟩ := h.plain
  have hsign : sign (text.map plainChar) = (false, text.map plainChar) := by
    rw [hcons]
    exact sign_of_head hc rest
  rw [leadingDigits_eq (fun c hc => (class_of_digit (h.2 c hc)).1) hsign hdigits, List.length_map]

theorem exponent?_of_sign {e : Char} (he : e = 'e' ∨ e = 'E') {text : List Char} {neg : Bool} {c : Char} {ds : List Char}
    (hsign : sign text = (neg, c :: ds)) (hds : ∀ d ∈ c :: ds, isPlainDigit d = true) :
    ∃ n, exponent? (e :: text) = some n := by
  rw [exponent?, if_pos he, hsign]
  exact ⟨_, if_pos ⟨by simp, List.all_eq_true.2 hds⟩⟩

theorem exponent?_of_exponent {cs : List Char} (h : IsExponent cs) : ∃ n, exponent? (cs.map plainChar) = some n := by
  obtain ⟨e, sign, ds, he, hsign, hds, rfl⟩ := h
  obtain ⟨hdigits, c, rest, hcons, hc⟩ := hds.plain
  have he' : plainChar e = 'e' ∨ plainChar e = 'E' := by rcases he with rfl | rfl <;> decide
  rw [hcons] at hdigits
  rw [List.map_cons, List.map_append, hcons]
  rcases hsign with rfl | rfl | rfl
  · exact exponent?_of_sign he' (sign_of_head hc rest) hdigits
  · exact exponent?_of_sign he' rfl hdigits
  · exact exponent?_of_sign he' rfl hdigits

theorem stops_of_exponent {cs : List Char} (h : cs = [] ∨ IsExponent cs) :
    StopsDigits (cs.map plainChar) ∧ ∀ rest, cs.map plainChar ≠ '.' :: rest := by
  rcases h with rfl | ⟨e, sign, ds, he, -, -, rfl⟩
  · exact ⟨nofun, nofun⟩
  · have he' : isPlainDigit (plainChar e) = false ∧ plainChar e ≠ '.' := by rcases he with rfl | rfl <;> decide
    refine ⟨fun c hc => ?_, fun rest heq => he'.2 (List.cons.inj heq).1⟩
    cases hc
    exact he'.1

theorem decimal?_plain {whole rest : List Char} (hwhole : ∀ c ∈ whole, isPlainDigit c = true) (hne : whole ≠ [])
    (hrest : StopsDigits rest) (hpoint : ∀ r, rest ≠ '.' :: r) :
    decimal? (whole ++ rest) = (exponent? rest).map fun e => ⟨natOf whole, e⟩ := by
  obtain ⟨htake, hdrop⟩ := takeWhile_digits hwhole hrest
  unfold decimal?
  dsimp only
  rw [htake, hdrop]
  split
  · exact absurd rfl (hpoint _)
  · simp [hne]

theorem decimal?_of_float {cs : List Char} (h : IsFloat cs) : ∃ d, decimal? (cs.map plainChar) = some d := by
  cases h with
  | @point whole fraction exponent hwhole hfraction hexponent =>
      obtain ⟨hdigits, c, rest, hcons, -⟩ := hwhole.plain
      obtain ⟨n, hn⟩ : ∃ n, exponent? (exponent.map plainChar) = some n := by
        rcases hexponent with rfl | hexponent
        · exact ⟨0, rfl⟩
        · exact exponent?_of_exponent hexponent
      have hread := decimal?_point hdigits (by simp [hcons]) hfraction.plain.1 (stops_of_exponent hexponent).1
      rw [hn] at hread
      rw [List.map_append, List.map_cons, List.map_append]
      exact ⟨_, hread⟩
  | @exponent whole exponent hwhole hexponent =>
      obtain ⟨hdigits, c, rest, hcons, -⟩ := hwhole.plain
      obtain ⟨n, hn⟩ := exponent?_of_exponent hexponent
      obtain ⟨hstops, hpoint⟩ := stops_of_exponent (.inr hexponent)
      rw [List.map_append, decimal?_plain hdigits (by simp [hcons]) hstops hpoint, hn]
      exact ⟨_, rfl⟩

theorem Lexeme.IsExponent.numeralPart {cs : List Char} (h : IsExponent cs) : ∀ c ∈ cs, IsNumeralPart c := by
  obtain ⟨e, sign, ds, he, hsign, hds, rfl⟩ := h
  have hmark : IsNumeralPart e := .inr (by rcases he with rfl | rfl <;> decide)
  have hsigns : ∀ c ∈ sign, IsNumeralPart c := by rcases hsign with rfl | rfl | rfl <;> simp [IsNumeralPart]
  rw [List.forall_mem_cons, List.forall_mem_append]
  exact ⟨hmark, hsigns, hds.numeralPart⟩

theorem Lexeme.IsFloat.numeralPart {cs : List Char} (h : IsFloat cs) : ∀ c ∈ cs, IsNumeralPart c := by
  cases h with
  | @point whole fraction exponent hwhole hfraction hexponent =>
      have hend : ∀ c ∈ exponent, IsNumeralPart c := by
        rcases hexponent with rfl | hexponent
        · exact nofun
        · exact hexponent.numeralPart
      rw [List.forall_mem_append, List.forall_mem_cons, List.forall_mem_append]
      exact ⟨hwhole.numeralPart, .inr (by decide), hfraction.numeralPart, hend⟩
  | exponent hwhole hexponent =>
      rw [List.forall_mem_append]
      exact ⟨hwhole.numeralPart, hexponent.numeralPart⟩

theorem Lexeme.IsFloat.head {cs : List Char} (h : IsFloat cs) :
    ∃ c rest, cs.map plainChar = c :: rest ∧ isPlainDigit c = true := by
  obtain ⟨whole, rest, rfl, hwhole⟩ : ∃ whole rest, cs = whole ++ rest ∧ IsDigits whole := by
    cases h with
    | point hwhole _ _ => exact ⟨_, _, rfl, hwhole⟩
    | exponent hwhole _ => exact ⟨_, _, rfl, hwhole⟩
  obtain ⟨-, c, ds, hcons, hc⟩ := hwhole.plain
  exact ⟨c, ds ++ rest.map plainChar, by rw [List.map_append, hcons, List.cons_append], hc⟩

/-- A token with a point or an exponent denotes a double. -/
theorem float?_of_float {text : String} (h : IsFloat text.toList) : ∃ x, float? text = some x := by
  obtain ⟨d, hd⟩ := decimal?_of_float h
  obtain ⟨c, rest, hcons, hc⟩ := h.head
  rw [hcons] at hd
  refine ⟨d.toFloat false, ?_⟩
  have hinf := lower_ne hc (d := 'i') (by decide) rest ['n', 'f']
  have hinfinity := lower_ne hc (d := 'i') (by decide) rest ['n', 'f', 'i', 'n', 'i', 't', 'y']
  have hnan := lower_ne hc (d := 'n') (by decide) rest ['a', 'n']
  rw [float?, plain?_eq_map h.numeralPart, Option.bind_some, hcons, plainFloat?, sign_of_head hc]
  dsimp only
  rw [if_neg (not_or.2 ⟨hinf, hinfinity⟩), if_neg hnan, hd, Option.map_some]

/-! ### Literals in the order of the source -/

namespace Node

mutual

/-- The literals of a tree, each node before its children. -/
def literals : Node → List Node
  | ⟨kind, line, text, value, children⟩ =>
    (if kind.isLiteral then [⟨kind, line, text, value, children⟩] else []) ++ literalsAll children

def literalsAll : List Node → List Node
  | [] => []
  | n :: ns => literals n ++ literalsAll ns

end

@[simp] theorem literalsAll_append (ns ms : List Node) : literalsAll (ns ++ ms) = literalsAll ns ++ literalsAll ms := by
  induction ns with
  | nil => rfl
  | cons n ns ih => rw [List.cons_append, literalsAll, literalsAll, ih, List.append_assoc]

theorem literals_branch {k : Kind} (hk : k.isLiteral = false) (line : Int) (children : List Node) :
    (branch k line children).literals = literalsAll children := by
  rw [branch, literals, hk]
  rfl

end Node

/-- The leaf of a token that is a literal. -/
def Token.literal? (t : Token) : Option Node :=
  match t.terminal with
  | .float => some (.leaf .float t.line t.text)
  | .int => some (.leaf .int t.line t.text)
  | .string => some (.leaf .string t.line (String.ofList (Escape.decode (t.text.toList.drop 1).dropLast)))
  | .keyword .kwTrue => some (.leaf .boolean t.line "true")
  | .keyword .kwFalse => some (.leaf .boolean t.line "false")
  | _ => none

/-- The literals of what a symbol denotes. -/
def Symbol.literals : (s : Symbol) → s.Image → List Node
  | .start, n => Node.literals n
  | .functions, ns => Node.literalsAll ns
  | .function, n => Node.literals n
  | .params, n => Node.literalsAll n.toList
  | .paramList, ns => Node.literalsAll ns
  | .param, n => Node.literals n
  | .block, n => Node.literals n
  | .statements, ns => Node.literalsAll ns.reduceOption
  | .statement, n => Node.literalsAll n.toList
  | .alternative, n => Node.literalsAll n.toList
  | .result, n => Node.literalsAll n.toList
  | .args, n => Node.literalsAll n.toList
  | .argList, ns => Node.literalsAll ns
  | .expression _, n => Node.literals n
  | .atom, n => Node.literals n

@[simp] theorem Binary.isLiteral_kind (op : Binary) : op.kind.isLiteral = false := by cases op <;> rfl

@[simp] theorem Unary.isLiteral_kind (op : Unary) : op.kind.isLiteral = false := by cases op <;> rfl

@[simp] theorem Leaf.literals_id {k : Terminal} (l : Leaf k) : l.id.literals = [] := rfl

/-- The literals among some tokens. -/
def literalsOf (ts : List Token) : List Node := ts.filterMap Token.literal?

section Tokens

variable (ts us : List Token)

@[simp] theorem literalsOf_nil : literalsOf [] = [] := rfl

@[simp] theorem literalsOf_append : literalsOf (ts ++ us) = literalsOf ts ++ literalsOf us := List.filterMap_append

@[simp] theorem literalsOf_mark {m : Mark} (l : Leaf (.mark m)) : literalsOf (l.token :: ts) = literalsOf ts := rfl

@[simp] theorem literalsOf_name (l : Leaf .name) : literalsOf (l.token :: ts) = literalsOf ts := rfl

@[simp] theorem literalsOf_keyword {k : Keyword} (l : Leaf (.keyword k)) (htrue : k ≠ .kwTrue) (hfalse : k ≠ .kwFalse) :
    literalsOf (l.token :: ts) = literalsOf ts := by
  cases k <;> first | rfl | contradiction

@[simp] theorem literalsOf_binary {op : Binary} (l : Leaf op.terminal) : literalsOf (l.token :: ts) = literalsOf ts := by
  cases op with
  | compare r => cases r <;> rfl
  | _ => rfl

@[simp] theorem literalsOf_unary {op : Unary} (l : Leaf op.terminal) : literalsOf (l.token :: ts) = literalsOf ts := by
  cases op <;> rfl

end Tokens

namespace Derivation

@[simp] theorem literals_call (name : Leaf .name) (arguments : Option Node) :
    (callImage name arguments).literals = Node.literalsAll arguments.toList := by
  cases arguments <;> rfl

theorem literalsAll_reduceOption (before : List (Option Node)) (s : Option Node) :
    Node.literalsAll (before ++ [s]).reduceOption = Node.literalsAll before.reduceOption ++ Node.literalsAll s.toList := by
  rw [List.reduceOption_append, Node.literalsAll_append]
  cases s <;> rfl

/-- The literals of a program, from its root on, are the literal tokens in the order of the source. -/
theorem literals_image {s : Symbol} (d : Derivation s) : s.literals d.image = literalsOf d.tokens := by
  induction d with
  | start fs ih => exact (Node.literals_branch rfl _ _).trans ih
  | function func name lpar ps rpar body endfunc ihParams ih =>
      have hparams : (ps.image.getD (.branch .paramList func.line [])).literals = literalsOf ps.tokens := by
        rw [← ihParams]
        cases ps.image with
        | none => rfl
        | some n => exact (List.append_nil _).symm
      have hbody : Node.literals body.image = literalsOf body.tokens := ih
      change (ps.image.getD (.branch .paramList func.line [])).literals ++ (Node.literals body.image ++ []) = _
      rw [hparams, hbody]
      simp [tokens]
  | statements before s ihBefore ih =>
      rw [tokens, literalsOf_append, ← ihBefore, ← ih]
      exact literalsAll_reduceOption _ _
  | binary op left mark right ihLeft ih =>
      rw [tokens, literalsOf_append, literalsOf_binary, ← ihLeft, ← ih]
      exact (Node.literals_branch op.isLiteral_kind _ _).trans (by simp [Node.literalsAll, Symbol.literals])
  | unary op mark e ih =>
      rw [tokens, literalsOf_unary, ← ih]
      exact (Node.literals_branch op.isLiteral_kind _ _).trans (by simp [Node.literalsAll, Symbol.literals])
  | float number => rfl
  | int number => rfl
  | true word => rfl
  | false word => rfl
  | string text => rfl
  | _ =>
      simp_all [Symbol.literals, image, tokens, Node.branch, Node.leaf, Node.literals, Node.literalsAll,
        Kind.isLiteral]

end Derivation

/-- A program that can be read is derived from its tokens. -/
theorem exists_derivation {source : String} {tree : Node} (h : readProgram source = .ok tree) {ts : List Token}
    (hts : Lexes source ts) : ∃ d : Derivation .start, d.tokens = ts ∧ d.image = tree := by
  obtain ⟨us, ⟨s, hcuts⟩, hparse⟩ := (readProgram_eq_ok_iff source tree).1 h
  obtain ⟨s', hcuts'⟩ := hts
  rw [hcuts.unique hcuts']
  exact (Derivation.parse?_eq_some_iff us tree).1 hparse

theorem literals_of_readProgram {source : String} {tree : Node} (h : readProgram source = .ok tree) {ts : List Token}
    (hts : Lexes source ts) : tree.literals = literalsOf ts := by
  obtain ⟨d, rfl, rfl⟩ := exists_derivation h hts
  exact d.literals_image

/-! ### Literals that can be read -/

theorem Reader.Cuts.spells {s s' : Reader} {place : Place} {text : List Char} {ts : List Token}
    (h : s.Cuts place text ts s') : ∀ t ∈ ts, t.terminal.Spells t.text.toList := by
  induction h with
  | nil => nofun
  | filler _ _ ih => exact ih
  | @token s next s' place c rest terminal n ts hfirst hfeed hrest ih =>
      obtain ⟨text, after, htext, hlength, -, hspells, -⟩ := spells_of_first? hfirst
      rw [List.forall_mem_cons]
      refine ⟨?_, ih⟩
      rw [htext, ← hlength, tokenAt_append]
      exact (String.toList_ofList (l := text)).symm ▸ hspells

/-- A literal whose number, if it is a numeral, is there to be read. -/
structure Node.Legible (n : Node) : Prop where
  isLiteral : n.kind.isLiteral = true
  int : n.kind = .int → ∃ k : Nat, int? n.text = some (k : Int)
  digits : n.kind = .int → (leadingDigits n.text.toList).length = n.text.length
  float : n.kind = .float → ∃ x, float? n.text = some x

theorem legible_of_literal? {t : Token} {n : Node} (hspells : t.terminal.Spells t.text.toList)
    (h : t.literal? = some n) : n.Legible := by
  unfold Token.literal? at h
  split at h
  · rename_i hterminal
    rw [hterminal] at hspells
    cases h
    exact ⟨rfl, nofun, nofun, fun _ => float?_of_float hspells⟩
  · rename_i hterminal
    rw [hterminal] at hspells
    cases h
    exact ⟨rfl, fun _ => int?_of_digits hspells, fun _ => length_leadingDigits hspells, nofun⟩
  iterate 3
    · cases h
      exact ⟨rfl, nofun, nofun, nofun⟩
  · cases h

theorem legible_of_readProgram {source : String} {tree : Node} (h : readProgram source = .ok tree) :
    ∀ n ∈ tree.literals, n.Legible := by
  obtain ⟨ts, hts, -⟩ := (readProgram_eq_ok_iff source tree).1 h
  rw [literals_of_readProgram h hts]
  intro n hn
  obtain ⟨t, ht, hliteral⟩ := List.mem_filterMap.1 hn
  obtain ⟨s, hcuts⟩ := hts
  exact legible_of_literal? (hcuts.spells t ht) hliteral

end Rover
