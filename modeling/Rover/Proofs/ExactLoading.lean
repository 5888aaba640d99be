import Rover.Proofs.Literals

/-!
# What loading accepts

Loading goes through the functions in their order, and through the literals of each body in theirs. It stops at the first
function whose name is taken, or that holds an integer literal above the largest word or one of more digits than are
converted; if there is none, the functions are those of the tree, their literals valued. `loads_exactly` says so for every
program that can be read. The number of digits is a limit of its own: zeros by themselves are no large number.
-/

namespace Rover

open Reading

/-- The value of the text of a literal. -/
def Kind.denotes? (k : Kind) (text : String) : Option Value :=
  match k with
  | .int => (int? text).map .integer
  | .float => (float? text).map .ofFloat
  | .boolean => some (.boolean (text == "true"))
  | .string => some (.string text)
  | _ => none

namespace Node

mutual

/-- The tree in which every literal carries the value of its text. -/
def valued : Node → Node
  | ⟨kind, line, text, value, children⟩ => ⟨kind, line, text, kind.denotes? text <|> value, valuedAll children⟩

def valuedAll : List Node → List Node
  | [] => []
  | n :: ns => valued n :: valuedAll ns

end

/-- A literal that is no integer above the largest word. -/
def InRange (n : Node) : Prop := n.kind = .int → ∃ k : Int, k ≤ 2147483647 ∧ int? n.text = some k

/-- A literal that is no integer of more digits than are converted. -/
def Short (n : Node) : Prop := n.kind = .int → n.text.length ≤ maxDigits

theorem Legible.exists_value {n : Node} (h : n.Legible) : ∃ v, n.kind.denotes? n.text = some v := by
  cases hk : n.kind with
  | int =>
      obtain ⟨k, hread⟩ := h.int hk
      exact ⟨_, by rw [Kind.denotes?, hread, Option.map_some]⟩
  | float =>
      obtain ⟨x, hread⟩ := h.float hk
      exact ⟨_, by rw [Kind.denotes?, hread, Option.map_some]⟩
  | boolean => exact ⟨_, rfl⟩
  | string => exact ⟨_, rfl⟩
  | _ => exact absurd h.isLiteral (by simp [hk, Kind.isLiteral])

/-- Why a node that stands for an integer cannot be loaded, if it cannot. Its digits are counted before its value is known. -/
def refused? (n : Node) : Option LoadError :=
  if n.kind ≠ .int then none
  else if h : maxDigits < n.text.length then some (.oversize ⟨n.text.length, h⟩)
  else if (int? n.text).any (2147483647 < ·) then some (.literalRange n.text n.line)
  else none

/-- The error of the first literal that cannot be loaded, if there is one. -/
def refusal? (ls : List Node) : Option LoadError := ls.findSome? refused?

theorem refused?_of_not_int {n : Node} (hk : n.kind ≠ .int) : n.refused? = none := if_pos hk

theorem refused?_of_long {n : Node} (hk : n.kind = .int) (h : maxDigits < n.text.length) :
    n.refused? = some (.oversize ⟨n.text.length, h⟩) := by
  rw [refused?, if_neg (not_not.2 hk), dif_pos h]

theorem refused?_of_short {n : Node} (hk : n.kind = .int) (h : ¬ maxDigits < n.text.length) :
    n.refused? = if (int? n.text).any (2147483647 < ·) then some (.literalRange n.text n.line) else none := by
  rw [refused?, if_neg (not_not.2 hk), dif_neg h]

theorem refusal?_append (ls ms : List Node) : refusal? (ls ++ ms) = (refusal? ls).or (refusal? ms) := List.findSome?_append

theorem refusal?_singleton (n : Node) : refusal? [n] = n.refused? := by
  rw [refusal?, List.findSome?_cons]
  cases n.refused? <;> rfl

/-- A literal can be loaded exactly if it is short and in range; otherwise one of the two is the reason. -/
theorem Legible.refused?_cases {n : Node} (h : n.Legible) :
    n.refused? = none ∧ n.Short ∧ n.InRange ∨
      (∃ hlong : maxDigits < n.text.length, n.kind = .int ∧ n.refused? = some (.oversize ⟨n.text.length, hlong⟩)) ∨
      n.Short ∧ ¬ n.InRange ∧ n.refused? = some (.literalRange n.text n.line) := by
  by_cases hk : n.kind = .int
  · obtain ⟨k, hread⟩ := h.int hk
    by_cases hlong : maxDigits < n.text.length
    · exact .inr (.inl ⟨hlong, hk, refused?_of_long hk hlong⟩)
    · have hshort : n.Short := fun _ => Nat.not_lt.1 hlong
      rw [refused?_of_short hk hlong, hread]
      by_cases hlarge : (2147483647 : Int) < k
      · refine .inr (.inr ⟨hshort, ?_, if_pos (by simpa using hlarge)⟩)
        simpa [InRange, hk, hread] using hlarge
      · refine .inl ⟨if_neg (by simpa using hlarge), hshort, ?_⟩
        simpa [InRange, hk, hread] using hlarge
  · exact .inl ⟨refused?_of_not_int hk, fun hint => absurd hint hk, fun hint => absurd hint hk⟩

theorem constant?_int {n : Node} (hk : n.kind = .int) (h : n.Legible) :
    constant? n.kind n.line n.text = n.refused?.elim (.ok (n.kind.denotes? n.text)) .error := by
  obtain ⟨k, hread⟩ := h.int hk
  have hlength := h.digits hk
  by_cases hlong : maxDigits < n.text.length
  · have hint : Reading.int n.text = .error ⟨n.text.length, hlong⟩ := int_of_lt hlength hlong
    rw [refused?_of_long hk hlong, hk, constant?, hint]
    rfl
  · have hint : Reading.int n.text = .ok (some (k : Int)) := by
      rw [int_of_length_le (hlength ▸ Nat.not_lt.1 hlong), hread]
    rw [refused?_of_short hk hlong, hk, constant?, hint, hread, Kind.denotes?, hread]
    dsimp only [Except.mapError, bind, Except.bind]
    by_cases hlarge : (2147483647 : Int) < k
    · have hword : ¬ IsWord k := fun hword => absurd hword.2 (by omega)
      rw [if_neg hword, if_pos (by simpa using hlarge)]
      rfl
    · have hword : IsWord k := ⟨by omega, by omega⟩
      rw [if_pos hword, if_neg (by simpa using hlarge)]
      rfl

/-- What a node by itself contributes to the outcome. -/
theorem constant?_eq {n : Node} (h : n.kind.isLiteral = true → n.Legible) :
    constant? n.kind n.line n.text =
      (refusal? (if n.kind.isLiteral then [n] else [])).elim (.ok (n.kind.denotes? n.text)) .error := by
  obtain ⟨k, line, text, value, children⟩ := n
  cases k with
  | int => exact (constant?_int rfl (h rfl)).trans (by rw [← refusal?_singleton]; rfl)
  | float =>
      obtain ⟨x, hread⟩ := (h rfl).float rfl
      dsimp only at hread
      simp only [constant?, Kind.denotes?, hread]
      rfl
  | _ => rfl

mutual

theorem resolve_eq : (n : Node) → (∀ l ∈ n.literals, l.Legible) →
    n.resolve = (refusal? n.literals).elim (.ok n.valued) .error
  | ⟨kind, line, text, value, children⟩, h => by
    rw [literals, List.forall_mem_append] at h
    have hconstant := constant?_eq (n := ⟨kind, line, text, value, children⟩) fun hk => h.1 _ (by simp [hk])
    dsimp only at hconstant
    rw [resolve, literals, refusal?_append, hconstant, resolveAll_eq children h.2, valued]
    generalize refusal? (if kind.isLiteral then [_] else []) = own
    cases own <;> cases refusal? (literalsAll children) <;> rfl

theorem resolveAll_eq : (ns : List Node) → (∀ l ∈ literalsAll ns, l.Legible) →
    resolveAll ns = (refusal? (literalsAll ns)).elim (.ok (valuedAll ns)) .error
  | [], _ => rfl
  | n :: ns, h => by
    rw [literalsAll, List.forall_mem_append] at h
    rw [resolveAll, literalsAll, refusal?_append, resolve_eq n h.1, resolveAll_eq ns h.2, valuedAll]
    cases refusal? n.literals <;> cases refusal? (literalsAll ns) <;> rfl

end

theorem loads_of_refusal? {ls : List Node} (hlegible : ∀ l ∈ ls, l.Legible) (h : refusal? ls = none) :
    ∀ l ∈ ls, l.Short ∧ l.InRange := by
  intro l hl
  have hnone := List.findSome?_eq_none_iff.1 h l hl
  rcases (hlegible l hl).refused?_cases with ⟨-, hloads⟩ | ⟨_, -, hsome⟩ | ⟨-, -, hsome⟩
  · exact hloads
  · cases hsome.symm.trans hnone
  · cases hsome.symm.trans hnone

theorem first_of_refusal? {ls : List Node} (hlegible : ∀ l ∈ ls, l.Legible) {e : LoadError} (h : refusal? ls = some e) :
    ∃ before l after, ls = before ++ l :: after ∧ (∀ x ∈ before, x.Short ∧ x.InRange) ∧ l.refused? = some e := by
  obtain ⟨before, l, after, rfl, hl, hbefore⟩ := List.findSome?_eq_some_iff.1 h
  rw [List.forall_mem_append] at hlegible
  exact ⟨before, l, after, rfl, loads_of_refusal? hlegible.1 (List.findSome?_eq_none_iff.2 hbefore), hl⟩

end Node

/-- The function with the literals of its body valued. -/
def Function.valued (f : Function) : Function := { f with body := f.body.valued }

namespace Program

/-- The function that a node declares, as it stands in the tree. -/
def declared (n : Node) : Function :=
  match n.children with
  | params :: body :: _ => ⟨n.text, params.children.map param, body, n.line⟩
  | _ => ⟨n.text, [], n, n.line⟩

/-- Functions with distinct names, and with no integer literal above the largest word. -/
structure Fitting (fs : List Function) : Prop where
  distinct : (fs.map Function.name).Nodup
  inRange : ∀ f ∈ fs, ∀ l ∈ f.body.literals, l.InRange

/-- Functions that can be loaded: they fit, and no integer literal of theirs has too many digits. -/
structure Loadable (fs : List Function) : Prop extends Fitting fs where
  short : ∀ f ∈ fs, ∀ l ∈ f.body.literals, l.Short

/-- Why a function cannot be loaded after some others: its name is taken; or it is not, and of the literals of its body this
is the first that is out of range or has too many digits. One that has too many is refused for that, whatever its value. -/
inductive Refuses (before : List Function) (f : Function) : LoadError → Prop
  | duplicate : f.name ∈ before.map Function.name → Refuses before f (.duplicate f.name f.line)
  | literal {ls rs : List Node} {l : Node} : f.name ∉ before.map Function.name → f.body.literals = ls ++ l :: rs →
      (∀ x ∈ ls, x.Short ∧ x.InRange) → l.Short → ¬ l.InRange → Refuses before f (.literalRange l.text l.line)
  | oversize {ls rs : List Node} {l : Node} : f.name ∉ before.map Function.name → f.body.literals = ls ++ l :: rs →
      (∀ x ∈ ls, x.Short ∧ x.InRange) → l.kind = .int → (h : maxDigits < l.text.length) →
      Refuses before f (.oversize ⟨l.text.length, h⟩)

/-- The tokens of a function, from its first word to its last, and its node. -/
structure Declares (ts : List Token) (n : Node) : Prop where
  head : ∃ func name rest, ts = func :: name :: rest ∧ func.terminal = .keyword .kwFunc ∧ func.line = n.line ∧
    name.terminal = .name ∧ name.text = n.text
  kind_eq : n.kind = .function
  parts : ∃ params body, n.children = [params, body] ∧ declared n = ⟨n.text, params.children.map param, body, n.line⟩
  literals : (declared n).body.literals = literalsOf ts

/-! ### One function after others -/

section Define

variable {before after : List Function} {f : Function} {n : Node} {ts : List Token}

theorem Loadable.snoc (h : Loadable before) (hname : f.name ∉ before.map Function.name)
    (hloads : ∀ l ∈ f.body.literals, l.Short ∧ l.InRange) : Loadable (before ++ [f]) := by
  refine ⟨⟨?_, ?_⟩, ?_⟩
  · rw [List.map_append, List.map_singleton, List.nodup_append_comm, List.singleton_append, List.nodup_cons]
    exact ⟨hname, h.distinct⟩
  · rw [List.forall_mem_append, List.forall_mem_singleton]
    exact ⟨h.inRange, fun l hl => (hloads l hl).2⟩
  · rw [List.forall_mem_append, List.forall_mem_singleton]
    exact ⟨h.short, fun l hl => (hloads l hl).1⟩

/-- A new function whose literals are refused. -/
theorem Refuses.of_refused {ls rs : List Node} {l : Node} {e : LoadError} (hname : f.name ∉ before.map Function.name)
    (hsplit : f.body.literals = ls ++ l :: rs) (hls : ∀ x ∈ ls, x.Short ∧ x.InRange) (hl : l.Legible)
    (h : l.refused? = some e) : Refuses before f e := by
  rcases hl.refused?_cases with ⟨hnone, -⟩ | ⟨hlong, hk, hsome⟩ | ⟨hshort, hrange, hsome⟩
  · cases hnone.symm.trans h
  · cases hsome.symm.trans h
    exact .oversize hname hsplit hls hk hlong
  · cases hsome.symm.trans h
    exact .literal hname hsplit hls hshort hrange

/-- Functions of which one is refused cannot be loaded. -/
theorem Refuses.not_loadable {e : LoadError} (h : Refuses before f e) : ¬ Loadable (before ++ f :: after) := by
  rintro ⟨⟨hdistinct, hrange⟩, hshort⟩
  have hf : f ∈ before ++ f :: after := List.mem_append_right _ List.mem_cons_self
  cases h with
  | duplicate hname =>
      rw [List.map_append, List.map_cons, List.nodup_append] at hdistinct
      exact hdistinct.2.2 _ hname _ List.mem_cons_self rfl
  | @literal ls rs l hname hliterals hls _ hl =>
      exact hl (hrange f hf l (hliterals ▸ List.mem_append_right _ List.mem_cons_self))
  | @oversize ls rs l hname hliterals hls hk hlong =>
      exact Nat.not_le.2 hlong (hshort f hf l (hliterals ▸ List.mem_append_right _ List.mem_cons_self) hk)

theorem any_name (before : List Function) (name : String) :
    (before.map Function.valued).any (·.name == name) = true ↔ name ∈ before.map Function.name := by
  simp only [List.any_map, List.any_eq_true, Function.comp_apply, beq_iff_eq, List.mem_map]
  rfl

/-- A node is defined after functions that are loadable, or it is refused. -/
theorem define_cases (hn : Declares ts n) (hlegible : ∀ l ∈ literalsOf ts, l.Legible) (h : Loadable before) :
    Loadable (before ++ [declared n]) ∧
        define (before.map Function.valued) n = .ok ((before ++ [declared n]).map Function.valued) ∨
      ∃ e, Refuses before (declared n) e ∧ define (before.map Function.valued) n = .error e := by
  obtain ⟨params, body, hchildren, hdeclared⟩ := hn.parts
  have hliterals : body.literals = literalsOf ts := by rw [← hn.literals, hdeclared]
  rw [← hliterals] at hlegible
  rw [hdeclared, define, if_neg (not_not.2 hn.kind_eq)]
  by_cases hname : n.text ∈ before.map Function.name
  · rw [if_pos ((any_name before n.text).2 hname)]
    exact .inr ⟨_, .duplicate hname, rfl⟩
  · rw [if_neg (mt (any_name before n.text).1 hname), hchildren]
    dsimp only
    rw [body.resolve_eq hlegible]
    cases hrefusal : Node.refusal? body.literals with
    | none =>
        refine .inl ⟨h.snoc hname (Node.loads_of_refusal? hlegible hrefusal), ?_⟩
        rw [List.map_append]
        rfl
    | some e =>
        obtain ⟨ls, l, rs, hsplit, hls, hl⟩ := Node.first_of_refusal? hlegible hrefusal
        have hmem : l ∈ body.literals := hsplit ▸ List.mem_append_right _ List.mem_cons_self
        exact .inr ⟨e, .of_refused hname hsplit hls (hlegible l hmem) hl, rfl⟩

/-- All nodes are defined after functions that are loadable, or one of them is the first to be refused. -/
theorem foldlM_define_cases {pieces : List (List Token)} {ns : List Node} (hns : List.Forall₂ Declares pieces ns)
    (hlegible : ∀ l ∈ literalsOf pieces.flatten, l.Legible) (h : Loadable before) :
    Loadable (before ++ ns.map declared) ∧
        ns.foldlM define (before.map Function.valued) = .ok ((before ++ ns.map declared).map Function.valued) ∨
      ∃ e mid f after, ns.map declared = mid ++ f :: after ∧ Loadable (before ++ mid) ∧ Refuses (before ++ mid) f e ∧
        ns.foldlM define (before.map Function.valued) = .error e := by
  -- the functions before the node grow by its own at each step
  induction hns generalizing before with
  | nil => exact .inl ⟨by rwa [List.map_nil, List.append_nil], by rw [List.map_nil, List.append_nil]; rfl⟩
  | @cons ts n pieces ns hn hns ih =>
      rw [List.flatten_cons, literalsOf_append, List.forall_mem_append] at hlegible
      rw [List.foldlM_cons, List.map_cons]
      rcases define_cases hn hlegible.1 h with ⟨hloadable, hdefine⟩ | ⟨e, hrefuses, hdefine⟩
      · rw [hdefine]
        have hsplit : ∀ fs, before ++ declared n :: fs = before ++ [declared n] ++ fs := fun fs => by simp
        rcases ih hlegible.2 hloadable with ⟨hall, hfold⟩ | ⟨e, mid, f, after, hns, hmid, hrefuses, hfold⟩
        · rw [hsplit]
          exact .inl ⟨hall, hfold⟩
        · rw [← hsplit] at hmid hrefuses
          exact .inr ⟨e, declared n :: mid, f, after, by rw [hns, List.cons_append], hmid, hrefuses, hfold⟩
      · refine .inr ⟨e, [], declared n, ns.map declared, rfl, by rwa [List.append_nil], by rwa [List.append_nil], ?_⟩
        rw [hdefine]
        rfl

end Define

/-! ### The functions of a source -/

theorem literalsOf_params {s : Symbol} (d : Derivation s) (hs : s ∈ [Symbol.params, .paramList, .param]) :
    literalsOf d.tokens = [] := by
  induction d with
  | noParams => rfl
  | params ps ih => exact ih (by simp)
  | firstParam p ih => exact ih (by simp)
  | nextParam before comma p ihBefore ih =>
      rw [Derivation.tokens, literalsOf_append, literalsOf_mark, ihBefore (by simp), ih (by simp), List.append_nil]
  | paramValue name => rfl
  | paramRef ampersand name => rfl
  | _ => simp at hs

theorem declares_function (func : Leaf (.keyword .kwFunc)) (name : Leaf .name) (lpar : Leaf (.mark .lpar))
    (params : Derivation .params) (rpar : Leaf (.mark .rpar)) (body : Derivation .block)
    (endfunc : Leaf (.keyword .kwEndfunc)) :
    Declares (Derivation.function func name lpar params rpar body endfunc).tokens
      (Derivation.function func name lpar params rpar body endfunc).image := by
  refine ⟨⟨_, _, _, rfl, rfl, rfl, rfl, rfl⟩, rfl, ⟨_, _, rfl, rfl⟩, ?_⟩
  have hbody : Node.literals body.image = literalsOf body.tokens := body.literals_image
  change Node.literals body.image = _
  rw [hbody]
  simp [Derivation.tokens, literalsOf_params]

theorem exists_pieces : (fs : Derivation .functions) → ∃ pieces, fs.tokens = pieces.flatten ∧
    List.Forall₂ Declares pieces fs.image
  | .noFunctions => ⟨[], rfl, .nil⟩
  | .functions before (.function func name lpar params rpar body endfunc) => by
    obtain ⟨pieces, htokens, hdeclares⟩ := exists_pieces before
    refine ⟨pieces ++ [_], ?_, List.rel_append hdeclares
      (.cons (declares_function func name lpar params rpar body endfunc) .nil)⟩
    rw [List.flatten_append, List.flatten_singleton, ← htokens]
    rfl

theorem pieces_of_readProgram {source : String} {tree : Node} (h : readProgram source = .ok tree) {ts : List Token}
    (hts : Lexes source ts) :
    tree.kind = .functionList ∧ ∃ pieces, ts = pieces.flatten ∧ List.Forall₂ Declares pieces tree.children := by
  obtain ⟨d, rfl, rfl⟩ := exists_derivation h hts
  cases d with
  | start fs => exact ⟨rfl, exists_pieces fs⟩

/-- The literals of the bodies, function after function. -/
theorem flatMap_literals {pieces : List (List Token)} {ns : List Node} (h : List.Forall₂ Declares pieces ns) :
    (ns.map declared).flatMap (·.body.literals) = literalsOf pieces.flatten := by
  induction h with
  | nil => rfl
  | cons hn _ ih => rw [List.map_cons, List.flatMap_cons, List.flatten_cons, literalsOf_append, ih, hn.literals]

/-- Loading goes through, or stops at the first function that cannot be loaded. -/
theorem ofTree_cases {source : String} {tree : Node} (h : readProgram source = .ok tree) :
    Loadable (tree.children.map declared) ∧ ofTree tree = .ok ⟨(tree.children.map declared).map Function.valued⟩ ∨
      ∃ e before f after, tree.children.map declared = before ++ f :: after ∧ Loadable before ∧ Refuses before f e ∧
        ofTree tree = .error e := by
  obtain ⟨ts, hts, -⟩ := (readProgram_eq_ok_iff source tree).1 h
  obtain ⟨hkind, pieces, rfl, hdeclares⟩ := pieces_of_readProgram h hts
  have hlegible : ∀ l ∈ literalsOf pieces.flatten, l.Legible := by
    rw [← literals_of_readProgram h hts]
    exact legible_of_readProgram h
  rw [ofTree, if_neg (not_not.2 hkind)]
  have hnone : Loadable [] := ⟨⟨List.nodup_nil, by simp⟩, by simp⟩
  rcases foldlM_define_cases hdeclares hlegible hnone with
    ⟨hloadable, hfold⟩ | ⟨e, before, f, after, hsplit, hloadable, hrefuses, hfold⟩
  · rw [List.map_nil, List.nil_append] at hfold
    rw [hfold]
    exact .inl ⟨hloadable, rfl⟩
  · rw [List.map_nil] at hfold
    rw [hfold]
    exact .inr ⟨e, before, f, after, hsplit, hloadable, hrefuses, rfl⟩

/-- A program that can be read is the sequence of its functions, and the literals of their bodies are those of the source in
their order. It is loaded if and only if the names are distinct, every integer literal fits in a word and none has more
digits than are converted; then the functions are those of the tree, with the value of its text in every literal. Otherwise the
error is that of the first function that cannot be loaded after those before it. -/
theorem loads_exactly {source : String} {tree : Node} (h : readProgram source = .ok tree) :
    (∀ ts, Lexes source ts → ∃ pieces, ts = pieces.flatten ∧ List.Forall₂ Declares pieces tree.children) ∧
      ((∃ p, ofTree tree = .ok p) ↔ Loadable (tree.children.map declared)) ∧
      (∀ p, ofTree tree = .ok p → p.functions = (tree.children.map declared).map Function.valued ∧
        ∀ f ∈ tree.children.map declared, ∀ l ∈ f.body.literals, ∃ v, l.kind.denotes? l.text = some v) ∧
      ∀ e, ofTree tree = .error e → ∃ before f after, tree.children.map declared = before ++ f :: after ∧
        Loadable before ∧ Refuses before f e := by
  have hlegible : ∀ f ∈ tree.children.map declared, ∀ l ∈ f.body.literals, l.Legible := by
    obtain ⟨ts, hts, -⟩ := (readProgram_eq_ok_iff source tree).1 h
    obtain ⟨-, pieces, rfl, hdeclares⟩ := pieces_of_readProgram h hts
    intro f hf l hl
    refine legible_of_readProgram h l ?_
    rw [literals_of_readProgram h hts, ← flatMap_literals hdeclares]
    exact List.mem_flatMap.2 ⟨f, hf, hl⟩
  refine ⟨fun ts hts => (pieces_of_readProgram h hts).2, ?_⟩
  rcases ofTree_cases h with ⟨hloadable, hok⟩ | ⟨e, before, f, after, hsplit, hbefore, hrefuses, herror⟩
  · refine ⟨iff_of_true ⟨_, hok⟩ hloadable, fun p hp => ?_, fun e he => ?_⟩
    · cases hok.symm.trans hp
      exact ⟨rfl, fun f hf l hl => (hlegible f hf l hl).exists_value⟩
    · cases hok.symm.trans he
  · refine ⟨iff_of_false ?_ ?_, fun p hp => ?_, fun e' he => ?_⟩
    · rintro ⟨p, hp⟩
      cases herror.symm.trans hp
    · rw [hsplit]
      exact hrefuses.not_loadable
    · cases herror.symm.trans hp
    · cases herror.symm.trans he
      exact ⟨before, f, after, hsplit, hbefore, hrefuses⟩

/-- A function with an argument that is out of range before another one of its name. -/
theorem loads_exactly_overfull : ∃ (tree : Node) (before after : List Function) (f : Function),
    readProgram "func f() x = g(1, 2147483648); endfunc\nfunc f() endfunc" = .ok tree ∧
      tree.children.map declared = before ++ f :: after ∧ Loadable before ∧
      Refuses before f (.literalRange "2147483648" 1) := by
  have hload : ((readProgram "func f() x = g(1, 2147483648); endfunc\nfunc f() endfunc").toOption.map
      fun tree => (ofTree tree).map fun _ => ()) = some (.error (.literalRange "2147483648" 1)) := by decide +kernel
  cases hread : readProgram "func f() x = g(1, 2147483648); endfunc\nfunc f() endfunc" with
  | error e => simp [hread, Except.toOption] at hload
  | ok tree =>
      have herror : ofTree tree = .error (.literalRange "2147483648" 1) := by
        cases hof : ofTree tree <;> simp_all [Except.toOption, Except.map]
      obtain ⟨-, -, -, herrors⟩ := loads_exactly hread
      obtain ⟨before, f, after, hsplit, hloadable, hrefuses⟩ := herrors _ herror
      exact ⟨tree, before, after, f, rfl, hsplit, hloadable, hrefuses⟩

/-! ### Many zeros -/

/-- Tokens of the same terminals and texts have the same literals but for the lines. -/
theorem map_literalsOf {ts us : List Token} (h : List.Forall₂ (Token.Alike (fun _ _ => True) Eq) ts us) :
    (literalsOf us).map (fun l => (l.kind, l.text)) = (literalsOf ts).map fun l => (l.kind, l.text) := by
  induction h with
  | nil => rfl
  | @cons t u ts us htu _ ih =>
      have hliteral : u.literal?.map (fun l => (l.kind, l.text)) = t.literal?.map fun l => (l.kind, l.text) := by
        rw [Token.literal?, Token.literal?, htu.terminal_eq, ← htu.text]
        split <;> rfl
      simp only [literalsOf, List.map_filterMap] at ih ⊢
      rw [List.filterMap_cons, List.filterMap_cons, hliteral, ih]

theorem eq_of_singleton_eq {α : Type} {a b : α} {xs ys : List α} (h : [a] = xs ++ b :: ys) : xs = [] ∧ a = b := by
  cases xs with
  | nil => exact ⟨rfl, List.head_eq_of_cons_eq h⟩
  | cons x xs => simp at h

namespace Zeros

/-- A numeral of zeros alone. -/
def numeral (n : Nat) : String := String.ofList (List.replicate n '0')

/-- The tokens of a function that returns an integer. -/
def tokens (digits : String) : List Token :=
  [⟨.keyword .kwFunc, "func", 0, 0⟩, ⟨.name, "f", 0, 0⟩, ⟨.mark .lpar, "(", 0, 0⟩, ⟨.mark .rpar, ")", 0, 0⟩,
    ⟨.keyword .kwReturn, "return", 0, 0⟩, ⟨.int, digits, 0, 0⟩, ⟨.mark .semicolon, ";", 0, 0⟩,
    ⟨.keyword .kwEndfunc, "endfunc", 0, 0⟩]

theorem isDigits_numeral (n : Nat) : Lexeme.IsDigits (numeral (n + 1)).toList := by
  rw [numeral, String.toList_ofList]
  refine ⟨by simp, fun c hc => ?_⟩
  rw [List.eq_of_mem_replicate hc]
  decide

theorem int?_numeral (n : Nat) : int? (numeral (n + 1)) = some 0 := by
  have hplain : plainChar '0' = '0' := by decide
  have hall : (List.replicate (n + 1) '0').all isPlainDigit = true := by
    rw [List.all_eq_true]
    intro c hc
    rw [List.eq_of_mem_replicate hc]
    decide
  rw [int?, plain?_eq_map (isDigits_numeral n).numeralPart, numeral, String.toList_ofList, List.map_replicate, hplain,
    Option.bind_some, plainInt?, List.replicate_succ, sign_of_head (by decide), ← List.replicate_succ]
  dsimp only
  rw [if_pos ⟨by simp, hall⟩, natOf_replicate]
  rfl

theorem spelled_tokens {digits : String} (h : Lexeme.IsDigits digits.toList) : ∀ t ∈ tokens digits, t.Spelled := by
  simp only [tokens, List.forall_mem_cons, List.not_mem_nil, false_implies, implies_true, and_true]
  exact ⟨⟨rfl, nofun⟩, ⟨⟨'f', [], rfl, by decide, nofun⟩, fun _ k => by cases k <;> decide⟩, ⟨rfl, nofun⟩, ⟨rfl, nofun⟩,
    ⟨rfl, nofun⟩, ⟨h, nofun⟩, ⟨rfl, nofun⟩, ⟨rfl, nofun⟩⟩

theorem spaced_tokens (digits : String) : spaced (tokens digits) = "func f ( ) return " ++ digits ++ " ; endfunc" := by
  apply String.toList_inj.1
  simp [spaced, tokens]

/-- The program that returns an integer has one function with one literal. -/
theorem exists_tree {digits : String} (h : Lexeme.IsDigits digits.toList) :
    ∃ (tree : Node) (f : Function) (l : Node), readProgram ("func f ( ) return " ++ digits ++ " ; endfunc") = .ok tree ∧
      tree.children.map declared = [f] ∧ f.body.literals = [l] ∧ l.kind = .int ∧ l.text = digits := by
  have hparse : parse? (tokens digits) = some _ := rfl
  obtain ⟨ts, tree, hlexes, hread, halike, htree⟩ := readProgram_spaced hparse (spelled_tokens h)
  obtain ⟨-, pieces, rfl, hdeclares⟩ := pieces_of_readProgram hread hlexes
  have hliterals := map_literalsOf halike
  rw [← flatMap_literals hdeclares] at hliterals
  rw [spaced_tokens] at hread
  obtain ⟨-, -, hchildren⟩ := htree
  obtain ⟨n, hn⟩ := List.length_eq_one_iff.1 hchildren.length_eq.symm
  rw [hn, List.map_singleton, List.flatMap_singleton] at hliterals
  obtain ⟨l, hl, hpair⟩ := List.map_eq_singleton_iff.1 hliterals
  exact ⟨_, declared n, l, hread, by rw [hn]; rfl, hl, congrArg Prod.fst hpair, congrArg Prod.snd hpair⟩

end Zeros

/-- Zeros denote zero, which is in range, but more of them than are converted cannot be loaded. -/
theorem many_zeros_refused : ∃ tree, readProgram ("func f ( ) return " ++ Zeros.numeral 4301 ++ " ; endfunc") = .ok tree ∧
    Fitting (tree.children.map declared) ∧ ofTree tree = .error (.oversize ⟨4301, by decide⟩) := by
  obtain ⟨tree, f, l, hread, hfunctions, hliterals, hk, htext⟩ := Zeros.exists_tree (Zeros.isDigits_numeral 4300)
  have hrange : l.InRange := fun _ => ⟨0, by decide, htext ▸ Zeros.int?_numeral 4300⟩
  have hlength : l.text.length = 4301 := by rw [htext, Zeros.numeral, String.length_ofList, List.length_replicate]
  refine ⟨tree, hread, ?_, ?_⟩
  · rw [hfunctions]
    refine ⟨List.nodup_singleton _, ?_⟩
    rw [List.forall_mem_singleton, hliterals, List.forall_mem_singleton]
    exact hrange
  · rcases ofTree_cases hread with ⟨hloadable, -⟩ | ⟨e, before, g, after, hsplit, -, hrefuses, herror⟩
    · have hshort := hloadable.short f (by simp [hfunctions]) l (by simp [hliterals]) hk
      rw [hlength] at hshort
      exact absurd hshort (by decide)
    · rw [herror]
      rw [hfunctions] at hsplit
      obtain ⟨rfl, rfl⟩ := eq_of_singleton_eq hsplit
      cases hrefuses with
      | duplicate hname => cases hname
      | literal _ hsplit _ _ hout =>
          rw [hliterals] at hsplit
          exact absurd ((eq_of_singleton_eq hsplit).2 ▸ hrange) hout
      | oversize _ hsplit _ _ hlong =>
          rw [hliterals] at hsplit
          obtain ⟨rfl, rfl⟩ := eq_of_singleton_eq hsplit
          simp only [hlength]

end Program

end Rover
