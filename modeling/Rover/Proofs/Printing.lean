import Rover.Proofs.Cutting

/-!
# Printing a program and reading it again

A printer for program trees, and what it is for: the tree that is read from a printed program is the one that was printed,
but for the lines (`readProgram_print`). Which trees are printed well is said by their shape (`Node.Shaped`), one constructor for
each way to put a tree together.

The printer writes a list of words. For a tree of the right shape a derivation is built whose tokens are spelled like these
words and which denotes the tree, so that what is left is that the words are found again in the text.
-/

namespace Rover

/-! ### String literals -/

namespace Escape

/-- How a character is written between quotes. -/
def escape (c : Char) : List Char :=
  if c = '\n' then ['\\', 'n'] else if c = '\\' ∨ c = '"' then ['\\', c] else [c]

def encode (cs : List Char) : List Char := cs.flatMap escape

theorem decode_cons_of_ne {c : Char} (h : c ≠ '\\') (cs : List Char) : decode (c :: cs) = c :: decode cs := by
  cases cs with
  | nil => rfl
  | cons d cs => rw [decode, if_neg h]

theorem decode_escape (c : Char) (cs : List Char) : decode (escape c ++ cs) = c :: decode cs := by
  unfold escape
  split_ifs with hnewline hescaped
  · subst hnewline
    rfl
  · rcases hescaped with rfl | rfl <;> rfl
  · exact decode_cons_of_ne (fun hc => hescaped (.inl hc)) cs

theorem decode_encode (cs : List Char) : decode (encode cs) = cs := by
  induction cs with
  | nil => rfl
  | cons c cs ih => rw [encode, List.flatMap_cons, decode_escape, ← encode, ih]

theorem isContent_encode (cs : List Char) : Lexeme.IsContent (encode cs) := by
  induction cs with
  | nil => exact .nil
  | cons c cs ih =>
      rw [encode, List.flatMap_cons, escape]
      split_ifs with hnewline hescaped
      · exact .escape (by decide) ih
      · exact .escape hnewline ih
      · exact .plain (fun hc => hescaped (.inr hc)) (fun hc => hescaped (.inl hc)) hnewline ih

end Escape

/-! ### The printer -/

namespace Kind

/-- The operator of a node with two operands. -/
def binary? : Kind → Option Binary
  | .or => some .or
  | .and => some .and
  | .relational op => some (.compare op)
  | .arithmetic .add => some .add
  | .arithmetic .sub => some .sub
  | .arithmetic .mul => some .mul
  | .arithmetic .div => some .div
  | .arithmetic .mod => some .mod
  | _ => none

/-- The operator of a node with one operand. -/
def unary? : Kind → Option Unary
  | .not => some .not
  | .arithmetic .sub => some .neg
  | .arithmetic .add => some .pos
  | _ => none

end Kind

/-- The spelling of a keyword or a mark. -/
def Terminal.word : Terminal → String
  | .keyword k => k.spelling
  | .mark m => m.spelling
  | _ => ""

namespace Node

def stringWord (text : String) : String := String.ofList ('"' :: (Escape.encode text.toList ++ ['"']))

/-- Words in parentheses, if these are needed. -/
def enclosed (needed : Bool) (words : List String) : List String := if needed then "(" :: words ++ [")"] else words

mutual

/-- The words of an expression at a place where only operators of at least the level `least` can stand bare. -/
def expressionWords (least : Nat) : Node → List String
  | ⟨.call, _, _, _, [⟨_, _, name, _, _⟩, ⟨_, _, _, _, arguments⟩]⟩ => [name, "("] ++ argumentWords arguments ++ [")"]
  | ⟨kind, _, _, _, [operand]⟩ => match kind.unary? with
    | some op => op.terminal.word :: expressionWords 5 operand
    | none => []
  | ⟨kind, _, _, _, [left, right]⟩ => match kind.binary? with
    | some op => enclosed (op.level < least)
        (expressionWords op.leftLevel left ++ op.terminal.word :: expressionWords (op.level + 1) right)
    | none => []
  | ⟨.string, _, text, _, _⟩ => [stringWord text]
  | ⟨_, _, text, _, _⟩ => [text]

def argumentWords : List Node → List String
  | [] => []
  | e :: es => expressionWords 0 e ++ moreArgumentWords es

def moreArgumentWords : List Node → List String
  | [] => []
  | e :: es => "," :: expressionWords 0 e ++ moreArgumentWords es

end

mutual

def statementWords : Node → List String
  | ⟨.assign, _, _, _, [⟨_, _, name, _, _⟩, e]⟩ => [name, "="] ++ expressionWords 0 e ++ [";"]
  | ⟨.ifElse, _, _, _, [condition, ⟨_, _, _, _, body⟩]⟩ =>
    "if" :: expressionWords 0 condition ++ "then" :: blockWords body ++ ["endif"]
  | ⟨.ifElse, _, _, _, [condition, ⟨_, _, _, _, body⟩, ⟨_, _, _, _, other⟩]⟩ =>
    "if" :: expressionWords 0 condition ++ "then" :: blockWords body ++ "else" :: blockWords other ++ ["endif"]
  | ⟨.whileDo, _, _, _, [condition, ⟨_, _, _, _, body⟩]⟩ =>
    "while" :: expressionWords 0 condition ++ "do" :: blockWords body ++ ["endwhile"]
  | ⟨.ret, _, _, _, []⟩ => ["return", ";"]
  | ⟨.ret, _, _, _, [e]⟩ => "return" :: expressionWords 0 e ++ [";"]
  | ⟨.read, _, _, _, [⟨_, _, name, _, _⟩]⟩ => ["read", name, ";"]
  | ⟨.write, _, _, _, [e]⟩ => "write" :: expressionWords 0 e ++ [";"]
  | call => expressionWords 0 call ++ [";"]

def blockWords : List Node → List String
  | [] => []
  | s :: ss => statementWords s ++ blockWords ss

end

def paramWords : Node → List String
  | ⟨.paramRef, _, name, _, _⟩ => ["&", name]
  | ⟨_, _, name, _, _⟩ => [name]

def paramsWords : List Node → List String
  | [] => []
  | p :: ps => p.paramWords ++ ps.flatMap fun p => "," :: p.paramWords

def functionWords : Node → List String
  | ⟨_, _, name, _, [⟨_, _, _, _, params⟩, ⟨_, _, _, _, body⟩]⟩ =>
    ["func", name, "("] ++ paramsWords params ++ ")" :: blockWords body ++ ["endfunc"]
  | _ => []

/-- The text of a program: its words with blanks between them. -/
def print (program : Node) : String := " ".intercalate (program.children.flatMap functionWords)

/-- The tree without its lines. -/
def eraseLines (n : Node) : Node := n.mapLines fun _ => 0

end Node

/-! ### The shape of a program tree -/

/-- A text that can be a name everywhere. -/
structure IsIdentifier (text : String) : Prop where
  isName : Lexeme.IsName text.toList
  not_keyword : ∀ k : Keyword, k.spelling ≠ text

/-- The parts that a program tree is made of. -/
inductive Part where
  | call
  | expression
  | statement
  | block
  | param
  | function
  | program

namespace Node

/-- The trees of programs and of their parts. -/
inductive Shaped : Part → Node → Prop
  | int {line : Int} {text : String} (h : Lexeme.IsDigits text.toList) : Shaped .expression (.leaf .int line text)
  | float {line : Int} {text : String} (h : Lexeme.IsFloat text.toList) : Shaped .expression (.leaf .float line text)
  | boolean {line : Int} (b : Bool) : Shaped .expression (.leaf .boolean line (if b then "true" else "false"))
  | string {line : Int} (text : String) : Shaped .expression (.leaf .string line text)
  | var {line : Int} {name : String} (h : IsIdentifier name) : Shaped .expression (.leaf .id line name)
  | call {line nameLine argumentsLine : Int} {name : String} {arguments : List Node} (hname : IsIdentifier name)
      (harguments : ∀ e ∈ arguments, Shaped .expression e) :
      Shaped .call (.branch .call line [.leaf .id nameLine name, .branch .argList argumentsLine arguments])
  | callExpression {n : Node} (h : Shaped .call n) : Shaped .expression n
  | unary {line : Int} (op : Unary) {e : Node} (h : Shaped .expression e) : Shaped .expression (.branch op.kind line [e])
  | binary {line : Int} (op : Binary) {left right : Node} (hleft : Shaped .expression left)
      (hright : Shaped .expression right) : Shaped .expression (.branch op.kind line [left, right])
  | assign {line nameLine : Int} {name : String} {e : Node} (hname : IsIdentifier name) (he : Shaped .expression e) :
      Shaped .statement (.branch .assign line [.leaf .id nameLine name, e])
  | ifElse {line : Int} {condition body : Node} {other : Option Node} (hcondition : Shaped .expression condition)
      (hbody : Shaped .block body) (hother : ∀ b ∈ other, Shaped .block b) :
      Shaped .statement (.branch .ifElse line ([condition, body] ++ other.toList))
  | whileDo {line : Int} {condition body : Node} (hcondition : Shaped .expression condition) (hbody : Shaped .block body) :
      Shaped .statement (.branch .whileDo line [condition, body])
  | ret {line : Int} {result : Option Node} (h : ∀ e ∈ result, Shaped .expression e) :
      Shaped .statement (.branch .ret line result.toList)
  | read {line nameLine : Int} {name : String} (h : IsIdentifier name) :
      Shaped .statement (.branch .read line [.leaf .id nameLine name])
  | write {line : Int} {e : Node} (h : Shaped .expression e) : Shaped .statement (.branch .write line [e])
  | callStatement {n : Node} (h : Shaped .call n) : Shaped .statement n
  | block {line : Int} {statements : List Node} (h : ∀ s ∈ statements, Shaped .statement s) :
      Shaped .block (.branch .block line statements)
  | paramValue {line : Int} {name : String} (h : IsIdentifier name) : Shaped .param (.leaf .paramValue line name)
  | paramRef {line : Int} {name : String} (h : IsIdentifier name) : Shaped .param (.leaf .paramRef line name)
  | function {line paramsLine : Int} {name : String} {params : List Node} {body : Node} (hname : IsIdentifier name)
      (hparams : ∀ p ∈ params, Shaped .param p) (hbody : Shaped .block body) :
      Shaped .function ⟨.function, line, name, none, [.branch .paramList paramsLine params, body]⟩
  | program {line : Int} {functions : List Node} (h : ∀ f ∈ functions, Shaped .function f) :
      Shaped .program (.branch .functionList line functions)

theorem mapLinesAll_eq_map (f : Int → Int) (ns : List Node) : mapLinesAll f ns = ns.map (mapLines f) := by
  induction ns with
  | nil => rfl
  | cons n ns ih => rw [mapLinesAll, ih, List.map_cons]

theorem eraseLines_congr (kind : Kind) (line line' : Int) (text : String) {children children' : List Node}
    (h : children.map eraseLines = children'.map eraseLines) :
    eraseLines ⟨kind, line, text, none, children⟩ = eraseLines ⟨kind, line', text, none, children'⟩ := by
  rw [eraseLines, mapLines, mapLinesAll_eq_map, eraseLines, mapLines, mapLinesAll_eq_map]
  exact congrArg (Node.mk kind 0 text none) h

theorem eraseLines_leaf (kind : Kind) (line : Int) (text : String) :
    (leaf kind line text).eraseLines = leaf kind 0 text := rfl

theorem expressionWords_unary (least : Nat) (op : Unary) (line : Int) (e : Node) :
    expressionWords least (.branch op.kind line [e]) = op.terminal.word :: expressionWords 5 e := by
  cases op <;> rfl

theorem expressionWords_binary (least : Nat) (op : Binary) (line : Int) (left right : Node) :
    expressionWords least (.branch op.kind line [left, right]) = enclosed (op.level < least)
      (expressionWords op.leftLevel left ++ op.terminal.word :: expressionWords (op.level + 1) right) := by
  cases op with
  | compare op => cases op <;> rfl
  | _ => rfl

theorem moreArgumentWords_eq_flatMap (es : List Node) :
    moreArgumentWords es = es.flatMap fun e => "," :: expressionWords 0 e := by
  induction es with
  | nil => rfl
  | cons e es ih => rw [moreArgumentWords, ih, List.flatMap_cons]

theorem blockWords_eq_flatMap (ss : List Node) : blockWords ss = ss.flatMap statementWords := by
  induction ss with
  | nil => rfl
  | cons s ss ih => rw [blockWords, ih, List.flatMap_cons]

end Node

/-! ### Tokens of given words -/

/-- Tokens that are spelled like given words. -/
def Writes (ts : List Token) (words : List String) : Prop := List.Forall₂ (fun t w => t.Spelled ∧ t.text = w) ts words

namespace Writes

variable {ts us : List Token} {ws vs : List String}

theorem append (h : Writes ts ws) (h' : Writes us vs) : Writes (ts ++ us) (ws ++ vs) := List.rel_append h h'

theorem spelled (h : Writes ts ws) : ∀ t ∈ ts, t.Spelled := by
  induction h with
  | nil => exact nofun
  | cons ht _ ih => exact List.forall_mem_cons.2 ⟨ht.1, ih⟩

theorem map_text (h : Writes ts ws) : ts.map Token.text = ws := by
  induction h with
  | nil => rfl
  | cons ht _ ih => rw [List.map_cons, ht.2, ih]

end Writes

namespace Leaf

/-- A keyword or a mark, on no line. -/
def word (terminal : Terminal) : Leaf terminal := ⟨terminal.word, 0, 0⟩

theorem writes {terminal : Terminal} {text : String} (hspells : terminal.Spells text.toList)
    (hname : terminal = .name → ∀ k : Keyword, k.spelling ≠ text) : Writes [(⟨text, 0, 0⟩ : Leaf terminal).token] [text] :=
  .cons ⟨⟨hspells, hname⟩, rfl⟩ .nil

theorem writes_keyword (k : Keyword) : Writes [(word (.keyword k)).token] [k.spelling] := writes rfl nofun

theorem writes_mark (m : Mark) : Writes [(word (.mark m)).token] [m.spelling] := writes rfl nofun

theorem writes_name {name : String} (h : IsIdentifier name) : Writes [(⟨name, 0, 0⟩ : Leaf .name).token] [name] :=
  writes h.isName fun _ => h.not_keyword

theorem writes_unary (op : Unary) : Writes [(word op.terminal).token] [op.terminal.word] := by
  cases op <;> exact writes rfl nofun

theorem writes_binary (op : Binary) : Writes [(word op.terminal).token] [op.terminal.word] := by
  cases op with
  | compare op => cases op <;> exact writes rfl nofun
  | _ => exact writes rfl nofun

end Leaf

/-! ### A derivation for each tree -/

/-- A derivation whose tokens are spelled like the words of a part and that denotes it. -/
def Printed : Part → Node → Prop
  | .call, n => ∃ (name : Leaf .name) (es : Derivation .args),
    (∀ least, Writes ([name.token, (Leaf.word (.mark .lpar)).token] ++ es.tokens ++ [(Leaf.word (.mark .rpar)).token])
      (n.expressionWords least)) ∧
    (Derivation.callImage name es.image).eraseLines = n.eraseLines ∧ n.statementWords = n.expressionWords 0 ++ [";"]
  | .expression, n => ∀ least ≤ 5, ∃ d : Derivation (.expression least),
    Writes d.tokens (n.expressionWords least) ∧ d.image.eraseLines = n.eraseLines
  | .statement, n => ∃ (d : Derivation .statement) (n' : Node),
    Writes d.tokens n.statementWords ∧ d.image = some n' ∧ n'.eraseLines = n.eraseLines
  | .block, n => ∃ d : Derivation .block, Writes d.tokens (Node.blockWords n.children) ∧ d.image.eraseLines = n.eraseLines
  | .param, n => ∃ d : Derivation .param, Writes d.tokens n.paramWords ∧ d.image.eraseLines = n.eraseLines
  | .function, n => ∃ d : Derivation .function, Writes d.tokens n.functionWords ∧ d.image.eraseLines = n.eraseLines
  | .program, n => ∃ d : Derivation .start,
    Writes d.tokens (n.children.flatMap Node.functionWords) ∧ d.image.eraseLines = n.eraseLines

namespace Printed

/-- An atom can stand everywhere. -/
theorem of_atom {n : Node} (a : Derivation .atom) (hwords : ∀ least, Writes a.tokens (n.expressionWords least))
    (himage : a.image.eraseLines = n.eraseLines) : Printed .expression n := by
  intro least hleast
  refine ⟨(Derivation.atom a).lift hleast, ?_, ?_⟩
  · rw [Derivation.tokens_lift]
    exact hwords least
  · rw [Derivation.image_lift]
    exact himage

theorem unary {n : Node} {line : Int} (op : Unary) (h : Printed .expression n) :
    Printed .expression (.branch op.kind line [n]) := by
  intro least hleast
  obtain ⟨e, hwords, himage⟩ := h 5 (Nat.le_refl 5)
  refine ⟨(Derivation.unary op (.word op.terminal) e).lift hleast, ?_, ?_⟩
  · rw [Derivation.tokens_lift, Node.expressionWords_unary]
    exact (Leaf.writes_unary op).append hwords
  · rw [Derivation.image_lift]
    exact Node.eraseLines_congr _ _ _ _ (by rw [List.map_singleton, List.map_singleton, himage])

theorem binary {left right : Node} {line : Int} (op : Binary) (hleft : Printed .expression left)
    (hright : Printed .expression right) : Printed .expression (.branch op.kind line [left, right]) := by
  intro least hleast
  obtain ⟨l, hl, himageLeft⟩ := hleft op.leftLevel (Nat.le_succ_of_le op.leftLevel_le)
  obtain ⟨r, hr, himageRight⟩ := hright (op.level + 1) (Nat.succ_le_succ op.level_le)
  have hwords : Writes (Derivation.binary op l (.word op.terminal) r).tokens
      (left.expressionWords op.leftLevel ++ op.terminal.word :: right.expressionWords (op.level + 1)) :=
    hl.append ((Leaf.writes_binary op).append hr)
  have himage : (Derivation.binary op l (.word op.terminal) r).image.eraseLines =
      (Node.branch op.kind line [left, right]).eraseLines := by
    refine Node.eraseLines_congr _ _ _ _ ?_
    simp only [List.map_cons, List.map_nil, himageLeft, himageRight]
  by_cases hlevel : op.level < least
  · -- The parentheses make an atom of it.
    have hzero := Nat.zero_le op.level
    refine ⟨(Derivation.atom (.group (.word _) ((Derivation.binary op l (.word _) r).lift hzero) (.word _))).lift hleast, ?_, ?_⟩
    · rw [Derivation.tokens_lift, Node.expressionWords_binary, Node.enclosed, if_pos (decide_eq_true hlevel), Derivation.tokens,
        Derivation.tokens, Derivation.tokens_lift]
      exact ((Leaf.writes_mark .lpar).append hwords).append (Leaf.writes_mark .rpar)
    · rw [Derivation.image_lift, Derivation.image, Derivation.image, Derivation.image_lift, himage]
  · refine ⟨(Derivation.binary op l (.word op.terminal) r).lift (Nat.le_of_not_lt hlevel), ?_, ?_⟩
    · rw [Derivation.tokens_lift, Node.expressionWords_binary, Node.enclosed, if_neg (by simpa using hlevel)]
      exact hwords
    · rw [Derivation.image_lift, himage]

/-- What holds of one part that is added to a sequence holds of all that are added to it one after the other. -/
theorem sequence {D : Type} {tokens : D → List Token} {nodes : D → List Node} {words : Node → List String} {ns : List Node}
    (h : ∀ n ∈ ns, ∀ before, ∃ after us, tokens after = tokens before ++ us ∧ Writes us (words n) ∧
      (nodes after).map Node.eraseLines = (nodes before).map Node.eraseLines ++ [n.eraseLines]) (before : D) :
    ∃ after us, tokens after = tokens before ++ us ∧ Writes us (ns.flatMap words) ∧
      (nodes after).map Node.eraseLines = (nodes before).map Node.eraseLines ++ ns.map Node.eraseLines := by
  induction ns generalizing before with
  | nil => exact ⟨before, [], (List.append_nil _).symm, .nil, (List.append_nil _).symm⟩
  | cons n ns ih =>
      obtain ⟨hn, hns⟩ := List.forall_mem_cons.1 h
      obtain ⟨next, us, htokens, hwords, hnodes⟩ := hn before
      obtain ⟨after, us', htokens', hwords', hnodes'⟩ := ih hns next
      refine ⟨after, us ++ us', ?_, hwords.append hwords', ?_⟩
      · rw [htokens', htokens, List.append_assoc]
      · rw [hnodes', hnodes, List.append_assoc, List.map_cons, List.singleton_append]

theorem arguments {es : List Node} (h : ∀ e ∈ es, Printed .expression e) :
    ∃ d : Derivation .args, Writes d.tokens (Node.argumentWords es) ∧
      ∀ line line', (d.image.getD (.branch .argList line [])).eraseLines = (Node.branch .argList line' es).eraseLines := by
  cases es with
  | nil => exact ⟨.noArgs, .nil, fun _ _ => rfl⟩
  | cons e es =>
      obtain ⟨he, hes⟩ := List.forall_mem_cons.1 h
      obtain ⟨first, hfirst, himage⟩ := he 0 (Nat.zero_le 5)
      have hstep : ∀ e ∈ es, ∀ before : Derivation .argList, ∃ (after : Derivation .argList) (us : List Token),
          after.tokens = before.tokens ++ us ∧ Writes us ("," :: e.expressionWords 0) ∧
          after.image.map Node.eraseLines = before.image.map Node.eraseLines ++ [e.eraseLines] := by
        intro e he before
        obtain ⟨d, hwords, himage⟩ := hes e he 0 (Nat.zero_le 5)
        refine ⟨.nextArg before (.word _) d, _, rfl, (Leaf.writes_mark .comma).append hwords, ?_⟩
        rw [Derivation.image, List.map_append, List.map_singleton, himage]
      obtain ⟨all, us, htokens, hwords, hnodes⟩ := sequence hstep (.firstArg first)
      refine ⟨.args all, ?_, fun line line' => ?_⟩
      · rw [Derivation.tokens, htokens, Node.argumentWords, Node.moreArgumentWords_eq_flatMap]
        exact hfirst.append hwords
      · refine Node.eraseLines_congr _ _ _ _ ?_
        rw [hnodes, Derivation.image, List.map_singleton, himage, List.map_cons, List.singleton_append]

theorem params {ps : List Node} (h : ∀ p ∈ ps, Printed .param p) :
    ∃ d : Derivation .params, Writes d.tokens (Node.paramsWords ps) ∧
      ∀ line line', (d.image.getD (.branch .paramList line [])).eraseLines = (Node.branch .paramList line' ps).eraseLines := by
  cases ps with
  | nil => exact ⟨.noParams, .nil, fun _ _ => rfl⟩
  | cons p ps =>
      obtain ⟨⟨first, hfirst, himage⟩, hps⟩ := List.forall_mem_cons.1 h
      have hstep : ∀ p ∈ ps, ∀ before : Derivation .paramList, ∃ (after : Derivation .paramList) (us : List Token),
          after.tokens = before.tokens ++ us ∧ Writes us ("," :: p.paramWords) ∧
          after.image.map Node.eraseLines = before.image.map Node.eraseLines ++ [p.eraseLines] := by
        intro p hp before
        obtain ⟨d, hwords, himage⟩ := hps p hp
        refine ⟨.nextParam before (.word _) d, _, rfl, (Leaf.writes_mark .comma).append hwords, ?_⟩
        rw [Derivation.image, List.map_append, List.map_singleton, himage]
      obtain ⟨all, us, htokens, hwords, hnodes⟩ := sequence hstep (.firstParam first)
      refine ⟨.params all, ?_, fun line line' => ?_⟩
      · rw [Derivation.tokens, htokens]
        exact hfirst.append hwords
      · refine Node.eraseLines_congr _ _ _ _ ?_
        rw [hnodes, Derivation.image, List.map_singleton, himage, List.map_cons, List.singleton_append]

theorem block {ss : List Node} {line : Int} (h : ∀ s ∈ ss, Printed .statement s) : Printed .block (.branch .block line ss) := by
  have hstep : ∀ s ∈ ss, ∀ before : Derivation .statements, ∃ (after : Derivation .statements) (us : List Token),
      after.tokens = before.tokens ++ us ∧ Writes us s.statementWords ∧
      after.image.reduceOption.map Node.eraseLines = before.image.reduceOption.map Node.eraseLines ++ [s.eraseLines] := by
    intro s hs before
    obtain ⟨d, n', hwords, hstatement, himage⟩ := h s hs
    refine ⟨.statements before d, _, rfl, hwords, ?_⟩
    rw [Derivation.image, hstatement, List.reduceOption_append, List.map_append, ← himage]
    rfl
  obtain ⟨all, us, htokens, hwords, hnodes⟩ := sequence hstep .noStatements
  refine ⟨.block all, ?_, ?_⟩
  · rw [Derivation.tokens, htokens]
    exact (Node.blockWords_eq_flatMap ss).symm ▸ hwords
  · exact Node.eraseLines_congr _ _ _ _ hnodes

theorem program {fs : List Node} {line : Int} (h : ∀ f ∈ fs, Printed .function f) :
    Printed .program (.branch .functionList line fs) := by
  have hstep : ∀ f ∈ fs, ∀ before : Derivation .functions, ∃ (after : Derivation .functions) (us : List Token),
      after.tokens = before.tokens ++ us ∧ Writes us f.functionWords ∧
      after.image.map Node.eraseLines = before.image.map Node.eraseLines ++ [f.eraseLines] := by
    intro f hf before
    obtain ⟨d, hwords, himage⟩ := h f hf
    refine ⟨.functions before d, _, rfl, hwords, ?_⟩
    rw [Derivation.image, List.map_append, List.map_singleton, himage]
  obtain ⟨all, us, htokens, hwords, hnodes⟩ := sequence hstep .noFunctions
  refine ⟨.start all, ?_, ?_⟩
  · rw [Derivation.tokens, htokens]
    exact hwords
  · exact Node.eraseLines_congr _ _ _ _ hnodes

theorem string {line : Int} (text : String) : Printed .expression (.leaf .string line text) := by
  refine .of_atom (.string ⟨Node.stringWord text, 0, 0⟩) (fun _ => ?_) ?_
  · refine Leaf.writes ?_ nofun
    rw [Node.stringWord, String.toList_ofList]
    exact ⟨_, Escape.isContent_encode _, rfl⟩
  · rw [Derivation.image, Node.stringWord, String.toList_ofList, List.drop_one, List.tail_cons, List.dropLast_concat,
      Escape.decode_encode, String.ofList_toList, Node.eraseLines_leaf, Node.eraseLines_leaf]

theorem call {line nameLine argumentsLine : Int} {name : String} {arguments : List Node} (hname : IsIdentifier name)
    (h : ∀ e ∈ arguments, Printed .expression e) :
    Printed .call (.branch .call line [.leaf .id nameLine name, .branch .argList argumentsLine arguments]) := by
  obtain ⟨es, hwords, himage⟩ := Printed.arguments h
  refine ⟨⟨name, 0, 0⟩, es, fun _ => ?_, ?_, rfl⟩
  · exact (((Leaf.writes_name hname).append (Leaf.writes_mark .lpar)).append hwords).append (Leaf.writes_mark .rpar)
  · refine Node.eraseLines_congr _ _ _ _ ?_
    simp only [List.map_cons, List.map_nil, himage _ argumentsLine]
    rfl

end Printed

/-- Every tree of the right shape has a derivation that is spelled like its words. -/
theorem Node.Shaped.printed {p : Part} {n : Node} (h : n.Shaped p) : Printed p n := by
  induction h with
  | @int line text h => exact .of_atom (.int ⟨text, 0, 0⟩) (fun _ => Leaf.writes h nofun) rfl
  | @float line text h => exact .of_atom (.float ⟨text, 0, 0⟩) (fun _ => Leaf.writes h nofun) rfl
  | boolean b =>
      cases b with
      | true => exact .of_atom (.true (.word _)) (fun _ => Leaf.writes_keyword .kwTrue) rfl
      | false => exact .of_atom (.false (.word _)) (fun _ => Leaf.writes_keyword .kwFalse) rfl
  | string text => exact .string text
  | @var line name h => exact .of_atom (.var ⟨name, 0, 0⟩) (fun _ => Leaf.writes_name h) rfl
  | call hname harguments ih => exact .call hname ih
  | callExpression h ih =>
      obtain ⟨name, es, hwords, himage, -⟩ := ih
      exact .of_atom (.funcall name (.word _) es (.word _)) hwords himage
  | unary op h ih => exact ih.unary op
  | binary op hleft hright ihLeft ihRight => exact ihLeft.binary op ihRight
  | @assign line nameLine name e hname he ih =>
      obtain ⟨d, hwords, himage⟩ := ih 0 (Nat.zero_le 5)
      refine ⟨.assign ⟨name, 0, 0⟩ (.word _) d (.word _), _, ?_, rfl, ?_⟩
      · exact (((Leaf.writes_name hname).append (Leaf.writes_mark .equal)).append hwords).append (Leaf.writes_mark .semicolon)
      · refine eraseLines_congr _ _ _ _ ?_
        simp only [List.map_cons, List.map_nil, himage]
        rfl
  | @ifElse line condition body other hcondition hbody hother ihCondition ihBody ihOther =>
      obtain ⟨c, hc, himageCondition⟩ := ihCondition 0 (Nat.zero_le 5)
      obtain ⟨b, hb, himageBody⟩ := ihBody
      obtain ⟨_, _, _, _, statements⟩ := body
      have hthen := ((Leaf.writes_keyword .kwIf).append hc).append ((Leaf.writes_keyword .kwThen).append hb)
      cases other with
      | none =>
          refine ⟨.ifElse (.word _) c (.word _) b .noAlternative (.word _), _, ?_, rfl, ?_⟩
          · rw [Derivation.tokens, Derivation.tokens, List.append_nil]
            exact hthen.append (Leaf.writes_keyword .kwEndif)
          · refine eraseLines_congr _ _ _ _ ?_
            simp only [List.map_cons, List.map_nil, List.map_append, himageCondition, himageBody]
            rfl
      | some other =>
          obtain ⟨o, ho, himageOther⟩ := ihOther other rfl
          refine ⟨.ifElse (.word _) c (.word _) b (.alternative (.word _) o) (.word _), _, ?_, rfl, ?_⟩
          · obtain ⟨_, _, _, _, statements'⟩ := other
            exact (hthen.append ((Leaf.writes_keyword .kwElse).append ho)).append (Leaf.writes_keyword .kwEndif)
          · refine eraseLines_congr _ _ _ _ ?_
            simp only [List.map_cons, List.map_nil, List.map_append, himageCondition, himageBody, Derivation.image,
              Option.toList_some, himageOther]
  | @whileDo line condition body hcondition hbody ihCondition ihBody =>
      obtain ⟨c, hc, himageCondition⟩ := ihCondition 0 (Nat.zero_le 5)
      obtain ⟨b, hb, himageBody⟩ := ihBody
      obtain ⟨_, _, _, _, statements⟩ := body
      refine ⟨.whileDo (.word _) c (.word _) b (.word _), _, ?_, rfl, ?_⟩
      · exact (((Leaf.writes_keyword .kwWhile).append hc).append ((Leaf.writes_keyword .kwDo).append hb)).append
          (Leaf.writes_keyword .kwEndwhile)
      · refine eraseLines_congr _ _ _ _ ?_
        simp only [List.map_cons, List.map_nil, himageCondition, himageBody]
  | @ret line result h ih =>
      cases result with
      | none =>
          exact ⟨.ret (.word _) .noResult (.word _), _, (Leaf.writes_keyword .kwReturn).append (Leaf.writes_mark .semicolon), rfl,
            rfl⟩
      | some e =>
          obtain ⟨d, hwords, himage⟩ := ih e rfl 0 (Nat.zero_le 5)
          refine ⟨.ret (.word _) (.result d) (.word _), _, ?_, rfl, eraseLines_congr _ _ _ _ (congrArg (fun n => [n]) himage)⟩
          exact ((Leaf.writes_keyword .kwReturn).append hwords).append (Leaf.writes_mark .semicolon)
  | @read line nameLine name h =>
      refine ⟨.read (.word _) ⟨name, 0, 0⟩ (.word _), _, ?_, rfl, rfl⟩
      exact ((Leaf.writes_keyword .kwRead).append (Leaf.writes_name h)).append (Leaf.writes_mark .semicolon)
  | write h ih =>
      obtain ⟨d, hwords, himage⟩ := ih 0 (Nat.zero_le 5)
      refine ⟨.write (.word _) d (.word _), _, ?_, rfl, eraseLines_congr _ _ _ _ (congrArg (fun n => [n]) himage)⟩
      exact ((Leaf.writes_keyword .kwWrite).append hwords).append (Leaf.writes_mark .semicolon)
  | callStatement h ih =>
      obtain ⟨name, es, hwords, himage, hstatement⟩ := ih
      refine ⟨.call name (.word _) es (.word _) (.word _), _, ?_, rfl, himage⟩
      have hwhole := (hwords 0).append (Leaf.writes_mark .semicolon)
      rw [List.append_assoc] at hwhole
      rw [hstatement]
      exact hwhole
  | block h ih => exact .block ih
  | @paramValue line name h => exact ⟨.paramValue ⟨name, 0, 0⟩, Leaf.writes_name h, rfl⟩
  | @paramRef line name h =>
      exact ⟨.paramRef (.word _) ⟨name, 0, 0⟩, (Leaf.writes_mark .ampersand).append (Leaf.writes_name h), rfl⟩
  | @function line paramsLine name params body hname hparams hbody ihParams ihBody =>
      obtain ⟨ps, hps, himageParams⟩ := Printed.params ihParams
      obtain ⟨b, hb, himageBody⟩ := ihBody
      obtain ⟨_, _, _, _, statements⟩ := body
      refine ⟨.function (.word _) ⟨name, 0, 0⟩ (.word _) ps (.word _) b (.word _), ?_, ?_⟩
      · have hheading := ((Leaf.writes_keyword .kwFunc).append (Leaf.writes_name hname)).append (Leaf.writes_mark .lpar)
        exact ((hheading.append hps).append ((Leaf.writes_mark .rpar).append hb)).append (Leaf.writes_keyword .kwEndfunc)
      · refine eraseLines_congr _ _ _ _ ?_
        simp only [List.map_cons, List.map_nil, himageParams _ paramsLine, himageBody]
  | program h ih => exact .program ih

/-- The tree that is read from a printed program is the printed one but for the lines. -/
theorem readProgram_print (tree : Node) (h : tree.Shaped .program) :
    ∃ tree', readProgram tree.print = .ok tree' ∧ tree'.eraseLines = tree.eraseLines := by
  obtain ⟨d, hwords, himage⟩ := h.printed
  have hparse : parse? d.tokens = some d.image := (Derivation.parse?_eq_some_iff _ _).2 ⟨d, rfl, rfl⟩
  obtain ⟨ts', tree', -, hread, -, halike⟩ := readProgram_spaced hparse hwords.spelled
  refine ⟨tree', ?_, ?_⟩
  · rw [spaced, hwords.map_text] at hread
    exact hread
  · rw [← himage]
    exact (halike.mapLines_eq fun _ _ _ => rfl).symm

/-- Parentheses on the right of a difference, and a string that needs every escape. -/
theorem readProgram_print_difference :
    ∃ tree', readProgram "func f ( & x ) return x - ( x - \"\\\"\\\\\\n\" ) ; endfunc" = .ok tree' ∧
      tree'.eraseLines = .branch .functionList 0 [⟨.function, 0, "f", none, [.branch .paramList 0 [.leaf .paramRef 0 "x"],
        .branch .block 0 [.branch .ret 0 [.branch (.arithmetic .sub) 0 [.leaf .id 0 "x",
          .branch (.arithmetic .sub) 0 [.leaf .id 0 "x", .leaf .string 0 "\"\\\n"]]]]]⟩] := by
  have hf : IsIdentifier "f" := ⟨⟨'f', [], rfl, by decide, nofun⟩, fun k => by cases k <;> decide⟩
  have hx : IsIdentifier "x" := ⟨⟨'x', [], rfl, by decide, nofun⟩, fun k => by cases k <;> decide⟩
  have hresult : Node.Shaped .expression (.branch (.arithmetic .sub) 0 [.leaf .id 0 "x",
      .branch (.arithmetic .sub) 0 [.leaf .id 0 "x", .leaf .string 0 "\"\\\n"]]) :=
    .binary .sub (.var hx) (.binary .sub (.var hx) (.string _))
  have hbody : Node.Shaped .block (.branch .block 0 [.branch .ret 0 (Option.toList (some _))]) :=
    .block (List.forall_mem_singleton.2 (.ret fun e he => Option.mem_some_iff.1 he ▸ hresult))
  have hfunction : Node.Shaped .function ⟨.function, 1, "f", none, [.branch .paramList 1 [.leaf .paramRef 1 "x"], _]⟩ :=
    .function hf (List.forall_mem_singleton.2 (.paramRef hx)) hbody
  have hprogram : Node.Shaped .program (.branch .functionList 1 [_]) := .program (List.forall_mem_singleton.2 hfunction)
  exact readProgram_print _ hprogram

end Rover
