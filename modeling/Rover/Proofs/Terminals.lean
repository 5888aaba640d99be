import Rover.Proofs.Parsing
import Mathlib.Data.List.Forall2
import Mathlib.Data.Option.Basic

/-!
# Reading the same terminals twice

Which tokens the reader takes depends on their terminals alone; their texts and lines only go into the tree. Two sequences of
the same terminals are therefore taken or refused together (`parse?_alike`), and what is related in the tokens, line by line
and text by text, is related in the trees. All that is asked of the two relations is that they allow what the reader does with
lines and texts of its own accord (`Congruent`).
-/

namespace Rover

/-- Trees of the same kinds and constants, with related lines and texts at corresponding nodes. -/
inductive Node.Alike (L : Int → Int → Prop) (X : String → String → Prop) : Node → Node → Prop
  | mk {k : Kind} {l l' : Int} {t t' : String} {v : Option Value} {cs cs' : List Node} :
      L l l' → X t t' → List.Forall₂ (Node.Alike L X) cs cs' → Node.Alike L X ⟨k, l, t, v, cs⟩ ⟨k, l', t', v, cs'⟩

/-- Relations of lines and texts that hold of the lines and texts that no token has: the line 0 of what is empty, the texts
of branches, and the contents of related string literals. -/
structure Congruent (L : Int → Int → Prop) (X : String → String → Prop) : Prop where
  line_zero : L 0 0
  text_refl (x : String) : X x x
  text_literal {x x' : String} : X x x' → X (Reader.literalText x) (Reader.literalText x')

section

variable (L : Int → Int → Prop) (X : String → String → Prop)

/-- Tokens of one terminal with related lines and texts. -/
structure Token.Alike (t t' : Token) : Prop where
  terminal_eq : t'.terminal = t.terminal
  line : L t.line t'.line
  text : X t.text t'.text

inductive Owner.Alike : Owner → Owner → Prop
  | function {l l' : Nat} {x x' : String} {n n' : Node} :
      L l l' → X x x' → n.Alike L X n' → Owner.Alike (.function l x n) (.function l' x' n')
  | thenPart {l l' : Nat} {c c' : Node} : L l l' → c.Alike L X c' → Owner.Alike (.thenPart l c) (.thenPart l' c')
  | elsePart {l l' : Nat} {c c' b b' : Node} :
      L l l' → c.Alike L X c' → b.Alike L X b' → Owner.Alike (.elsePart l c b) (.elsePart l' c' b')
  | loop {l l' : Nat} {c c' : Node} : L l l' → c.Alike L X c' → Owner.Alike (.loop l c) (.loop l' c')

inductive Open.Alike : Open → Open → Prop
  | block {o o' : Owner} {done done' : List Node} :
      o.Alike L X o' → List.Forall₂ (Node.Alike L X) done done' → Open.Alike (.block o done) (.block o' done')
  | assign {t t' : Token} : t.Alike L X t' → Open.Alike (.assign t) (.assign t')
  | ifCondition {l l' : Nat} : L l l' → Open.Alike (.ifCondition l) (.ifCondition l')
  | whileCondition {l l' : Nat} : L l l' → Open.Alike (.whileCondition l) (.whileCondition l')
  | ret {l l' : Nat} : L l l' → Open.Alike (.ret l) (.ret l')
  | write {l l' : Nat} : L l l' → Open.Alike (.write l) (.write l')
  | group : Open.Alike .group .group
  | arguments {t t' : Token} {isStatement : Bool} {done done' : List Node} :
      t.Alike L X t' → List.Forall₂ (Node.Alike L X) done done' →
        Open.Alike (.arguments t isStatement done) (.arguments t' isStatement done')
  | unary (k : Kind) : Open.Alike (.unary k) (.unary k)
  | binary (k : Kind) {n n' : Node} : n.Alike L X n' → Open.Alike (.binary k n) (.binary k n')

structure Header.Alike (h h' : Header) : Prop where
  line : L h.line h'.line
  name : X h.name h'.name
  params : List.Forall₂ (Node.Alike L X) h.params h'.params

inductive Spot.Alike : Spot → Spot → Prop
  | outside : Spot.Alike .outside .outside
  | functionName {l l' : Nat} : L l l' → Spot.Alike (.functionName l) (.functionName l')
  | paramsOpen {l l' : Nat} {x x' : String} : L l l' → X x x' → Spot.Alike (.paramsOpen l x) (.paramsOpen l' x')
  | firstParam {h h' : Header} : h.Alike L X h' → Spot.Alike (.firstParam h) (.firstParam h')
  | nextParam {h h' : Header} : h.Alike L X h' → Spot.Alike (.nextParam h) (.nextParam h')
  | refParam {h h' : Header} : h.Alike L X h' → Spot.Alike (.refParam h) (.refParam h')
  | afterParam {h h' : Header} : h.Alike L X h' → Spot.Alike (.afterParam h) (.afterParam h')
  | statement (fresh : Bool) : Spot.Alike (.statement fresh) (.statement fresh)
  | afterTarget {t t' : Token} : t.Alike L X t' → Spot.Alike (.afterTarget t) (.afterTarget t')
  | readTarget {l l' : Nat} : L l l' → Spot.Alike (.readTarget l) (.readTarget l')
  | statementEnd {n n' : Node} : n.Alike L X n' → Spot.Alike (.statementEnd n) (.statementEnd n')
  | returnOperand : Spot.Alike .returnOperand .returnOperand
  | operand : Spot.Alike .operand .operand
  | firstArgument : Spot.Alike .firstArgument .firstArgument
  | afterName {t t' : Token} : t.Alike L X t' → Spot.Alike (.afterName t) (.afterName t')
  | afterOperand {n n' : Node} : n.Alike L X n' → Spot.Alike (.afterOperand n) (.afterOperand n')

/-- Readers in the same state but for lines and texts. -/
structure Reader.Alike (s s' : Reader) : Prop where
  functions : List.Forall₂ (Node.Alike L X) s.functions s'.functions
  spine : List.Forall₂ (Open.Alike L X) s.spine s'.spine
  spot : s.spot.Alike L X s'.spot

end

variable {L : Int → Int → Prop} {X : String → String → Prop}

/-! ### Nodes -/

namespace Node

theorem Alike.line {n n' : Node} (h : n.Alike L X n') : L n.line n'.line := by
  cases h with
  | mk hline htext hchildren => exact hline

mutual

/-- The tree with other lines. -/
def mapLines (f : Int → Int) : Node → Node
  | ⟨kind, line, text, value, children⟩ => ⟨kind, f line, text, value, mapLinesAll f children⟩

def mapLinesAll (f : Int → Int) : List Node → List Node
  | [] => []
  | n :: ns => n.mapLines f :: mapLinesAll f ns

end

mutual

/-- Trees of the same texts are equal once their lines are. -/
theorem Alike.mapLines_eq {f g : Int → Int} (hfg : ∀ l l', L l l' → f l = g l') :
    {n n' : Node} → n.Alike L Eq n' → n.mapLines f = n'.mapLines g
  | ⟨_, _, _, _, children⟩, _, h => by
    cases h with
    | mk hline htext hchildren => rw [mapLines, mapLines, hfg _ _ hline, htext, mapLinesAll_eq hfg hchildren]

theorem mapLinesAll_eq {f g : Int → Int} (hfg : ∀ l l', L l l' → f l = g l') :
    {ns ns' : List Node} → List.Forall₂ (Alike L Eq) ns ns' → mapLinesAll f ns = mapLinesAll g ns'
  | [], _, h => by
    cases h
    rfl
  | n :: ns, _, h => by
    cases h with
    | cons hn hns => rw [mapLinesAll, mapLinesAll, Alike.mapLines_eq hfg hn, mapLinesAll_eq hfg hns]

end

mutual

theorem mapLines_id : (n : Node) → n.mapLines id = n
  | ⟨kind, line, text, value, children⟩ => by rw [mapLines, mapLinesAll_id children, id]

theorem mapLinesAll_id : (ns : List Node) → mapLinesAll id ns = ns
  | [] => rfl
  | n :: ns => by rw [mapLinesAll, mapLines_id n, mapLinesAll_id ns]

end

end Node

namespace Congruent

variable (hC : Congruent L X)

include hC

theorem branch (k : Kind) {l l' : Int} {cs cs' : List Node} (hl : L l l') (hcs : List.Forall₂ (Node.Alike L X) cs cs') :
    (Node.branch k l cs).Alike L X (.branch k l' cs') := .mk hl (hC.text_refl "") hcs

omit hC in
theorem leaf (k : Kind) {l l' : Int} {x x' : String} (hl : L l l') (hx : X x x') :
    (Node.leaf k l x).Alike L X (.leaf k l' x') := .mk hl hx .nil

omit hC in
theorem lineOf {default default' : Int} {ns ns' : List Node} (hdefault : L default default')
    (hns : List.Forall₂ (Node.Alike L X) ns ns') : L (Reader.lineOf default ns) (Reader.lineOf default' ns') := by
  cases hns with
  | nil => exact hdefault
  | cons hn hns => exact hn.line

theorem blockNode {done done' : List Node} (h : List.Forall₂ (Node.Alike L X) done done') :
    (Reader.blockNode done).Alike L X (Reader.blockNode done') :=
  hC.branch .block (lineOf hC.line_zero (List.forall₂_reverse_iff.2 h)) (List.forall₂_reverse_iff.2 h)

theorem paramsNode {h h' : Header} (hh : h.Alike L X h') : (Reader.paramsNode h).Alike L X (Reader.paramsNode h') :=
  hC.branch .paramList (lineOf hh.line (List.forall₂_reverse_iff.2 hh.params)) (List.forall₂_reverse_iff.2 hh.params)

omit hC in
theorem id {t t' : Token} (h : t.Alike L X t') : t.id.Alike L X t'.id := leaf .id h.line h.text

theorem callNode {t t' : Token} {done done' : List Node} (ht : t.Alike L X t')
    (h : List.Forall₂ (Node.Alike L X) done done') : (Reader.callNode t done).Alike L X (Reader.callNode t' done') := by
  have hdone := List.forall₂_reverse_iff.2 h
  exact hC.branch .call ht.line (.cons (id ht) (.cons (hC.branch .argList (lineOf ht.line hdone) hdone) .nil))

theorem unaryNode (k : Kind) {n n' : Node} (h : n.Alike L X n') :
    (Reader.unaryNode k n).Alike L X (Reader.unaryNode k n') := hC.branch k h.line (.cons h .nil)

theorem binaryNode (k : Kind) {a a' b b' : Node} (ha : a.Alike L X a') (hb : b.Alike L X b') :
    (Reader.binaryNode k a b).Alike L X (Reader.binaryNode k a' b') := hC.branch k ha.line (.cons ha (.cons hb .nil))

/-- Closing operators leaves the same operators open. -/
theorem collapse (least : Nat) {n n' : Node} {spine spine' : List Open} (hn : n.Alike L X n')
    (hspine : List.Forall₂ (Open.Alike L X) spine spine') :
    (Reader.collapse least n spine).1.Alike L X (Reader.collapse least n' spine').1 ∧
      List.Forall₂ (Open.Alike L X) (Reader.collapse least n spine).2 (Reader.collapse least n' spine').2 := by
  induction hspine generalizing n n' with
  | nil => exact ⟨hn, .nil⟩
  | cons ho hspine ih =>
      cases ho with
      | unary k => exact ih (hC.unaryNode k hn)
      | binary k hleft =>
          unfold Reader.collapse
          split_ifs
          · exact ih (hC.binaryNode k hleft hn)
          · exact ⟨hn, .cons (.binary k hleft) hspine⟩
      | block howner hdone => exact ⟨hn, .cons (.block howner hdone) hspine⟩
      | assign ht => exact ⟨hn, .cons (.assign ht) hspine⟩
      | ifCondition hl => exact ⟨hn, .cons (.ifCondition hl) hspine⟩
      | whileCondition hl => exact ⟨hn, .cons (.whileCondition hl) hspine⟩
      | ret hl => exact ⟨hn, .cons (.ret hl) hspine⟩
      | write hl => exact ⟨hn, .cons (.write hl) hspine⟩
      | group => exact ⟨hn, .cons .group hspine⟩
      | arguments ht hdone => exact ⟨hn, .cons (.arguments ht hdone) hspine⟩

end Congruent

/-! ### Taking a token -/

namespace Congruent

variable (hC : Congruent L X) {s s' : Reader} {t t' : Token}

include hC

omit hC in
theorem addStatement (hs : s.Alike L X s') {spine spine' : List Open} (hspine : List.Forall₂ (Open.Alike L X) spine spine')
    {n n' : Node} (hn : n.Alike L X n') : Option.Rel (Reader.Alike L X) (s.addStatement spine n) (s'.addStatement spine' n') := by
  cases hspine with
  | nil => exact .none
  | cons ho houter =>
      cases ho with
      | block howner hdone => exact .some ⟨hs.functions, .cons (.block howner (.cons hn hdone)) houter, .statement false⟩
      | _ => exact .none

theorem openBody (hs : s.Alike L X s') {h h' : Header} (hh : h.Alike L X h') :
    (s.openBody h).Alike L X (s'.openBody h') :=
  ⟨hs.functions, .cons (.block (.function hh.line hh.name (hC.paramsNode hh)) .nil) hs.spine, .statement true⟩

theorem closeBlock (hs : s.Alike L X s') (k : Keyword) :
    Option.Rel (Reader.Alike L X) (s.closeBlock k) (s'.closeBlock k) := by
  obtain ⟨functions, spine, spot⟩ := s
  obtain ⟨functions', spine', spot'⟩ := s'
  have hfunctions := hs.functions
  unfold Reader.closeBlock
  cases hs.spine with
  | nil => exact .none
  | @cons o o' outer outer' ho houter =>
      cases ho with
      | @block _ _ done done' howner hdone =>
          have hbody := hC.blockNode hdone
          cases howner with
          | function hl hx hparams =>
              cases houter with
              | nil =>
                  cases k with
                  | kwEndfunc =>
                      exact .some ⟨.cons (.mk hl hx (.cons hparams (.cons hbody .nil))) hfunctions, .nil, .outside⟩
                  | _ => exact .none
              | cons _ _ => cases k <;> exact .none
          | thenPart hl hc =>
              cases k with
              | kwElse => exact .some ⟨hfunctions, .cons (.block (.elsePart hl hc hbody) .nil) houter, .statement true⟩
              | kwEndif => exact addStatement hs houter (hC.branch .ifElse hl (.cons hc (.cons hbody .nil)))
              | _ => exact .none
          | elsePart hl hc hb =>
              cases k with
              | kwEndif => exact addStatement hs houter (hC.branch .ifElse hl (.cons hc (.cons hb (.cons hbody .nil))))
              | _ => exact .none
          | loop hl hc =>
              cases k with
              | kwEndwhile => exact addStatement hs houter (hC.branch .whileDo hl (.cons hc (.cons hbody .nil)))
              | _ => exact .none
      | _ => exact .none

theorem feedStatement (hs : s.Alike L X s') (ht : t.Alike L X t') :
    Option.Rel (Reader.Alike L X) (s.feedStatement t) (s'.feedStatement t') := by
  unfold Reader.feedStatement
  rw [ht.terminal_eq]
  cases t.terminal with
  | name => exact .some ⟨hs.functions, hs.spine, .afterTarget ht⟩
  | mark m =>
      cases m with
      | semicolon => exact .some ⟨hs.functions, hs.spine, .statement false⟩
      | _ => exact .none
  | keyword k =>
      cases k with
      | kwIf => exact .some ⟨hs.functions, .cons (.ifCondition ht.line) hs.spine, .operand⟩
      | kwWhile => exact .some ⟨hs.functions, .cons (.whileCondition ht.line) hs.spine, .operand⟩
      | kwReturn => exact .some ⟨hs.functions, .cons (.ret ht.line) hs.spine, .returnOperand⟩
      | kwWrite => exact .some ⟨hs.functions, .cons (.write ht.line) hs.spine, .operand⟩
      | kwRead => exact .some ⟨hs.functions, hs.spine, .readTarget ht.line⟩
      | _ => exact hC.closeBlock hs _
  | _ => exact .none

theorem feedOperand (hs : s.Alike L X s') (ht : t.Alike L X t') :
    Option.Rel (Reader.Alike L X) (s.feedOperand t) (s'.feedOperand t') := by
  have hafter {n n' : Node} (hn : n.Alike L X n') : (s.goto (.afterOperand n)).Alike L X (s'.goto (.afterOperand n')) :=
    ⟨hs.functions, hs.spine, .afterOperand hn⟩
  have hunary (k : Kind) : (s.enter (.unary k) .operand).Alike L X (s'.enter (.unary k) .operand) :=
    ⟨hs.functions, .cons (.unary k) hs.spine, .operand⟩
  unfold Reader.feedOperand
  rw [ht.terminal_eq]
  cases t.terminal with
  | name => exact .some ⟨hs.functions, hs.spine, .afterName ht⟩
  | int => exact .some (hafter (leaf .int ht.line ht.text))
  | float => exact .some (hafter (leaf .float ht.line ht.text))
  | string => exact .some (hafter (leaf .string ht.line (hC.text_literal ht.text)))
  | keyword k =>
      cases k with
      | kwTrue => exact .some (hafter (leaf .boolean ht.line (hC.text_refl _)))
      | kwFalse => exact .some (hafter (leaf .boolean ht.line (hC.text_refl _)))
      | kwNot => exact .some (hunary _)
      | _ => exact .none
  | mark m =>
      cases m with
      | lpar => exact .some ⟨hs.functions, .cons .group hs.spine, .operand⟩
      | minus => exact .some (hunary _)
      | plus => exact .some (hunary _)
      | _ => exact .none

theorem endCall (hs : s.Alike L X s') {spine spine' : List Open} (hspine : List.Forall₂ (Open.Alike L X) spine spine')
    (ht : t.Alike L X t') (isStatement : Bool) {done done' : List Node} (hdone : List.Forall₂ (Node.Alike L X) done done') :
    (s.endCall spine t isStatement done).Alike L X (s'.endCall spine' t' isStatement done') := by
  refine ⟨hs.functions, hspine, ?_⟩
  cases isStatement with
  | true => exact .statementEnd (hC.callNode ht hdone)
  | false => exact .afterOperand (hC.callNode ht hdone)

omit hC in
theorem comparisonWaits {spine spine' : List Open} (h : List.Forall₂ (Open.Alike L X) spine spine') :
    Reader.comparisonWaits spine' = Reader.comparisonWaits spine := by
  cases h with
  | nil => rfl
  | cons ho houter =>
      cases ho with
      | binary k hleft => cases k <;> rfl
      | _ => rfl

theorem feedOperator (hs : s.Alike L X s') {n n' : Node} (hn : n.Alike L X n') (k : Kind) :
    Option.Rel (Reader.Alike L X) (s.feedOperator n k) (s'.feedOperator n' k) := by
  unfold Reader.feedOperator
  dsimp only
  generalize (if (Reader.level k == 3) = true then 4 else Reader.level k) = least
  obtain ⟨hleft, hspine⟩ := hC.collapse least hn hs.spine
  rw [comparisonWaits hspine]
  split_ifs
  · exact .none
  · exact .some ⟨hs.functions, .cons (.binary k hleft) hspine, .operand⟩

theorem feedEnd (hs : s.Alike L X s') {n n' : Node} (hn : n.Alike L X n') (k : Terminal) :
    Option.Rel (Reader.Alike L X) (s.feedEnd n k) (s'.feedEnd n' k) := by
  obtain ⟨he, hspine⟩ := hC.collapse 0 hn hs.spine
  unfold Reader.feedEnd
  generalize Reader.collapse 0 n s.spine = collapsed at he hspine ⊢
  generalize Reader.collapse 0 n' s'.spine = collapsed' at he hspine ⊢
  obtain ⟨e, spine⟩ := collapsed
  obtain ⟨e', spine'⟩ := collapsed'
  dsimp only at he hspine ⊢
  cases hspine with
  | nil => cases k <;> exact .none
  | cons ho houter =>
      cases ho with
      | assign ht =>
          cases k with
          | mark m =>
              cases m with
              | semicolon => exact addStatement hs houter (hC.branch .assign ht.line (.cons (id ht) (.cons he .nil)))
              | _ => exact .none
          | _ => exact .none
      | ret hl =>
          cases k with
          | mark m =>
              cases m with
              | semicolon => exact addStatement hs houter (hC.branch .ret hl (.cons he .nil))
              | _ => exact .none
          | _ => exact .none
      | write hl =>
          cases k with
          | mark m =>
              cases m with
              | semicolon => exact addStatement hs houter (hC.branch .write hl (.cons he .nil))
              | _ => exact .none
          | _ => exact .none
      | ifCondition hl =>
          cases k with
          | keyword k =>
              cases k with
              | kwThen => exact .some ⟨hs.functions, .cons (.block (.thenPart hl he) .nil) houter, .statement true⟩
              | _ => exact .none
          | _ => exact .none
      | whileCondition hl =>
          cases k with
          | keyword k =>
              cases k with
              | kwDo => exact .some ⟨hs.functions, .cons (.block (.loop hl he) .nil) houter, .statement true⟩
              | _ => exact .none
          | _ => exact .none
      | group =>
          cases k with
          | mark m =>
              cases m with
              | rpar => exact .some ⟨hs.functions, houter, .afterOperand he⟩
              | _ => exact .none
          | _ => exact .none
      | arguments ht hdone =>
          cases k with
          | mark m =>
              cases m with
              | rpar => exact .some (hC.endCall hs houter ht _ (.cons he hdone))
              | comma => exact .some ⟨hs.functions, .cons (.arguments ht (.cons he hdone)) houter, .operand⟩
              | _ => exact .none
          | _ => exact .none
      | block howner hdone => cases k <;> exact .none
      | unary kind => cases k <;> exact .none
      | binary kind hleft => cases k <;> exact .none

theorem feedAfterOperand (hs : s.Alike L X s') {n n' : Node} (hn : n.Alike L X n') (ht : t.Alike L X t') :
    Option.Rel (Reader.Alike L X) (s.feedAfterOperand n t) (s'.feedAfterOperand n' t') := by
  unfold Reader.feedAfterOperand
  rw [ht.terminal_eq]
  cases Reader.binaryKind? t.terminal with
  | some k => exact hC.feedOperator hs hn k
  | none => exact hC.feedEnd hs hn t.terminal

omit hC in
theorem addParam {h h' : Header} (hh : h.Alike L X h') (k : Kind) (ht : t.Alike L X t') :
    Header.Alike L X { h with params := .leaf k t.line t.text :: h.params }
      { h' with params := .leaf k t'.line t'.text :: h'.params } :=
  ⟨hh.line, hh.name, .cons (leaf k ht.line ht.text) hh.params⟩

omit hC in
theorem feedParam (hs : s.Alike L X s') {h h' : Header} (hh : h.Alike L X h') (ht : t.Alike L X t') :
    Option.Rel (Reader.Alike L X) (s.feedParam h t) (s'.feedParam h' t') := by
  unfold Reader.feedParam
  rw [ht.terminal_eq]
  cases t.terminal with
  | name => exact .some ⟨hs.functions, hs.spine, .afterParam (addParam hh .paramValue ht)⟩
  | mark m =>
      cases m with
      | ampersand => exact .some ⟨hs.functions, hs.spine, .refParam hh⟩
      | _ => exact .none
  | _ => exact .none

/-- Tokens of the same terminal are taken or refused together. -/
theorem feed (hs : s.Alike L X s') (ht : t.Alike L X t') :
    Option.Rel (Reader.Alike L X) (s.feed t) (s'.feed t') := by
  have hterminal := ht.terminal_eq
  have hfunctions := hs.functions
  have hspine := hs.spine
  obtain ⟨functions, spine, spot⟩ := s
  obtain ⟨functions', spine', spot'⟩ := s'
  unfold Reader.feed
  cases hs.spot with
  | outside =>
      rw [hterminal]
      cases t.terminal with
      | keyword k =>
          cases k with
          | kwFunc => exact .some ⟨hfunctions, hspine, .functionName ht.line⟩
          | _ => exact .none
      | _ => exact .none
  | functionName hl =>
      rw [hterminal]
      cases t.terminal with
      | name => exact .some ⟨hfunctions, hspine, .paramsOpen hl ht.text⟩
      | _ => exact .none
  | paramsOpen hl hx =>
      rw [hterminal]
      cases t.terminal with
      | mark m =>
          cases m with
          | lpar => exact .some ⟨hfunctions, hspine, .firstParam ⟨hl, hx, .nil⟩⟩
          | _ => exact .none
      | _ => exact .none
  | firstParam hh =>
      rw [hterminal]
      cases t.terminal with
      | mark m =>
          cases m with
          | rpar => exact .some (hC.openBody hs hh)
          | _ => exact feedParam hs hh ht
      | _ => exact feedParam hs hh ht
  | nextParam hh => exact feedParam hs hh ht
  | refParam hh =>
      rw [hterminal]
      cases t.terminal with
      | name => exact .some ⟨hfunctions, hspine, .afterParam (addParam hh .paramRef ht)⟩
      | _ => exact .none
  | afterParam hh =>
      rw [hterminal]
      cases t.terminal with
      | mark m =>
          cases m with
          | comma => exact .some ⟨hfunctions, hspine, .nextParam hh⟩
          | rpar => exact .some (hC.openBody hs hh)
          | _ => exact .none
      | _ => exact .none
  | statement fresh => exact hC.feedStatement hs ht
  | afterTarget htarget =>
      rw [hterminal]
      cases t.terminal with
      | mark m =>
          cases m with
          | equal => exact .some ⟨hfunctions, .cons (.assign htarget) hspine, .operand⟩
          | lpar => exact .some ⟨hfunctions, .cons (.arguments htarget .nil) hspine, .firstArgument⟩
          | _ => exact .none
      | _ => exact .none
  | readTarget hl =>
      rw [hterminal]
      cases t.terminal with
      | name => exact .some ⟨hfunctions, hspine, .statementEnd (hC.branch .read hl (.cons (id ht) .nil))⟩
      | _ => exact .none
  | statementEnd hn =>
      rw [hterminal]
      cases t.terminal with
      | mark m =>
          cases m with
          | semicolon => exact addStatement hs hspine hn
          | _ => exact .none
      | _ => exact .none
  | returnOperand =>
      have hoperand := hC.feedOperand hs ht
      rw [hterminal]
      cases t.terminal with
      | mark m =>
          cases m with
          | semicolon =>
              cases hspine with
              | nil => exact .none
              | cons ho houter =>
                  cases ho with
                  | ret hl => exact addStatement hs houter (hC.branch .ret hl .nil)
                  | _ => exact .none
          | _ => exact hoperand
      | _ => exact hoperand
  | operand => exact hC.feedOperand hs ht
  | firstArgument =>
      have hoperand := hC.feedOperand hs ht
      rw [hterminal]
      cases t.terminal with
      | mark m =>
          cases m with
          | rpar =>
              cases hspine with
              | nil => exact .none
              | cons ho houter =>
                  cases ho with
                  | arguments hcallee hdone => exact .some (hC.endCall hs houter hcallee _ hdone)
                  | _ => exact .none
          | _ => exact hoperand
      | _ => exact hoperand
  | afterName hname =>
      have hafter := hC.feedAfterOperand hs (id hname) ht
      rw [hterminal]
      cases t.terminal with
      | mark m =>
          cases m with
          | lpar => exact .some ⟨hfunctions, .cons (.arguments hname .nil) hspine, .firstArgument⟩
          | _ => exact hafter
      | _ => exact hafter
  | afterOperand hn => exact hC.feedAfterOperand hs hn ht

theorem finish (hs : s.Alike L X s') : Option.Rel (Node.Alike L X) s.finish? s'.finish? := by
  have hfunctions := List.forall₂_reverse_iff.2 hs.functions
  have hspine := hs.spine
  obtain ⟨functions, spine, spot⟩ := s
  obtain ⟨functions', spine', spot'⟩ := s'
  unfold Reader.finish?
  cases hs.spot with
  | outside =>
      cases hspine with
      | nil => exact .some (hC.branch .functionList (lineOf hC.line_zero hfunctions) hfunctions)
      | cons _ _ => exact .none
  | _ => exact .none

end Congruent

/-! ### Reading -/

theorem Reader.alike_initial : initial.Alike L X initial := ⟨.nil, .nil, .outside⟩

/-- The terminals that are tried next are the same. -/
theorem Reader.Alike.takes_eq {s s' : Reader} (h : s.Alike L X s') : s'.takes = s.takes := by
  obtain ⟨functions, spine, spot⟩ := s
  obtain ⟨functions', spine', spot'⟩ := s'
  have hends (fresh : Bool) : blockEnds fresh spine' = blockEnds fresh spine := by
    cases h.spine with
    | nil => rfl
    | cons ho houter =>
        cases ho with
        | block howner hdone => cases howner <;> rfl
        | _ => rfl
  funext k
  unfold takes
  cases h.spot with
  | statement fresh => simp only [hends]
  | _ => rfl

theorem Congruent.foldlM_feed (hC : Congruent L X) {ts ts' : List Token} (hts : List.Forall₂ (Token.Alike L X) ts ts')
    {s s' : Reader} (hs : s.Alike L X s') :
    Option.Rel (Reader.Alike L X) (ts.foldlM Reader.feed s) (ts'.foldlM Reader.feed s') := by
  induction hts generalizing s s' with
  | nil => exact .some hs
  | cons ht hts ih =>
      rw [List.foldlM_cons, List.foldlM_cons]
      have hnext := hC.feed hs ht
      generalize s.feed _ = next at hnext ⊢
      generalize s'.feed _ = next' at hnext ⊢
      cases hnext with
      | none => exact .none
      | some hnext => exact ih hnext

/-- Sequences of the same terminals are programs together. -/
theorem Congruent.parse?_alike (hC : Congruent L X) {ts ts' : List Token}
    (hts : List.Forall₂ (Token.Alike L X) ts ts') : Option.Rel (Node.Alike L X) (parse? ts) (parse? ts') := by
  have hread := hC.foldlM_feed hts Reader.alike_initial
  unfold parse?
  generalize ts.foldlM Reader.feed Reader.initial = s at hread ⊢
  generalize ts'.foldlM Reader.feed Reader.initial = s' at hread ⊢
  cases hread with
  | none => exact .none
  | some hs => exact hC.finish hs

end Rover
