import Rover.Proofs.PartialImage
import Rover.Syntax.Source

/-!
# Reading finds the derivation

A sequence of tokens is read as a program exactly if it has a derivation, the derivation is the only one, and the program
is what it denotes. By induction on a derivation, its tokens lead from each stage where it may begin to the stage where it
has been found; that no other derivation has these tokens follows, since a stage has at most one next stage.

An expression is found with the holes that its last operators have left open. What it has in common with the expression that
closes them is that every later token makes the same of both (`Hole.Takes`).
-/

namespace Rover

/-! ### Reading a sequence -/

namespace Stage

/-- The tokens lead from one stage to another. -/
def Reads (p : Stage) (ts : List Token) (q : Stage) : Prop := ts.foldlM feed p = some q

namespace Reads

variable {p q r : Stage} {t : Token} {ts us : List Token}

theorem nil (p : Stage) : p.Reads [] p := rfl

theorem cons (h : p.feed t = some q) (hrest : q.Reads ts r) : p.Reads (t :: ts) r := by
  rw [Reads, List.foldlM_cons, h]
  exact hrest

theorem single (h : p.feed t = some q) : p.Reads [t] q := cons h (nil q)

theorem append (h : p.Reads ts q) (hrest : q.Reads us r) : p.Reads (ts ++ us) r := by
  rw [Reads, List.foldlM_append, h]
  exact hrest

end Reads

theorem feed_after {level : Nat} (hole : Hole level) (a : Derivation .atom) {t : Token} (h : t.terminal ≠ .mark .lpar) :
    (after hole a).feed t = feedAfter hole a t := by
  unfold feed
  cases a with
  | var name =>
      cases ht : t.terminal with
      | mark m =>
          cases m with
          | lpar => exact absurd ht h
          | _ => rfl
      | _ => rfl
  | _ => rfl

theorem feedOperator_of_close {level : Nat} {hole : Hole level} {a : Derivation .atom} {op : Binary} {t : Token}
    {loose : Nat} {outer : Hole loose} {hle : loose ≤ op.leftLevel} {left : Derivation (.expression op.leftLevel)}
    (h : hole.close op.leftLevel op.leftLevel_le (.atom a) hole.level_le (Nat.le_succ_of_le op.leftLevel_le) =
      ⟨outer, hle, left⟩) (fits : loose ≤ op.level) :
    feedOperator hole a op t = some (operand (outer.binary op fits left (t.as op.terminal))) := by
  unfold feedOperator
  generalize hole.close op.leftLevel op.leftLevel_le (.atom a) hole.level_le _ = fit at h ⊢
  subst h
  exact dif_pos fits

end Stage

/-! ### Every derivation is found -/

namespace Binary

theorem ofTerminal?_terminal (op : Binary) : ofTerminal? op.terminal = some op := by
  cases op with
  | compare op => cases op <;> rfl
  | _ => rfl

theorem terminal_ne_lpar (op : Binary) : op.terminal ≠ .mark .lpar := by
  intro h
  have hop := op.ofTerminal?_terminal
  rw [h] at hop
  cases hop

end Binary

/-- What ends an expression can be neither the opening of a call nor an operator. -/
theorem Host.terminal_of_ended {b : Host} {e : Derivation (.expression 0)} {t : Token} {terminal : Terminal} {p : Stage}
    (h : b.ended e t terminal = some p) : terminal ≠ .mark .lpar ∧ Binary.ofTerminal? terminal = none := by
  unfold ended at h
  split at h <;> cases h <;> simp [Binary.ofTerminal?]

namespace Hole

variable {level tight least : Nat}

/-- A hole that is loose enough is not closed. -/
theorem close_of_le (hfour : least ≤ 4) (hole : Hole level) (e : Derivation (.expression tight)) (h : level ≤ tight)
    (hleast : least ≤ tight) (hle : level ≤ least) : hole.close least hfour e h hleast = ⟨hole, hle, e.lift hleast⟩ := by
  cases hole with
  | host b => rfl
  | unary hole op mark => omega
  | binary hole op fits left mark => exact close_binary_of_not_le hfour hole op fits left mark e h hleast (by omega)

theorem close_tighter (hfour : least ≤ 4) (hole : Hole level) (e : Derivation (.expression (tight + 1))) (h : level ≤ tight)
    (hleast : least ≤ tight) :
    hole.close least hfour e (Nat.le_succ_of_le h) (Nat.le_succ_of_le hleast) = hole.close least hfour e.tighter h hleast := by
  cases hole with
  | host b => simp only [close, Derivation.lift_tighter hleast]
  | unary hole op mark => simp only [close, Derivation.lift_tighter h]
  | binary hole op fits left mark => simp only [close, Derivation.lift_tighter h, Derivation.lift_tighter hleast]

theorem finish_tighter (hole : Hole level) (e : Derivation (.expression (tight + 1))) (h : level ≤ tight) :
    hole.finish e (Nat.le_succ_of_le h) = hole.finish e.tighter h := by
  cases hole <;> simp only [finish, Derivation.lift_tighter h]

theorem le_five (hfour : least ≤ 4) : least ≤ 5 := Nat.le_succ_of_le hfour

/-- The tokens of an expression, read into a hole, end after an atom in a hole from which all goes on as from the whole
expression in the first hole. -/
def Takes (hole : Hole level) (e : Derivation (.expression tight)) (h : level ≤ tight) : Prop :=
  ∃ (innermost : Nat) (inner : Hole innermost) (a : Derivation .atom),
    (Stage.operand hole).Reads e.tokens (.after inner a) ∧
    (∀ (least : Nat) (hfour : least ≤ 4) (hleast : least ≤ tight),
      inner.close least hfour (.atom a) inner.level_le (le_five hfour) = hole.close least hfour e h hleast) ∧
    inner.finish (.atom a) inner.level_le = hole.finish e h

namespace Takes

variable {hole : Hole level}

theorem atom {a : Derivation .atom} (h : (Stage.operand hole).Reads a.tokens (.after hole a)) :
    hole.Takes (.atom a) hole.level_le :=
  ⟨level, hole, a, h, fun _ _ _ => rfl, rfl⟩

theorem tighter {e : Derivation (.expression (tight + 1))} {h : level ≤ tight} (he : hole.Takes e (Nat.le_succ_of_le h)) :
    hole.Takes e.tighter h := by
  obtain ⟨innermost, inner, a, hreads, hclose, hfinish⟩ := he
  refine ⟨innermost, inner, a, hreads, ?_, ?_⟩
  · intro least hfour hleast
    rw [hclose least hfour (Nat.le_succ_of_le hleast), close_tighter hfour hole e h hleast]
  · rw [hfinish, finish_tighter]

theorem unary {op : Unary} {mark : Leaf op.terminal} {e : Derivation (.expression 5)}
    (he : (hole.unary op mark).Takes e (Nat.le_refl 5)) : hole.Takes (.unary op mark e) hole.level_le := by
  obtain ⟨innermost, inner, a, hreads, hclose, hfinish⟩ := he
  have hmark : (Stage.operand hole).feed mark.token = some (.operand (hole.unary op mark)) := by
    cases op <;> rfl
  refine ⟨innermost, inner, a, .cons hmark hreads, ?_, ?_⟩
  · intro least hfour hleast
    rw [hclose least hfour hleast, close, Derivation.lift_self]
  · rw [hfinish, finish, Derivation.lift_self]

/-- After its left operand an operator finds the hole that the operand was read into. -/
theorem operator {op : Binary} {fits : level ≤ op.level} {left : Derivation (.expression op.leftLevel)}
    (hleft : hole.Takes left (Nat.le_trans fits op.level_le_leftLevel)) (mark : Leaf op.terminal) :
    (Stage.operand hole).Reads (left.tokens ++ [mark.token]) (.operand (hole.binary op fits left mark)) := by
  obtain ⟨innermost, inner, a, hreads, hclose, -⟩ := hleft
  have hsettled := hclose op.leftLevel op.leftLevel_le (Nat.le_refl _)
  rw [hole.close_of_le op.leftLevel_le left _ _ (Nat.le_trans fits op.level_le_leftLevel), Derivation.lift_self] at hsettled
  refine hreads.append (.single ?_)
  have hoperator : Binary.ofTerminal? mark.token.terminal = some op := op.ofTerminal?_terminal
  have hlpar : mark.token.terminal ≠ .mark .lpar := op.terminal_ne_lpar
  simp only [Stage.feed_after inner a hlpar, Stage.feedAfter, hoperator]
  exact Stage.feedOperator_of_close hsettled fits

theorem binary {op : Binary} {fits : level ≤ op.level} {left : Derivation (.expression op.leftLevel)} {mark : Leaf op.terminal}
    {right : Derivation (.expression (op.level + 1))} (hleft : hole.Takes left (Nat.le_trans fits op.level_le_leftLevel))
    (hright : (hole.binary op fits left mark).Takes right (Nat.le_refl _)) : hole.Takes (.binary op left mark right) fits := by
  obtain ⟨innermost, inner, a, hreads, hclose, hfinish⟩ := hright
  refine ⟨innermost, inner, a, ?_, ?_, ?_⟩
  · have hwhole := (hleft.operator mark).append hreads
    rwa [List.append_assoc] at hwhole
  · intro least hfour hleast
    rw [hclose least hfour (Nat.le_succ_of_le hleast), close_binary_of_le hfour hole op fits left mark right _ _ hleast,
      Derivation.lift_self]
  · rw [hfinish, finish, Derivation.lift_self]

/-- A whole expression is handed to what it is a part of when its end is read. -/
theorem ended {b : Host} {e : Derivation (.expression 0)} (he : (host b).Takes e (Nat.le_refl 0)) {t : Token} {p : Stage}
    (hend : b.ended e t t.terminal = some p) : (Stage.operand (host b)).Reads (e.tokens ++ [t]) p := by
  obtain ⟨innermost, inner, a, hreads, -, hfinish⟩ := he
  refine hreads.append (.single ?_)
  rw [finish, Derivation.lift_self] at hfinish
  obtain ⟨hlpar, hoperator⟩ := Host.terminal_of_ended hend
  simp only [Stage.feed_after inner a hlpar, Stage.feedAfter, hoperator, hfinish]
  exact hend

end Takes

end Hole

namespace Stage

variable {ts : List Token} {p q : Stage}

theorem Reads.mono (h : p.Reads ts q) (hne : ts ≠ []) {p' : Stage} (hfeed : ∀ t r, p.feed t = some r → p'.feed t = some r) :
    p'.Reads ts q := by
  cases ts with
  | nil => exact absurd rfl hne
  | cons t ts =>
      rw [Reads, List.foldlM_cons] at h
      obtain ⟨r, hr, hrest⟩ := Option.bind_eq_some_iff.1 h
      exact .cons (hfeed t r hr) hrest

/-- Where an expression may be missing, one that is not is read as elsewhere. -/
theorem Reads.firstArgument {caller : Caller} (h : (operand (.host (.argument caller none))).Reads ts p) (hne : ts ≠ []) :
    (firstArgument caller).Reads ts p := by
  refine h.mono hne fun t r hr => ?_
  unfold feed
  cases ht : t.terminal with
  | mark m =>
      cases m with
      | rpar => simp [feed, feedOperand, ht] at hr
      | _ => exact hr
  | _ => exact hr

theorem Reads.returnOperand {scope : Scope} {before : Derivation .statements} {kwReturn : Leaf (.keyword .kwReturn)}
    (h : (operand (.host (.ret scope before kwReturn))).Reads ts p) (hne : ts ≠ []) :
    (returnOperand scope before kwReturn).Reads ts p := by
  refine h.mono hne fun t r hr => ?_
  unfold feed
  cases ht : t.terminal with
  | mark m =>
      cases m with
      | semicolon => simp [feed, feedOperand, ht] at hr
      | _ => exact hr
  | _ => exact hr

end Stage

namespace Derivation

/-- The tokens of a derivation lead from each stage where it may begin to the one where it has been found; what may be
missing is found with the token after it. -/
def Found : (s : Symbol) → Derivation s → Prop
  | .start, _ => True
  | .functions, fs => (Stage.outside .noFunctions).Reads fs.tokens (.outside fs)
  | .function, f => ∀ before, (Stage.outside before).Reads f.tokens (.outside (.functions before f))
  | .params, ps => ∀ heading rpar,
    (Stage.param heading none).Reads (ps.tokens ++ [rpar.token]) (.statement (.function heading ps rpar) .noStatements)
  | .paramList, ps => ∀ heading, (Stage.param heading none).Reads ps.tokens (.afterParam heading ps)
  | .param, p => ∀ heading before, (Stage.param heading before).Reads p.tokens (.afterParam heading (.addParam before p))
  | .block, b => ∃ ss, b = .block ss ∧ ∀ scope, (Stage.statement scope .noStatements).Reads ss.tokens (.statement scope ss)
  | .statements, ss => ∀ scope, (Stage.statement scope .noStatements).Reads ss.tokens (.statement scope ss)
  | .statement, s => ∀ scope before, (Stage.statement scope before).Reads s.tokens (.statement scope (before.statements s))
  | .alternative, other => ∀ scope before kwIf condition kwThen ss kwEndif,
    (Stage.statement (.thenPart scope before kwIf condition kwThen) ss).Reads (other.tokens ++ [kwEndif.token])
      (.statement scope (before.statements (.ifElse kwIf condition kwThen (.block ss) other kwEndif)))
  | .result, r => ∀ scope before kwReturn semicolon,
    (Stage.returnOperand scope before kwReturn).Reads (r.tokens ++ [semicolon.token])
      (.statement scope (before.statements (.ret kwReturn r semicolon)))
  | .args, es => ∀ caller rpar, (Stage.firstArgument caller).Reads (es.tokens ++ [rpar.token]) (caller.called es rpar)
  | .argList, es => ∀ caller t p,
    (∀ before e, es = addArg before e → (Host.argument caller before).ended e t t.terminal = some p) →
      (Stage.operand (.host (.argument caller none))).Reads (es.tokens ++ [t]) p
  | .expression _, e => ∀ {level : Nat} (hole : Hole level) (h : level ≤ _), hole.Takes e h
  | .atom, a => ∀ {level : Nat} (hole : Hole level), (Stage.operand hole).Reads a.tokens (.after hole a)

/-- A whole expression leads to what its end makes of it. -/
theorem Found.ended {e : Derivation (.expression 0)} (he : Found _ e) {b : Host} {t : Token} {p : Stage}
    (hend : b.ended e t t.terminal = some p) : (Stage.operand (.host b)).Reads (e.tokens ++ [t]) p :=
  (he (.host b) (Nat.le_refl 0)).ended hend

theorem found {s : Symbol} (d : Derivation s) : Found s d := by
  -- On the derivation: each case reads the tokens of its production in order. An expression is read together with the token
  -- after it, since only that one closes its holes.
  induction d with
  | start fs ih => trivial
  | noFunctions => exact .nil _
  | functions before f ihBefore ihF => exact ihBefore.append (ihF before)
  | function func name lpar ps rpar body endfunc ihParams ihBody =>
      intro before
      obtain ⟨ss, rfl, ihBody⟩ := ihBody
      have hparams := ihParams ⟨before, func, name, lpar⟩ rpar
      have hbody := ihBody (.function ⟨before, func, name, lpar⟩ ps rpar)
      have hend : (Stage.statement (.function ⟨before, func, name, lpar⟩ ps rpar) ss).feed endfunc.token =
        some (.outside (before.functions (.function func name lpar ps rpar (.block ss) endfunc))) := rfl
      have hheading : (Stage.outside before).Reads [func.token, name.token, lpar.token]
        (.param ⟨before, func, name, lpar⟩ none) := rfl
      simpa [tokens] using ((hheading.append hparams).append hbody).append (.single hend)
  | noParams => exact fun heading rpar => .single rfl
  | params ps ih => exact fun heading rpar => (ih heading).append (.single rfl)
  | firstParam p ih => exact fun heading => ih heading none
  | nextParam before comma p ihBefore ihP =>
      intro heading
      exact (ihBefore heading).append (.cons rfl (ihP heading (some (before, comma))))
  | paramValue name =>
      intro heading before
      cases before <;> exact .single rfl
  | paramRef ampersand name =>
      intro heading before
      cases before <;> exact .cons rfl (.single rfl)
  | block ss ih => exact ⟨ss, rfl, ih⟩
  | noStatements => exact fun scope => .nil _
  | statements before s ihBefore ihS => exact fun scope => (ihBefore scope).append (ihS scope before)
  | assign name equal e semicolon ih =>
      intro scope before
      exact .cons rfl (.cons rfl (ih.ended rfl))
  | ifElse kwIf condition kwThen consequent other kwEndif ihCondition ihConsequent ihOther =>
      intro scope before
      obtain ⟨ss, rfl, ihConsequent⟩ := ihConsequent
      have hcondition : (Stage.statement scope before).Reads (kwIf.token :: (condition.tokens ++ [kwThen.token]))
          (.statement (.thenPart scope before kwIf condition kwThen) .noStatements) :=
        .cons rfl (ihCondition.ended rfl)
      have hother := ihOther scope before kwIf condition kwThen ss kwEndif
      simpa [tokens] using (hcondition.append (ihConsequent _)).append hother
  | noAlternative => exact fun scope before kwIf condition kwThen ss kwEndif => .single rfl
  | alternative kwElse body ih =>
      intro scope before kwIf condition kwThen consequent kwEndif
      obtain ⟨ss, rfl, ih⟩ := ih
      exact .cons rfl ((ih (.elsePart scope before kwIf condition kwThen consequent kwElse)).append (.single rfl))
  | whileDo kwWhile condition kwDo body kwEndwhile ihCondition ihBody =>
      intro scope before
      obtain ⟨ss, rfl, ihBody⟩ := ihBody
      have hcondition : (Stage.statement scope before).Reads (kwWhile.token :: (condition.tokens ++ [kwDo.token]))
          (.statement (.loop scope before kwWhile condition kwDo) .noStatements) :=
        .cons rfl (ihCondition.ended rfl)
      have hend : (Stage.statement (.loop scope before kwWhile condition kwDo) ss).feed kwEndwhile.token =
        some (.statement scope (before.statements (.whileDo kwWhile condition kwDo (.block ss) kwEndwhile))) := rfl
      simpa [tokens] using (hcondition.append (ihBody _)).append (.single hend)
  | ret kwReturn r semicolon ih => exact fun scope before => .cons rfl (ih scope before kwReturn semicolon)
  | noResult => exact fun scope before kwReturn semicolon => .single rfl
  | result e ih =>
      intro scope before kwReturn semicolon
      have hreads : (Stage.operand (.host (.ret scope before kwReturn))).Reads (e.tokens ++ [semicolon.token])
        (.statement scope (before.statements (.ret kwReturn (.result e) semicolon))) := ih.ended rfl
      exact hreads.returnOperand (by simp)
  | read kwRead name semicolon => exact fun scope before => .cons rfl (.cons rfl (.single rfl))
  | write kwWrite e semicolon ih => exact fun scope before => .cons rfl (ih.ended rfl)
  | call name lpar es rpar semicolon ih =>
      intro scope before
      have hcall : (Stage.statement scope before).Reads (name.token :: lpar.token :: (es.tokens ++ [rpar.token]))
          (.callEnd scope before name lpar es rpar) :=
        .cons rfl (.cons rfl (ih (.statement scope before name lpar) rpar))
      have hend : (Stage.callEnd scope before name lpar es rpar).feed semicolon.token =
        some (.statement scope (before.statements (.call name lpar es rpar semicolon))) := rfl
      simpa [tokens] using hcall.append (.single hend)
  | empty semicolon => exact fun scope before => .single rfl
  | noArgs => exact fun caller rpar => .single rfl
  | args es ih =>
      intro caller rpar
      have hreads := ih caller rpar.token (caller.called (.args es) rpar) fun before e hes => by rw [hes]; rfl
      exact hreads.firstArgument (by simp)
  | firstArg e ih => exact fun caller t p hend => ih.ended (hend none e rfl)
  | nextArg before comma e ihBefore ih =>
      intro caller t p hend
      have hbefore := ihBefore caller comma.token (.operand (.host (.argument caller (some (before, comma)))))
        fun before' e' hes => by rw [hes]; rfl
      simpa [tokens] using hbefore.append (ih.ended (hend (some (before, comma)) e rfl))
  | binary op left mark right ihLeft ihRight =>
      exact fun hole fits => (ihLeft hole _).binary (ihRight (hole.binary op fits left mark) (Nat.le_refl _))
  | tighter e ih => exact fun hole h => (ih hole _).tighter
  | unary op mark e ih => exact fun hole h => (ih (hole.unary op mark) (Nat.le_refl 5)).unary
  | atom a ih => exact fun hole h => .atom (ih hole)
  | float number => exact fun hole => .single rfl
  | int number => exact fun hole => .single rfl
  | true word => exact fun hole => .single rfl
  | false word => exact fun hole => .single rfl
  | string text => exact fun hole => .single rfl
  | funcall name lpar es rpar ih =>
      exact fun hole => .cons rfl (.cons rfl (ih (.operand hole name lpar) rpar))
  | var name => exact fun hole => .single rfl
  | group lpar e rpar ih => exact fun hole => .cons rfl (ih.ended rfl)

end Derivation

/-! ### Programs -/

/-- The program that a sequence of tokens denotes. -/
def parse? (ts : List Token) : Option Node := (ts.foldlM Reader.feed Reader.initial).bind Reader.finish?

namespace Stage

variable {p q : Stage}

theorem foldlM_reader (p : Stage) (ts : List Token) :
    ts.foldlM Reader.feed p.reader = (ts.foldlM feed p).map reader := by
  induction ts generalizing p with
  | nil => rfl
  | cons t ts ih =>
      rw [List.foldlM_cons, List.foldlM_cons, p.feed_reader]
      cases p.feed t with
      | none => rfl
      | some q => exact ih q

theorem Reads.tokens {ts : List Token} (h : p.Reads ts q) : q.tokens = p.tokens ++ ts := by
  induction ts generalizing p with
  | nil =>
      cases h
      rw [List.append_nil]
  | cons t ts ih =>
      rw [Reads, List.foldlM_cons] at h
      obtain ⟨r, hr, hrest⟩ := Option.bind_eq_some_iff.1 h
      rw [ih hrest, tokens_feed hr, List.append_assoc]
      rfl

/-- Only between functions is nothing open. -/
theorem finish?_reader (p : Stage) {tree : Node} :
    p.reader.finish? = some tree ↔ ∃ fs, p = outside fs ∧ (Derivation.start fs).image = tree := by
  cases p with
  | outside fs => simp [reader, Reader.finish?, Reader.lineOf_eq, Derivation.image]
  | statement scope before => simp [reader, Reader.finish?, scope.spot_reader]
  | operand hole => simp [reader, Reader.finish?, hole.spot_reader]
  | after hole a => cases a <;> simp [reader, Reader.finish?, Reader.goto, Derivation.spot]
  | param heading before => rcases before with _ | ⟨ps, comma⟩ <;> simp [reader, Reader.finish?]
  | _ => simp [reader, Reader.finish?, Reader.goto, Reader.enter]

end Stage

namespace Derivation

theorem reads_start (fs : Derivation .functions) :
    (Stage.outside .noFunctions).Reads (start fs).tokens (.outside fs) := fs.found

theorem parse?_eq_some_iff (ts : List Token) (tree : Node) :
    parse? ts = some tree ↔ ∃ d : Derivation .start, d.tokens = ts ∧ d.image = tree := by
  have hrun : parse? ts = ((ts.foldlM Stage.feed (.outside .noFunctions)).map Stage.reader).bind Reader.finish? :=
    congrArg (Option.bind · Reader.finish?) (Stage.foldlM_reader (.outside .noFunctions) ts)
  rw [hrun, Option.bind_map, Option.bind_eq_some_iff]
  constructor
  · rintro ⟨p, hreads, hfinish⟩
    obtain ⟨fs, rfl, himage⟩ := p.finish?_reader.1 hfinish
    exact ⟨.start fs, Stage.Reads.tokens hreads, himage⟩
  · rintro ⟨⟨fs⟩, rfl, himage⟩
    exact ⟨.outside fs, reads_start fs, (Stage.outside fs).finish?_reader.2 ⟨fs, rfl, himage⟩⟩

theorem tokens_injective : Function.Injective fun d : Derivation .start => d.tokens := by
  rintro ⟨fs⟩ ⟨fs'⟩ htokens
  have hreads := reads_start fs
  rw [show (start fs).tokens = (start fs').tokens from htokens, Stage.Reads, reads_start fs'] at hreads
  cases hreads
  rfl

end Derivation

/-! ### Texts -/

namespace Reader

/-- A text cut into tokens, each among the terminals that the reader tries at its place, and the state after the last. -/
inductive Cuts : Reader → Place → List Char → List Token → Reader → Prop
  | nil {s : Reader} {place : Place} : Cuts s place [] [] s
  | filler {s s' : Reader} {place : Place} {c : Char} {rest : List Char} {n : Nat} {ts : List Token}
      (hfirst : Lexeme.first? s.takes (c :: rest) = some (.filler n))
      (hrest : Cuts s (place.advance ((c :: rest).take n)) ((c :: rest).drop n) ts s') : Cuts s place (c :: rest) ts s'
  | token {s next s' : Reader} {place : Place} {c : Char} {rest : List Char} {terminal : Terminal} {n : Nat} {ts : List Token}
      (hfirst : Lexeme.first? s.takes (c :: rest) = some (.token terminal n))
      (hfeed : s.feed (tokenAt place terminal (c :: rest) n) = some next)
      (hrest : Cuts next (place.advance ((c :: rest).take n)) ((c :: rest).drop n) ts s') :
      Cuts s place (c :: rest) (tokenAt place terminal (c :: rest) n :: ts) s'

theorem Cuts.foldlM_feed {s s' : Reader} {place : Place} {text : List Char} {ts : List Token} (h : s.Cuts place text ts s') :
    ts.foldlM feed s = some s' := by
  induction h with
  | nil => rfl
  | filler hfirst hrest ih => exact ih
  | token hfirst hfeed hrest ih =>
      rw [List.foldlM_cons, hfeed]
      exact ih

theorem Cuts.read {s s' : Reader} {place : Place} {text : List Char} {ts : List Token} {tree : Node}
    (h : s.Cuts place text ts s') (hfinish : s'.finish? = some tree) (last : Place) : s.read last place text = .ok tree := by
  induction h generalizing last with
  | nil => rw [Reader.read, hfinish]
  | filler hfirst hrest ih =>
      unfold Reader.read
      split <;> simp_all
  | token hfirst hfeed hrest ih =>
      unfold Reader.read
      split <;> simp_all

theorem cuts_of_read {s : Reader} {last place : Place} {text : List Char} {tree : Node}
    (h : s.read last place text = .ok tree) : ∃ ts s', s.Cuts place text ts s' ∧ s'.finish? = some tree := by
  fun_induction Reader.read s last place text with
  | case1 s last place program hfinish =>
      cases h
      exact ⟨[], s, .nil, hfinish⟩
  | case2 s last place hfinish => cases h
  | case3 s last place c rest hfirst => cases h
  | case4 s last place c rest n hfirst ih =>
      obtain ⟨ts, s', hcuts, hfinish⟩ := ih h
      exact ⟨ts, s', .filler hfirst hcuts, hfinish⟩
  | case5 s last place c rest terminal n hfirst t hfeed => cases h
  | case6 s last place c rest terminal n hfirst t next hfeed ih =>
      obtain ⟨ts, s', hcuts, hfinish⟩ := ih h
      exact ⟨t :: ts, s', .token hfirst hfeed hcuts, hfinish⟩

end Reader

/-- The tokens that a text is cut into while it is read. -/
def Lexes (source : String) (ts : List Token) : Prop :=
  ∃ s, Reader.initial.Cuts Place.start source.toList ts s

theorem readProgram_eq_ok_iff (source : String) (tree : Node) :
    readProgram source = .ok tree ↔ ∃ ts, Lexes source ts ∧ parse? ts = some tree := by
  constructor
  · intro h
    obtain ⟨ts, s, hcuts, hfinish⟩ := Reader.cuts_of_read h
    refine ⟨ts, ⟨s, hcuts⟩, ?_⟩
    rw [parse?, hcuts.foldlM_feed]
    exact hfinish
  · rintro ⟨ts, ⟨s, hcuts⟩, hparse⟩
    rw [parse?, hcuts.foldlM_feed] at hparse
    exact hcuts.read hparse Place.start

/-- Exactly the sequences of tokens that have a derivation are programs, no two derivations have the same tokens, and the
program is what the derivation denotes. A source text is a program if its tokens are one. -/
theorem parses_exactly_derivations :
    (∀ ts tree, parse? ts = some tree ↔ ∃ d : Derivation .start, d.tokens = ts ∧ d.image = tree) ∧
      (Function.Injective fun d : Derivation .start => d.tokens) ∧
      ∀ source tree, readProgram source = .ok tree ↔
        ∃ d : Derivation .start, Lexes source d.tokens ∧ d.image = tree := by
  refine ⟨Derivation.parse?_eq_some_iff, Derivation.tokens_injective, fun source tree => ?_⟩
  rw [readProgram_eq_ok_iff]
  constructor
  · rintro ⟨ts, hlexes, hparse⟩
    obtain ⟨d, rfl, himage⟩ := (Derivation.parse?_eq_some_iff ts tree).1 hparse
    exact ⟨d, hlexes, himage⟩
  · rintro ⟨d, hlexes, himage⟩
    exact ⟨d.tokens, hlexes, (Derivation.parse?_eq_some_iff d.tokens tree).2 ⟨d, rfl, himage⟩⟩

end Rover
