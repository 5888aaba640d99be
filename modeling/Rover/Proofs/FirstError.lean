import Rover.Proofs.Cutting

/-!
# A text is refused at the first impossible token

Whatever has been read can be completed to a program (`Stage.completes`): open expressions, calls and blocks have an end, and
an operand can be a name. So the tokens in front of the place where a text is refused begin some program. A token that is named
in the refusal cannot come next in any program, since which terminals the reader takes does not depend on lines and texts.
-/

namespace Rover

/-! ### A token of each terminal -/

/-- Some token of a terminal. -/
def Terminal.sample : Terminal → Token
  | .float => ⟨.float, "0.0", 0, 0⟩
  | .name => ⟨.name, "x", 0, 0⟩
  | .string => ⟨.string, "\"\"", 0, 0⟩
  | .int => ⟨.int, "0", 0, 0⟩
  | .keyword k => ⟨.keyword k, k.spelling, 0, 0⟩
  | .mark m => ⟨.mark m, m.spelling, 0, 0⟩

namespace Terminal

theorem terminal_sample (k : Terminal) : k.sample.terminal = k := by
  cases k <;> rfl

end Terminal

/-! ### Completing what is under way -/

namespace Stage

/-- Some tokens lead to the end of a program. -/
def Completes (p : Stage) : Prop := ∃ ts fs, p.Reads ts (.outside fs)

theorem Completes.step {p q : Stage} (h : q.Completes) (k : Terminal) (hfeed : p.feed k.sample = some q) : p.Completes := by
  obtain ⟨ts, fs, hreads⟩ := h
  exact ⟨k.sample :: ts, fs, .cons hfeed hreads⟩

theorem completes_statement (scope : Scope) (before : Derivation .statements) : (statement scope before).Completes := by
  induction scope generalizing before with
  | function heading ps rpar => exact ⟨[(Terminal.keyword .kwEndfunc).sample], _, .single rfl⟩
  | thenPart outer done kwIf condition kwThen ih => exact (ih _).step (.keyword .kwEndif) rfl
  | elsePart outer done kwIf condition kwThen consequent kwElse ih => exact (ih _).step (.keyword .kwEndif) rfl
  | loop outer done kwWhile condition kwDo ih => exact (ih _).step (.keyword .kwEndwhile) rfl

/-- After an atom the whole expression can be ended. -/
theorem completes_after {level : Nat} {hole : Hole level} {a : Derivation .atom}
    (h : ∃ (k : Terminal) (p : Stage),
      (hole.finish (.atom a) hole.level_le).1.ended (hole.finish (.atom a) hole.level_le).2 k.sample k = some p ∧ p.Completes) :
    (after hole a).Completes := by
  obtain ⟨k, p, hended, hp⟩ := h
  obtain ⟨hlpar, hoperator⟩ := Host.terminal_of_ended hended
  rw [← k.terminal_sample] at hlpar hoperator
  refine hp.step k ?_
  simp only [feed_after hole a hlpar, feedAfter, hoperator]
  rw [k.terminal_sample]
  exact hended

end Stage

mutual

theorem Host.completes : (b : Host) → (e : Derivation (.expression 0)) →
    ∃ (k : Terminal) (p : Stage), b.ended e k.sample k = some p ∧ p.Completes
  | .assign .., _ => ⟨.mark .semicolon, _, rfl, Stage.completes_statement ..⟩
  | .ret .., _ => ⟨.mark .semicolon, _, rfl, Stage.completes_statement ..⟩
  | .write .., _ => ⟨.mark .semicolon, _, rfl, Stage.completes_statement ..⟩
  | .ifCondition .., _ => ⟨.keyword .kwThen, _, rfl, Stage.completes_statement ..⟩
  | .whileCondition .., _ => ⟨.keyword .kwDo, _, rfl, Stage.completes_statement ..⟩
  | .group hole _, _ => ⟨.mark .rpar, _, rfl, Stage.completes_after (hole.completes _ hole.level_le)⟩
  | .argument caller _, _ => ⟨.mark .rpar, _, rfl, caller.completes _ _⟩

theorem Caller.completes : (caller : Caller) → (es : Derivation .args) → (rpar : Leaf (.mark .rpar)) →
    (caller.called es rpar).Completes
  | .statement scope .., _, _ => (Stage.completes_statement scope _).step (.mark .semicolon) rfl
  | .operand hole .., _, _ => Stage.completes_after (hole.completes _ hole.level_le)

theorem Hole.completes : {level tight : Nat} → (hole : Hole level) → (e : Derivation (.expression tight)) → (h : level ≤ tight) →
    ∃ (k : Terminal) (p : Stage), (hole.finish e h).1.ended (hole.finish e h).2 k.sample k = some p ∧ p.Completes
  | _, _, .host b, e, h => b.completes (e.lift h)
  | _, _, .unary hole op mark, e, h => hole.completes (.unary op mark (e.lift h)) hole.level_le
  | _, _, .binary hole op fits left mark, e, h => hole.completes (.binary op left mark (e.lift h)) fits

end

namespace Stage

/-- Whatever is under way can be completed. -/
theorem completes (p : Stage) : p.Completes := by
  have hafter : ∀ {level : Nat} (hole : Hole level) (a : Derivation .atom), (after hole a).Completes :=
    fun hole a => completes_after (hole.completes _ hole.level_le)
  have hafterParam : ∀ (heading : Heading) (ps : Derivation .paramList), (afterParam heading ps).Completes :=
    fun heading ps => (completes_statement _ _).step (.mark .rpar) rfl
  have hparam : ∀ (heading : Heading) before, (param heading before).Completes := by
    intro heading before
    cases before <;> exact (hafterParam heading _).step .name rfl
  have hfirstArgument : ∀ caller, (firstArgument caller).Completes :=
    fun caller => (caller.completes .noArgs _).step (.mark .rpar) rfl
  have hparamsOpen : ∀ fs func name, (paramsOpen fs func name).Completes :=
    fun fs func name => (hparam _ _).step (.mark .lpar) rfl
  cases p with
  | outside fs => exact ⟨[], fs, .nil _⟩
  | functionName fs func => exact (hparamsOpen fs func _).step .name rfl
  | paramsOpen fs func name => exact hparamsOpen fs func name
  | param heading before => exact hparam heading before
  | refParam heading before ampersand => exact (hafterParam _ _).step .name rfl
  | afterParam heading ps => exact hafterParam heading ps
  | statement scope before => exact completes_statement scope before
  | afterTarget scope before name => exact (hfirstArgument _).step (.mark .lpar) rfl
  | readTarget scope before kwRead =>
      have hend : (readEnd scope before kwRead (Terminal.name.sample.as _)).Completes :=
        (completes_statement scope _).step (.mark .semicolon) rfl
      exact hend.step .name rfl
  | readEnd scope before kwRead name => exact (completes_statement scope _).step (.mark .semicolon) rfl
  | callEnd scope before name lpar es rpar => exact (completes_statement scope _).step (.mark .semicolon) rfl
  | returnOperand scope before kwReturn => exact (completes_statement scope _).step (.mark .semicolon) rfl
  | firstArgument caller => exact hfirstArgument caller
  | operand hole => exact (hafter hole _).step .name rfl
  | after hole a => exact hafter hole a

end Stage

/-! ### The terminals of a program -/

/-- Some program has these terminals. -/
def Accepted (ks : List Terminal) : Prop :=
  ∃ source tree ts, readProgram source = .ok tree ∧ Lexes source ts ∧ ts.map Token.terminal = ks

namespace Lexeme

end Lexeme

namespace Reader

/-- The way a text is refused, at a state and a place: it ends too early, the next token is not taken, or nothing that is
possible starts. -/
inductive Refuses (s : Reader) (last place : Place) : List Char → Rejection → Prop
  | ended (h : s.finish? = none) : Refuses s last place [] (.ended last)
  | token {rest : List Char} {k : Terminal} {n : Nat} (hfirst : Lexeme.first? s.takes rest = some (.token k n))
      (hfeed : s.feed (tokenAt place k rest n) = none) : Refuses s last place rest (.token (tokenAt place k rest n))
  | nothing {c : Char} {rest : List Char} (h : Lexeme.first? s.takes (c :: rest) = none) :
      Refuses s last place (c :: rest) (refuse place c rest)

/-- The place of the last of some tokens, or one given for none. -/
def lastPlace (place : Place) (ts : List Token) : Place := (ts.getLast?.map Token.place).getD place

/-- A text that is refused is cut into tokens up to the place where it is. -/
theorem refuses_of_read {s : Reader} {last place : Place} {text : List Char} {r : Rejection}
    (h : s.read last place text = .error r) :
    ∃ before rest ts s', text = before ++ rest ∧ s.Cut rest place before ts s' ∧
      s'.Refuses (lastPlace last ts) (place.advance before) rest r := by
  fun_induction Reader.read s last place text with
  | case1 s last place program hfinish => cases h
  | case2 s last place hfinish =>
      cases h
      exact ⟨[], [], [], s, rfl, .nil, .ended hfinish⟩
  | case3 s last place c rest hfirst =>
      cases h
      exact ⟨[], c :: rest, [], s, rfl, .nil, .nothing hfirst⟩
  | case4 s last place c rest n hfirst ih =>
      obtain ⟨f, rest', hcs, rfl⟩ := Lexeme.exists_append_of_first? hfirst
      rw [hcs] at h hfirst ih ⊢
      rw [List.take_left, List.drop_left] at h ih
      obtain ⟨before, after, ts, s', rfl, hcut, hrefuses⟩ := ih h
      rw [← Place.advance_append] at hrefuses
      exact ⟨f ++ before, after, ts, s', (List.append_assoc ..).symm, .filler hfirst hcut, hrefuses⟩
  | case5 s last place c rest terminal n hfirst t hfeed =>
      cases h
      exact ⟨[], c :: rest, [], s, rfl, .nil, .token hfirst hfeed⟩
  | case6 s last place c rest terminal n hfirst t next hfeed ih =>
      obtain ⟨x, rest', hcs, rfl⟩ := Lexeme.exists_append_of_first? hfirst
      have hfeed' : s.feed (tokenAt place terminal (c :: rest) x.length) = some next := hfeed
      rw [hcs] at h hfirst hfeed' ih ⊢
      rw [List.take_left, List.drop_left] at h ih
      rw [tokenAt_append] at hfeed'
      obtain ⟨before, after, ts, s', rfl, hcut, hrefuses⟩ := ih h
      rw [← Place.advance_append] at hrefuses
      refine ⟨x ++ before, after, _, s', (List.append_assoc ..).symm, .token hfirst hfeed' hcut, ?_⟩
      cases ts <;> exact hrefuses

end Reader

theorem refuse_cases (place : Place) (c : Char) (rest : List Char) :
    (∃ k n, Lexeme.first? (fun _ => true) (c :: rest) = some (.token k n) ∧
      refuse place c rest = .token (tokenAt place k (c :: rest) n)) ∨ refuse place c rest = .character c place := by
  unfold refuse
  split
  · rename_i k n hall
    exact .inl ⟨k, n, hall, rfl⟩
  · exact .inr rfl

/-- Where the end is refused, something has been read. -/
theorem Reader.exists_last {ts : List Token} {s : Reader} (hs : ts.foldlM feed initial = some s) (h : s.finish? = none)
    (place : Place) : ∃ t ∈ ts.getLast?, lastPlace place ts = t.place := by
  cases hlast : ts.getLast? with
  | none =>
      rw [List.getLast?_eq_none_iff.1 hlast] at hs
      cases hs
      cases h
  | some t => exact ⟨t, rfl, by rw [lastPlace, hlast, Option.map_some, Option.getD_some]⟩

end Rover
