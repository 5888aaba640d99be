import Rover.Proofs.Lexing

/-!
# Cutting a text into tokens

How a text is cut into tokens, beyond the choice of a single lexeme. What stands before a place is cut in the same way
whatever comes after it, as long as the first character after it ends the last token (`Reader.Cut.before_layout`); what stands
after a place is cut in the same way wherever it begins (`Reader.Cuts.relocate`). Tokens that the reader takes one after the
other are found again in the text that has them with blanks between (`readProgram_spaced`).

The only characters that would need more than one to look ahead are those that could make a number longer or a stroke a
comment, and they cannot start anything where they could do so (`Reader.first?_of_tempts`).
-/

namespace Rover

/-! ### Fillers -/

namespace Lexeme

variable {possible : Terminal → Bool}

/-- A block comment ends at its first end mark. -/
theorem blockEndLength_append {body : List Char} (h : ¬ ['*', '/'] <:+: body) (rest : List Char) :
    blockEndLength (body ++ '*' :: '/' :: rest) = body.length + 2 := by
  induction body with
  | nil => rfl
  | cons c body ih =>
      have hend : ¬ (c = '*' ∧ (body ++ '*' :: '/' :: rest).head? = some '/') := by
        rintro ⟨rfl, hhead⟩
        cases body with
        | nil => cases hhead
        | cons d body =>
            cases hhead
            exact h ⟨[], body, rfl⟩
      rw [List.cons_append, blockEndLength, if_neg hend, ih fun hinfix => h (List.infix_cons hinfix)]
      rfl

theorem exists_of_blockEndLength {cs : List Char} (h : blockEndLength cs ≠ 0) :
    ∃ body rest, cs = body ++ '*' :: '/' :: rest ∧ blockEndLength cs = body.length + 2 ∧ ¬ ['*', '/'] <:+: body := by
  induction cs with
  | nil => exact absurd rfl h
  | cons c cs ih =>
      by_cases hend : c = '*' ∧ cs.head? = some '/'
      · obtain ⟨rfl, hhead⟩ := hend
        obtain ⟨rest, rfl⟩ := List.head?_eq_some_iff.1 hhead
        exact ⟨[], rest, rfl, rfl, by simp⟩
      · have hne : blockEndLength cs ≠ 0 := by
          intro hzero
          simp [blockEndLength, hend, hzero] at h
        obtain ⟨body, rest, rfl, hlength, hinfix⟩ := ih hne
        refine ⟨c :: body, rest, rfl, ?_, ?_⟩
        · rw [blockEndLength, if_neg hend, hlength]
          rfl
        · rw [List.infix_cons_iff]
          rintro (hstarts | hbody)
          · obtain ⟨more, hmore⟩ := hstarts
            cases hmore
            exact hend ⟨rfl, rfl⟩
          · exact hinfix hbody

theorem exists_of_run (p : Char → Bool) (cs : List Char) :
    ∃ f rest, cs = f ++ rest ∧ f.length = run p cs ∧ ∀ rest', rest'.head? = rest.head? → run p (f ++ rest') = f.length := by
  obtain ⟨hle, htake, hdrop⟩ := run_spec p cs
  refine ⟨cs.take (run p cs), cs.drop (run p cs), (List.take_append_drop _ _).symm, List.length_take_of_le hle, ?_⟩
  intro rest' hhead
  exact run_append htake (hhead ▸ hdrop)

/-- What is skipped at the start of a text depends on no more than the character after it. -/
theorem exists_of_fillerLength {cs : List Char} (h : fillerLength cs ≠ 0) :
    ∃ f rest, cs = f ++ rest ∧ f.length = fillerLength cs ∧
      ∀ rest', rest'.head? = rest.head? → fillerLength (f ++ rest') = f.length := by
  cases cs with
  | nil => exact absurd rfl h
  | cons c cs =>
      by_cases hc : c = '/'
      · subst hc
        have hopen : ∃ d ds, cs = d :: ds ∧ (d = '/' ∨ d = '*') := by
          by_contra hnone
          refine h (fillerLength_slash fun d hd => ?_)
          obtain ⟨ds, rfl⟩ := List.head?_eq_some_iff.1 hd
          exact ⟨fun heq => hnone ⟨d, ds, rfl, .inl heq⟩, fun heq => hnone ⟨d, ds, rfl, .inr heq⟩⟩
        obtain ⟨d, ds, rfl, rfl | rfl⟩ := hopen
        · obtain ⟨f, rest, rfl, hlength, hf⟩ := exists_of_run (· != '\n') ds
          refine ⟨'/' :: '/' :: f, rest, rfl, ?_, fun rest' hhead => ?_⟩
          · simp only [fillerLength, List.length_cons, hlength]
            omega
          · simp only [fillerLength, List.cons_append, List.length_cons, hf rest' hhead]
            omega
        · have hne : blockEndLength ds ≠ 0 := by
            intro hzero
            simp [fillerLength, hzero] at h
          obtain ⟨body, rest, rfl, hlength, hinfix⟩ := exists_of_blockEndLength hne
          refine ⟨'/' :: '*' :: (body ++ ['*', '/']), rest, by simp, ?_, fun rest' hhead => ?_⟩
          · simp [fillerLength, hlength]
          · simp [fillerLength, blockEndLength_append hinfix]
      · rw [fillerLength_of_ne hc] at h ⊢
        obtain ⟨f, rest, hcs, hlength, hf⟩ := exists_of_run isLayout (c :: cs)
        refine ⟨f, rest, hcs, hlength, fun rest' hhead => ?_⟩
        cases f with
        | nil => exact absurd hlength.symm h
        | cons d f =>
            rw [List.cons_append, fillerLength_of_ne (fun hd => hc ((List.cons.inj hcs).1.trans hd)), ← List.cons_append,
              hf rest' hhead]

theorem fillerLength_of_first? {cs : List Char} {n : Nat} (h : first? possible cs = some (.filler n)) :
    fillerLength cs = n ∧ 0 < n := by
  have htoken : ∀ {k m}, token? possible k m ≠ some (.filler n) := by
    intro k m htoken
    cases (token?_eq_some.1 htoken).2.2
  rw [first?_eq] at h
  simp only [Option.or_eq_some_iff, htoken, false_or] at h
  rcases h with ⟨-, h | ⟨-, -, h | ⟨-, -, h | ⟨-, h⟩⟩⟩⟩
  · simp only [name?] at h
    split_ifs at h
    cases h
  · simp only [filler?] at h
    split_ifs at h with hpos
    cases h
    exact ⟨rfl, hpos⟩
  · obtain ⟨_, _, _, _, hk, _⟩ := List.findSome?_eq_some_iff.1 h
    exact absurd hk htoken
  · obtain ⟨_, _, _, _, hm, _⟩ := List.findSome?_eq_some_iff.1 h
    exact absurd hm htoken

theorem class_of_fillerLength {c : Char} {cs : List Char} (h : 0 < fillerLength (c :: cs)) :
    isDecimalDigit c = false ∧ isNameStart c = false ∧ c ≠ '"' := by
  by_cases hslash : c = '/'
  · subst hslash
    decide
  · have hlayout : isLayout c = true := by
      by_contra hc
      rw [fillerLength_of_head (by simpa using hc) hslash] at h
      exact Nat.lt_irrefl 0 h
    obtain ⟨hdigit, hname, -, hquote, -⟩ := class_of_isLayout hlayout
    exact ⟨hdigit, hname, hquote⟩

/-- What can be skipped is. -/
theorem first?_of_fillerLength {cs : List Char} (h : 0 < fillerLength cs) :
    first? possible cs = some (.filler (fillerLength cs)) := by
  cases cs with
  | nil => exact absurd h (Nat.lt_irrefl 0)
  | cons c cs =>
      obtain ⟨hdigit, hname, hquote⟩ := class_of_fillerLength h
      rw [first?_eq, floatLength_of_head hdigit, name?_of_head hname, stringLength_of_head hquote, token?_zero, token?_zero,
        filler?, if_pos h]
      rfl

theorem first?_filler_congr {f rest rest' : List Char} (h : first? possible (f ++ rest) = some (.filler f.length))
    (hhead : rest'.head? = rest.head?) : first? possible (f ++ rest') = some (.filler f.length) := by
  obtain ⟨hlength, hpos⟩ := fillerLength_of_first? h
  obtain ⟨g, rest₀, hcs, hg, hcongr⟩ := exists_of_fillerLength (hlength ▸ Nat.ne_of_gt hpos)
  obtain ⟨rfl, rfl⟩ := List.append_inj hcs (hlength.symm.trans hg.symm)
  have hlength' := hcongr rest' hhead
  rw [first?_of_fillerLength (hlength' ▸ hpos), hlength']

theorem ne_nil_of_first? {cs x : List Char} {l : Lexeme} (h : first? possible cs = some l) (hlength : l.length = x.length) :
    x ≠ [] := by
  have hpos := length_pos_of_first? h
  exact List.ne_nil_of_length_pos (hlength ▸ hpos)

/-- A lexeme is a part of the text. -/
theorem exists_append_of_first? {cs : List Char} {l : Lexeme} (h : first? possible cs = some l) :
    ∃ x rest, cs = x ++ rest ∧ l.length = x.length := by
  cases l with
  | filler n =>
      obtain ⟨hn, hpos⟩ := fillerLength_of_first? h
      obtain ⟨f, rest, hcs, hlength, -⟩ := exists_of_fillerLength (hn.symm ▸ Nat.ne_of_gt hpos)
      exact ⟨f, rest, hcs, hn.symm.trans hlength.symm⟩
  | token k n =>
      obtain ⟨x, rest, hcs, hlength, -⟩ := spells_of_first? h
      exact ⟨x, rest, hcs, hlength.symm⟩

theorem spells_of_first?_append {x rest : List Char} {k : Terminal}
    (h : first? possible (x ++ rest) = some (.token k x.length)) :
    possible k = true ∧ k.Spells x ∧ (k = .name → ∀ k', possible (.keyword k') = true → k'.spelling.toList ≠ x) ∧
      ∀ c ∈ rest.head?, k.Stops possible c := by
  obtain ⟨x', rest', hcs, hlength, hspells⟩ := spells_of_first? h
  obtain ⟨rfl, rfl⟩ := List.append_inj hcs hlength.symm
  exact hspells

/-- A blank ends every token. -/
theorem ends_of_isLayout {c : Char} (h : isLayout c = true) (k : Terminal) : k.Ends possible c := by
  obtain ⟨hdigit, -, hpart, -, hslash, hstar, -, hpoint, he, hE⟩ := class_of_isLayout h
  cases k with
  | float => exact ⟨hdigit, fun htempts => htempts.elim he hE⟩
  | name => exact ⟨hpart, fun htempts => htempts⟩
  | string => exact ⟨trivial, fun htempts => htempts⟩
  | int => exact ⟨hdigit, fun htempts => htempts.elim hpoint (·.elim he hE)⟩
  | keyword k => exact ⟨fun _ => hpart, fun htempts => htempts⟩
  | mark m =>
      refine ⟨⟨fun _ => hslash, fun m' _ hspelling => ?_⟩, fun htempts => hstar htempts.2⟩
      have hmark : m'.spelling.toList.all (fun d => !isLayout d) = true := by
        cases m' <;> decide
      have hc := List.all_eq_true.1 hmark c (hspelling ▸ List.mem_append_right _ List.mem_cons_self)
      rw [h] at hc
      cases hc

end Lexeme

/-! ### First characters -/

/-- The characters that a terminal can start with. -/
def Terminal.Starts (c : Char) : Terminal → Prop
  | .float => isDecimalDigit c = true
  | .name => Lexeme.isNameStart c = true
  | .string => c = '"'
  | .int => isDecimalDigit c = true
  | .keyword k => k.spelling.toList.head? = some c
  | .mark m => m.spelling.toList.head? = some c

instance (c : Char) : DecidablePred (Terminal.Starts c)
  | .float => inferInstanceAs (Decidable (_ = _))
  | .name => inferInstanceAs (Decidable (_ = _))
  | .string => inferInstanceAs (Decidable (_ = _))
  | .int => inferInstanceAs (Decidable (_ = _))
  | .keyword _ => inferInstanceAs (Decidable (_ = _))
  | .mark _ => inferInstanceAs (Decidable (_ = _))

theorem Terminal.Spells.starts {k : Terminal} {text : List Char} (h : k.Spells text) :
    ∃ c cs, text = c :: cs ∧ k.Starts c := by
  have hdigits : ∀ {whole : List Char}, Lexeme.IsDigits whole → ∃ d ds, whole = d :: ds ∧ isDecimalDigit d = true := by
    intro whole hwhole
    obtain ⟨d, ds, rfl⟩ := List.exists_cons_of_ne_nil hwhole.1
    exact ⟨d, ds, rfl, hwhole.2 d List.mem_cons_self⟩
  cases k with
  | float =>
      cases h with
      | point hwhole _ _ =>
          obtain ⟨d, ds, rfl, hd⟩ := hdigits hwhole
          exact ⟨d, _, rfl, hd⟩
      | exponent hwhole _ =>
          obtain ⟨d, ds, rfl, hd⟩ := hdigits hwhole
          exact ⟨d, _, rfl, hd⟩
  | name =>
      obtain ⟨c, cs, rfl, hc, -⟩ := h
      exact ⟨c, cs, rfl, hc⟩
  | string =>
      obtain ⟨content, -, rfl⟩ := h
      exact ⟨_, _, rfl, rfl⟩
  | int => exact hdigits h
  | keyword k =>
      subst h
      cases k <;> exact ⟨_, _, rfl, rfl⟩
  | mark m =>
      subst h
      cases m <;> exact ⟨_, _, rfl, rfl⟩

theorem Lexeme.first?_eq_none {possible : Terminal → Bool} {c : Char} (h : ∀ k, possible k = true → ¬ k.Starts c)
    (hlayout : isLayout c = false) (hslash : c ≠ '/') (cs : List Char) : first? possible (c :: cs) = none := by
  cases hfirst : first? possible (c :: cs) with
  | none => rfl
  | some l =>
      cases l with
      | filler n =>
          obtain ⟨hlength, hpos⟩ := fillerLength_of_first? hfirst
          rw [fillerLength_of_head hlayout hslash] at hlength
          omega
      | token k n =>
          obtain ⟨text, rest, hcs, -, hpossible, htext, -⟩ := spells_of_first? hfirst
          obtain ⟨d, ds, rfl, hd⟩ := htext.starts
          cases (List.cons.inj hcs).1
          exact absurd hd (h k hpossible)

/-! ### What the reader tries -/

namespace Reader

variable {s s' : Reader} {t : Token}

theorem mem_blockEnds {k : Keyword} (fresh : Bool) (h : s.closeBlock k = some s') : k ∈ blockEnds fresh s.spine := by
  unfold closeBlock at h
  split at h
  case h_6 => cases h
  all_goals
    rename_i hspine
    cases fresh <;> simp [blockEnds, closers, hspine]

theorem startsStatement_of_feed (fresh : Bool) (h : s.feedStatement t = some s') :
    startsStatement t.terminal = true ∨ ∃ k, t.terminal = .keyword k ∧ k ∈ blockEnds fresh s.spine := by
  unfold feedStatement at h
  split at h
  case h_8 k _ _ _ _ _ heq => exact .inr ⟨k, heq, mem_blockEnds fresh h⟩
  case h_9 => cases h
  all_goals
    rename_i heq
    rw [heq]
    exact .inl rfl

theorem startsOperand_of_feed (h : s.feedOperand t = some s') : startsOperand t.terminal = true := by
  unfold feedOperand at h
  split at h
  case h_8 =>
    unfold unaryKind? at h
    split at h
    case h_4 => cases h
    all_goals
      rename_i heq
      rw [heq]
      rfl
  all_goals
    rename_i heq
    rw [heq]
    rfl

theorem followsOperand_of_feed {operand : Node} (h : s.feedAfterOperand operand t = some s') :
    followsOperand t.terminal = true := by
  unfold feedAfterOperand at h
  split at h
  · rename_i hkind
    simp [followsOperand, hkind]
  · unfold feedEnd at h
    dsimp only at h
    split at h
    case h_9 => cases h
    all_goals
      rename_i hterminal
      simp [followsOperand, hterminal]

theorem isParam_of_feed {header : Header} (h : s.feedParam header t = some s') :
    t.terminal = .mark .ampersand ∨ t.terminal = .name := by
  unfold feedParam at h
  split at h
  · rename_i hterminal
    exact .inr hterminal
  · rename_i hterminal
    exact .inl hterminal
  · cases h

/-- Only terminals that are tried are taken. -/
theorem takes_of_feed (h : s.feed t = some s') : s.takes t.terminal = true := by
  unfold feed at h
  split at h
  case h_5 hspot _ => rcases isParam_of_feed h with hterminal | hterminal <;> simp [takes, hspot, hterminal]
  case h_6 hspot => rcases isParam_of_feed h with hterminal | hterminal <;> simp [takes, hspot, hterminal]
  case h_10 fresh hspot =>
    rcases startsStatement_of_feed fresh h with hstarts | ⟨k, hterminal, hk⟩
    · simp [takes, hspot, hstarts]
    · simp [takes, hspot, hterminal, hk]
  case h_16 hspot _ => simp [takes, hspot, startsOperand_of_feed h]
  case h_17 hspot => simp [takes, hspot, startsOperand_of_feed h]
  case h_19 hspot _ => simp [takes, hspot, startsOperand_of_feed h]
  case h_21 hspot _ => simp [takes, hspot, followsOperand_of_feed h]
  case h_22 hspot => simp [takes, hspot, followsOperand_of_feed h]
  case h_23 => cases h
  all_goals
    rename_i hspot hterminal
    simp [takes, hspot, hterminal]

/-- After a number stands what can follow an operand. -/
theorem spot_of_feed_number (h : s.feed t = some s') (ht : t.terminal = .int ∨ t.terminal = .float) :
    ∃ operand, s'.spot = .afterOperand operand := by
  have hoperand : ∀ {s'}, s.feedOperand t = some s' → ∃ operand, s'.spot = .afterOperand operand := by
    intro s' h
    rcases ht with ht | ht <;> rw [feedOperand, ht] at h <;> cases h <;> exact ⟨_, rfl⟩
  have hend : ∀ operand, s.feedAfterOperand operand t = none := by
    intro operand
    rcases ht with ht | ht <;> simp [feedAfterOperand, feedEnd, binaryKind?, ht]
  unfold feed at h
  split at h
  case h_16 => exact hoperand h
  case h_17 => exact hoperand h
  case h_19 => exact hoperand h
  case h_21 => cases (hend _).symm.trans h
  case h_22 => cases (hend _).symm.trans h
  all_goals rcases ht with ht | ht <;> simp_all [feedParam, feedStatement]

/-- After a stroke stands an operand. -/
theorem spot_of_feed_slash (h : s.feed t = some s') (ht : t.terminal = .mark .slash) : s'.spot = .operand := by
  have hoperator : ∀ {operand s'}, s.feedAfterOperand operand t = some s' → s'.spot = .operand := by
    intro operand s' h
    rw [feedAfterOperand, ht] at h
    cases h
    rfl
  unfold feed at h
  split at h
  case h_21 => exact hoperator h
  case h_22 => exact hoperator h
  all_goals simp_all [feedParam, feedStatement, feedOperand, unaryKind?]

/-- Where a number or a stroke could go on, nothing else starts. -/
theorem first?_of_tempts {c : Char} (h : s.feed t = some s') (hc : t.terminal.Tempts c) (cs : List Char) :
    Lexeme.first? s'.takes (c :: cs) = none := by
  have hnumber : (t.terminal = .int ∨ t.terminal = .float) → (c = '.' ∨ c = 'e' ∨ c = 'E') →
      Lexeme.first? s'.takes (c :: cs) = none := by
    intro ht hc
    obtain ⟨operand, hspot⟩ := spot_of_feed_number h ht
    refine Lexeme.first?_eq_none (fun k hk => ?_) ?_ ?_ cs
    · simp only [takes, hspot] at hk
      cases k with
      | keyword k => rcases hc with rfl | rfl | rfl <;> cases k <;> revert hk <;> decide
      | mark m => rcases hc with rfl | rfl | rfl <;> cases m <;> decide
      | _ => cases hk
    · rcases hc with rfl | rfl | rfl <;> decide
    · rcases hc with rfl | rfl | rfl <;> decide
  cases hterminal : t.terminal with
  | float =>
      rw [hterminal] at hc
      exact hnumber (.inr hterminal) (.inr hc)
  | int =>
      rw [hterminal] at hc
      exact hnumber (.inl hterminal) hc
  | mark m =>
      rw [hterminal] at hc
      obtain ⟨rfl, rfl⟩ := hc
      refine Lexeme.first?_eq_none (fun k hk => ?_) (by decide) (by decide) cs
      simp only [takes, spot_of_feed_slash h hterminal] at hk
      cases k with
      | keyword k => cases k <;> decide
      | mark m => cases m <;> revert hk <;> decide
      | _ => decide
  | _ =>
      rw [hterminal] at hc
      exact hc.elim

end Reader

/-! ### Places -/

namespace Place

theorem advance_append (p : Place) (cs ds : List Char) : p.advance (cs ++ ds) = (p.advance cs).advance ds :=
  List.foldl_append

/-- A line ends with each newline. -/
theorem line_advance (p : Place) (cs : List Char) : (p.advance cs).line = p.line + cs.count '\n' := by
  induction cs generalizing p with
  | nil => rfl
  | cons c cs ih =>
      have hnext : (p.next c).line = p.line + if c == '\n' then 1 else 0 := by
        unfold next
        by_cases hc : c = '\n' <;> simp [hc]
      rw [show p.advance (c :: cs) = (p.next c).advance cs from rfl, ih, List.count_cons, hnext]
      omega

theorem le_advance (p : Place) (cs : List Char) :
    p.line < (p.advance cs).line ∨ p.line = (p.advance cs).line ∧ p.column + cs.length ≤ (p.advance cs).column := by
  induction cs generalizing p with
  | nil => exact .inr ⟨rfl, Nat.le_refl _⟩
  | cons c cs ih =>
      have hcs := ih (p.next c)
      rw [show p.advance (c :: cs) = (p.next c).advance cs from rfl, List.length_cons]
      unfold next at hcs ⊢
      split_ifs at hcs ⊢ <;> simp only at hcs <;> omega

/-- Different places of a text are told apart by their lines and columns. -/
theorem eq_nil_of_advance {p : Place} {cs : List Char} (h : p.advance cs = p) : cs = [] := by
  have hle := p.le_advance cs
  rw [h] at hle
  exact List.length_eq_zero_iff.1 (by omega)

theorem advance_injective {p : Place} {cs ds rest rest' : List Char} (htext : cs ++ rest = ds ++ rest')
    (h : p.advance cs = p.advance ds) : cs = ds ∧ rest = rest' := by
  rcases List.append_eq_append_iff.1 htext with ⟨more, rfl, rfl⟩ | ⟨more, rfl, rfl⟩
  · rw [advance_append] at h
    cases eq_nil_of_advance h.symm
    exact ⟨(List.append_nil _).symm, rfl⟩
  · rw [advance_append] at h
    cases eq_nil_of_advance h
    exact ⟨List.append_nil _, rfl⟩

/-- The token of a text at a place. -/
def token (p : Place) (terminal : Terminal) (text : List Char) : Token := ⟨terminal, String.ofList text, p.line, p.column⟩

end Place

theorem tokenAt_append (place : Place) (terminal : Terminal) (text rest : List Char) :
    tokenAt place terminal (text ++ rest) text.length = place.token terminal text := by
  rw [tokenAt, List.take_left, Place.token]

namespace Token

/-- The place where a token starts. -/
def place (t : Token) : Place := ⟨t.line, t.column⟩

/-- The place just after a token. -/
def stop (t : Token) : Place := t.place.advance t.text.toList

end Token

/-- The place just after the last of some tokens, or one given for none. -/
def Place.after (p : Place) (ts : List Token) : Place := (ts.getLast?.map Token.stop).getD p

namespace Place

theorem after_cons (p : Place) (t : Token) (ts : List Token) : p.after (t :: ts) = t.stop.after ts := by
  cases ts <;> rfl

theorem stop_token (p : Place) (k : Terminal) (x : List Char) : (p.token k x).stop = p.advance x := by
  rw [Token.stop, token, Token.place, String.toList_ofList]

end Place

/-! ### Taking the same token twice -/

/-- Everything but the lines. -/
theorem congruent_lines : Congruent (fun _ _ => True) Eq := ⟨trivial, fun _ => rfl, fun h => h ▸ rfl⟩

theorem Congruent.exists_feed {L : Int → Int → Prop} {X : String → String → Prop} (hC : Congruent L X) {s s' next : Reader}
    {t t' : Token} (hs : s.Alike L X s') (ht : t.Alike L X t') (h : s.feed t = some next) :
    ∃ next', s'.feed t' = some next' ∧ next.Alike L X next' := by
  have hrel := hC.feed hs ht
  rw [h] at hrel
  generalize s'.feed t' = fed at hrel
  cases hrel with
  | some hnext => exact ⟨_, rfl, hnext⟩

theorem Congruent.alike_self {L : Int → Int → Prop} {X : String → String → Prop} (hC : Congruent L X) (hL : ∀ l, L l l)
    {ts : List Token} {s : Reader} (h : ts.foldlM Reader.feed Reader.initial = some s) : s.Alike L X s := by
  have hrel := hC.foldlM_feed (List.forall₂_same.2 fun t (_ : t ∈ ts) => ⟨rfl, hL _, hC.text_refl _⟩) Reader.alike_initial
  rw [h] at hrel
  cases hrel with
  | some hs => exact hs

theorem Congruent.exists_parse? {L : Int → Int → Prop} {X : String → String → Prop} (hC : Congruent L X) {ts ts' : List Token}
    {tree : Node} (hts : List.Forall₂ (Token.Alike L X) ts ts') (h : parse? ts = some tree) :
    ∃ tree', parse? ts' = some tree' ∧ tree.Alike L X tree' := by
  have hrel := hC.parse?_alike hts
  rw [h] at hrel
  generalize parse? ts' = parsed at hrel
  cases hrel with
  | some htree => exact ⟨_, rfl, htree⟩

/-! ### Cutting a part of a text -/

namespace Reader

/-- The first part of a text cut into tokens, each among the terminals that the reader tries at its place, and the state
after the last; `rest` is what follows the part. -/
inductive Cut (rest : List Char) : Reader → Place → List Char → List Token → Reader → Prop
  | nil {s : Reader} {place : Place} : Cut rest s place [] [] s
  | filler {s s' : Reader} {place : Place} {f text : List Char} {ts : List Token}
      (hfirst : Lexeme.first? s.takes (f ++ (text ++ rest)) = some (.filler f.length))
      (htext : Cut rest s (place.advance f) text ts s') : Cut rest s place (f ++ text) ts s'
  | token {s next s' : Reader} {place : Place} {x text : List Char} {k : Terminal} {ts : List Token}
      (hfirst : Lexeme.first? s.takes (x ++ (text ++ rest)) = some (.token k x.length))
      (hfeed : s.feed (place.token k x) = some next) (htext : Cut rest next (place.advance x) text ts s') :
      Cut rest s place (x ++ text) (place.token k x :: ts) s'

variable {s s' r : Reader} {place : Place} {text rest : List Char} {ts us : List Token}

theorem Cut.foldlM_feed (h : s.Cut rest place text ts s') : ts.foldlM feed s = some s' := by
  induction h with
  | nil => rfl
  | filler hfirst htext ih => exact ih
  | token hfirst hfeed htext ih =>
      rw [List.foldlM_cons, hfeed]
      exact ih

/-- Something is cut off at the start. -/
theorem Cut.first?_ne_none (h : s.Cut rest place text ts s') (hne : text ≠ []) :
    Lexeme.first? s.takes (text ++ rest) ≠ none := by
  cases h with
  | nil => exact absurd rfl hne
  | filler hfirst htext => simp [hfirst]
  | token hfirst hfeed htext => simp [hfirst]

theorem Cuts.filler_append {f : List Char} (hfirst : Lexeme.first? s.takes (f ++ rest) = some (.filler f.length))
    (h : s.Cuts (place.advance f) rest ts s') : s.Cuts place (f ++ rest) ts s' := by
  cases f with
  | nil => exact absurd (Lexeme.length_pos_of_first? hfirst) (Nat.lt_irrefl 0)
  | cons c f =>
      show s.Cuts place (c :: (f ++ rest)) ts s'
      refine .filler hfirst ?_
      rw [← List.cons_append, List.take_left, List.drop_left]
      exact h

theorem Cuts.token_append {x : List Char} {k : Terminal} {next : Reader}
    (hfirst : Lexeme.first? s.takes (x ++ rest) = some (.token k x.length)) (hfeed : s.feed (place.token k x) = some next)
    (h : next.Cuts (place.advance x) rest ts s') : s.Cuts place (x ++ rest) (place.token k x :: ts) s' := by
  cases x with
  | nil => exact absurd (Lexeme.length_pos_of_first? hfirst) (Nat.lt_irrefl 0)
  | cons c x =>
      rw [← tokenAt_append place k (c :: x) rest] at hfeed ⊢
      show s.Cuts place (c :: (x ++ rest)) (tokenAt place k (c :: (x ++ rest)) (c :: x).length :: ts) s'
      refine .token hfirst hfeed ?_
      rw [← List.cons_append, List.take_left, List.drop_left]
      exact h

/-- A text is cut in one way only. -/
theorem Cuts.unique (h : s.Cuts place text ts s') (h' : s.Cuts place text us r) : us = ts := by
  induction h generalizing us with
  | nil =>
      cases h'
      rfl
  | filler hfirst hrest ih =>
      cases h' with
      | filler hfirst' hrest' =>
          cases hfirst.symm.trans hfirst'
          exact ih hrest'
      | token hfirst' hfeed' hrest' => cases hfirst.symm.trans hfirst'
  | token hfirst hfeed hrest ih =>
      cases h' with
      | filler hfirst' hrest' => cases hfirst.symm.trans hfirst'
      | token hfirst' hfeed' hrest' =>
          cases hfirst.symm.trans hfirst'
          cases hfeed.symm.trans hfeed'
          rw [ih hrest']

/-- What follows the first part is cut as a text of its own. -/
theorem Cut.append (h : s.Cut rest place text ts r) (hrest : r.Cuts (place.advance text) rest us s') :
    s.Cuts place (text ++ rest) (ts ++ us) s' := by
  induction h with
  | nil => exact hrest
  | filler hfirst _ ih =>
      rw [Place.advance_append] at hrest
      rw [List.append_assoc]
      exact .filler_append hfirst (ih hrest)
  | token hfirst hfeed _ ih =>
      rw [Place.advance_append] at hrest
      rw [List.append_assoc]
      exact .token_append hfirst hfeed (ih hrest)

/-- A text that is cut is cut as the first part of itself. -/
theorem Cuts.cut (h : s.Cuts place text ts s') : s.Cut [] place text ts s' := by
  induction h with
  | nil => exact .nil
  | @filler s s' place c cs n ts hfirst hrest ih =>
      obtain ⟨f, rest, hcs, rfl⟩ := Lexeme.exists_append_of_first? hfirst
      rw [hcs] at hfirst ih ⊢
      rw [List.take_left, List.drop_left] at ih
      exact .filler (by rwa [List.append_nil]) ih
  | @token s next s' place c cs k n ts hfirst hfeed hrest ih =>
      obtain ⟨x, rest, hcs, rfl⟩ := Lexeme.exists_append_of_first? hfirst
      rw [hcs] at hfirst hfeed ih ⊢
      rw [tokenAt_append] at hfeed ⊢
      rw [List.take_left, List.drop_left] at ih
      exact .token (by rwa [List.append_nil]) hfeed ih

theorem Cut.cuts (h : s.Cut [] place text ts s') : s.Cuts place text ts s' := by
  have hwhole := h.append .nil
  rwa [List.append_nil, List.append_nil] at hwhole

/-- A text that is cut into tokens is cut in two just after any of them. -/
theorem Cuts.split (h : s.Cuts place text (ts ++ us) s') :
    ∃ before rest r, text = before ++ rest ∧ place.advance before = place.after ts ∧ s.Cut rest place before ts r ∧
      r.Cuts (place.advance before) rest us s' := by
  have hcut := h.cut
  generalize hall : ts ++ us = all at hcut
  clear h
  induction hcut generalizing ts with
  | nil =>
      obtain ⟨rfl, rfl⟩ := List.append_eq_nil_iff.1 hall
      exact ⟨[], [], _, rfl, rfl, .nil, .nil⟩
  | @filler s s' place f text all hfirst htext ih =>
      cases ts with
      | nil =>
          subst hall
          exact ⟨[], f ++ text, s, rfl, rfl, .nil, (Cut.filler hfirst htext).cuts⟩
      | cons t ts =>
          obtain ⟨before, rest, r, rfl, hplace, hbefore, hrest⟩ := ih hall
          rw [List.append_nil] at hfirst
          rw [← Place.advance_append] at hplace hrest
          exact ⟨f ++ before, rest, r, (List.append_assoc ..).symm, hplace, .filler hfirst hbefore, hrest⟩
  | @token s next s' place x text k all hfirst hfeed htext ih =>
      cases ts with
      | nil =>
          subst hall
          exact ⟨[], x ++ text, s, rfl, rfl, .nil, (Cut.token hfirst hfeed htext).cuts⟩
      | cons t ts =>
          obtain ⟨rfl, htokens⟩ := List.cons.inj hall
          obtain ⟨before, rest, r, rfl, hplace, hbefore, hrest⟩ := ih htokens
          rw [List.append_nil] at hfirst
          rw [← Place.advance_append] at hplace hrest
          rw [← Place.stop_token place k x, ← Place.after_cons] at hplace
          exact ⟨x ++ before, rest, r, (List.append_assoc ..).symm, hplace, .token hfirst hfeed hbefore, hrest⟩

theorem Cut.ne_nil (h : s.Cut rest place text ts s') (hne : ts ≠ []) : text ≠ [] := by
  cases h with
  | nil => exact absurd rfl hne
  | filler hfirst htext => exact List.append_ne_nil_of_left_ne_nil (Lexeme.ne_nil_of_first? hfirst rfl) _
  | token hfirst hfeed htext => exact List.append_ne_nil_of_left_ne_nil (Lexeme.ne_nil_of_first? hfirst rfl) _

/-- What is cut up to the end of a token is cut in the same way before a blank. -/
theorem Cut.before_layout (h : s.Cut rest place text ts s') (hplace : place.advance text = place.after ts) {rest' : List Char}
    (hlayout : ∃ c ∈ rest'.head?, Lexeme.isLayout c = true) : s.Cut rest' place text ts s' := by
  induction h with
  | nil => exact .nil
  | @filler s s' place f text ts hfirst htext ih =>
      cases ts with
      | nil =>
          have hpos : 0 < f.length := Lexeme.length_pos_of_first? hfirst
          rw [(List.append_eq_nil_iff.1 (Place.eq_nil_of_advance hplace)).1] at hpos
          exact absurd hpos (Nat.lt_irrefl 0)
      | cons t ts =>
          rw [Place.advance_append] at hplace
          refine .filler (Lexeme.first?_filler_congr hfirst ?_) (ih hplace)
          have hne := htext.ne_nil (by simp)
          rw [List.head?_append_of_ne_nil _ hne, List.head?_append_of_ne_nil _ hne]
  | @token s next s' place x text k ts hfirst hfeed htext ih =>
      rw [Place.advance_append, Place.after_cons, Place.stop_token] at hplace
      obtain ⟨hpossible, hx, hname, hstops⟩ := Lexeme.spells_of_first?_append hfirst
      refine .token (Lexeme.first?_of_spells hpossible hx hname fun c hc => ?_) hfeed (ih hplace)
      by_cases htext' : text = []
      · subst htext'
        obtain ⟨d, hd, hlayout⟩ := hlayout
        cases Option.mem_unique hc hd
        exact Lexeme.ends_of_isLayout hlayout k
      · rw [List.head?_append_of_ne_nil _ htext'] at hc hstops
        refine ⟨hstops c hc, fun htempts => htext.first?_ne_none htext' ?_⟩
        obtain ⟨cs, rfl⟩ := List.head?_eq_some_iff.1 hc
        exact first?_of_tempts hfeed htempts _

/-- A text is cut in the same way from any place and from any state that takes the same terminals. -/
theorem Cuts.relocate (h : s.Cuts place text ts s') {s₁ : Reader} (hs : s.Alike (fun _ _ => True) Eq s₁) (place₁ : Place) :
    ∃ ts₁ s₁', s₁.Cuts place₁ text ts₁ s₁' ∧
      List.Forall₂ (Token.Alike (fun l l₁ => l + place₁.line = l₁ + place.line) Eq) ts ts₁ := by
  have hcut := h.cut
  clear h
  induction hcut generalizing s₁ place₁ with
  | nil => exact ⟨[], s₁, .nil, .nil⟩
  | @filler s s' place f text ts hfirst htext ih =>
      obtain ⟨ts₁, s₁', hcuts, hts⟩ := ih hs (place₁.advance f)
      rw [List.append_nil, ← hs.takes_eq] at hfirst
      refine ⟨ts₁, s₁', .filler_append hfirst hcuts, hts.imp fun t t₁ ht => ⟨ht.terminal_eq, ?_, ht.text⟩⟩
      have hline := ht.line
      simp only [Place.line_advance] at hline
      omega
  | @token s next s' place x text k ts hfirst hfeed htext ih =>
      have ht : (place.token k x).Alike (fun _ _ => True) Eq (place₁.token k x) := ⟨rfl, trivial, rfl⟩
      obtain ⟨next₁, hfeed₁, hnext⟩ := congruent_lines.exists_feed hs ht hfeed
      obtain ⟨ts₁, s₁', hcuts, hts⟩ := ih hnext (place₁.advance x)
      rw [List.append_nil, ← hs.takes_eq] at hfirst
      refine ⟨_, s₁', .token_append hfirst hfeed₁ hcuts, .cons ⟨rfl, Int.add_comm .., rfl⟩ (hts.imp fun t t₁ ht =>
        ⟨ht.terminal_eq, ?_, ht.text⟩)⟩
      have hline := ht.line
      simp only [Place.line_advance] at hline
      omega

/-- A blank before a text is skipped. -/
theorem Cuts.layout {c : Char} (hc : Lexeme.isLayout c = true) (h : s.Cuts (place.next c) text ts s') :
    s.Cuts place (c :: text) ts s' := by
  have hslash : c ≠ '/' := (Lexeme.class_of_isLayout hc).2.2.2.2.1
  have hlength : Lexeme.fillerLength (c :: text) = Lexeme.run Lexeme.isLayout text + 1 := by
    rw [Lexeme.fillerLength_of_ne hslash, Lexeme.run, List.takeWhile_cons_of_pos hc, List.length_cons, Lexeme.run]
  have hfirst : Lexeme.first? s.takes (c :: text) = some (.filler (Lexeme.run Lexeme.isLayout text + 1)) := by
    rw [Lexeme.first?_of_fillerLength (by omega), hlength]
  refine .filler hfirst ?_
  -- The blanks that follow are skipped with it.
  cases hrun : Lexeme.run Lexeme.isLayout text with
  | zero => exact h
  | succ n =>
      have hmore : text ≠ [] → Lexeme.first? s.takes text = some (.filler (n + 1)) := by
        intro hne
        obtain ⟨d, ds, rfl⟩ := List.exists_cons_of_ne_nil hne
        have hd : d ≠ '/' := by
          rintro rfl
          rw [Lexeme.run_cons_of_false (by decide)] at hrun
          cases hrun
        have hlength := (Lexeme.fillerLength_of_ne hd ds).trans hrun
        rw [Lexeme.first?_of_fillerLength (by omega), hlength]
      cases h with
      | nil => cases hrun
      | filler hblanks hrest =>
          cases (hmore (by simp)).symm.trans hblanks
          exact hrest
      | token htoken hfeed hrest => cases (hmore (by simp)).symm.trans htoken

end Reader

/-! ### Tokens with blanks between them -/

/-- A token is written as its terminal says, and a name is not spelled like a keyword. -/
structure Token.Spelled (t : Token) : Prop where
  spells : t.terminal.Spells t.text.toList
  not_keyword : t.terminal = .name → ∀ k : Keyword, k.spelling ≠ t.text

/-- The text of some tokens with a blank between each two. -/
def spaced (ts : List Token) : String := " ".intercalate (ts.map Token.text)

theorem toList_spaced_cons (t u : Token) (ts : List Token) :
    (spaced (t :: u :: ts)).toList = t.text.toList ++ ' ' :: (spaced (u :: ts)).toList := by
  simp [spaced]

namespace Reader

/-- A token that the reader takes is found before a blank and at the end of a text. -/
theorem first?_of_spelled {t : Token} {s next : Reader} (ht : t.Spelled) (hfeed : s.feed t = some next) {rest : List Char}
    (hrest : ∀ c ∈ rest.head?, Lexeme.isLayout c = true) :
    Lexeme.first? s.takes (t.text.toList ++ rest) = some (.token t.terminal t.text.toList.length) := by
  refine Lexeme.first?_of_spells (takes_of_feed hfeed) ht.spells (fun hname k _ hk => ?_) fun c hc =>
    Lexeme.ends_of_isLayout (hrest c hc) _
  exact ht.not_keyword hname k (String.toList_inj.1 hk)

/-- Tokens that the reader takes are found again in their text, wherever it stands. -/
theorem cuts_spaced {ts : List Token} {s r s₁ : Reader} (hts : ts.foldlM feed s = some r) (hspelled : ∀ t ∈ ts, t.Spelled)
    (hs : s.Alike (fun _ _ => True) Eq s₁) (place : Place) :
    ∃ ts₁ r₁, s₁.Cuts place (spaced ts).toList ts₁ r₁ ∧ List.Forall₂ (Token.Alike (fun _ _ => True) Eq) ts ts₁ := by
  induction ts generalizing s s₁ place with
  | nil => exact ⟨[], s₁, .nil, .nil⟩
  | cons t ts ih =>
      rw [List.foldlM_cons] at hts
      obtain ⟨next, hfeed, hts⟩ := Option.bind_eq_some_iff.1 hts
      have ht : t.Alike (fun _ _ => True) Eq (place.token t.terminal t.text.toList) :=
        ⟨rfl, trivial, String.ofList_toList.symm⟩
      obtain ⟨next₁, hfeed₁, hnext⟩ := congruent_lines.exists_feed hs ht hfeed
      have hfirst : ∀ rest : List Char, (∀ c ∈ rest.head?, Lexeme.isLayout c = true) →
          Lexeme.first? s₁.takes (t.text.toList ++ rest) = some (.token t.terminal t.text.toList.length) := by
        intro rest hrest
        rw [hs.takes_eq]
        exact first?_of_spelled (hspelled t List.mem_cons_self) hfeed hrest
      cases ts with
      | nil =>
          have hcuts := Cuts.token_append (hfirst [] nofun) hfeed₁ .nil
          rw [List.append_nil] at hcuts
          exact ⟨_, next₁, by simpa [spaced] using hcuts, .cons ht .nil⟩
      | cons u us =>
          obtain ⟨ts₁, r₁, hcuts, hts₁⟩ := ih hts (fun t ht => hspelled t (List.mem_cons_of_mem _ ht)) hnext
            ((place.advance t.text.toList).next ' ')
          have hblank : ∀ c ∈ (' ' :: (spaced (u :: us)).toList).head?, Lexeme.isLayout c = true := by
            rintro c ⟨⟩
            rfl
          rw [toList_spaced_cons]
          exact ⟨_, r₁, .token_append (hfirst _ hblank) hfeed₁ (.layout rfl hcuts), .cons ht hts₁⟩

end Reader

/-- A text that is made of the tokens of a program is that program but for the lines. -/
theorem readProgram_spaced {ts : List Token} {tree : Node} (h : parse? ts = some tree) (hspelled : ∀ t ∈ ts, t.Spelled) :
    ∃ ts' tree', Lexes (spaced ts) ts' ∧ readProgram (spaced ts) = .ok tree' ∧
      List.Forall₂ (Token.Alike (fun _ _ => True) Eq) ts ts' ∧ tree.Alike (fun _ _ => True) Eq tree' := by
  obtain ⟨r, hts, -⟩ := Option.bind_eq_some_iff.1 h
  obtain ⟨ts', r', hcuts, halike⟩ := Reader.cuts_spaced hts hspelled Reader.alike_initial Place.start
  have hlexes : Lexes (spaced ts) ts' := ⟨r', hcuts⟩
  obtain ⟨tree', hparse, htree⟩ := congruent_lines.exists_parse? halike h
  exact ⟨ts', tree', hlexes, (readProgram_eq_ok_iff _ _).2 ⟨ts', hlexes, hparse⟩, halike, htree⟩

end Rover
