import Rover.Proofs.FirstError

/-!
# Cutting a text loses nothing

While a text is read it falls into pieces: the tokens, and the blanks and comments between them. The pieces in their order are
the whole text, or the part of it before the place where it is refused, and the newlines in the pieces before a token tell the
line of the token. `Pieces.cons` adds one piece, and `Reader.Cut.exists_pieces` goes through all of them.
-/

namespace Rover

/-! ### What is skipped -/

namespace Lexeme

/-- What is skipped as one piece: blanks, a comment without the end of its line, or a block comment. -/
inductive IsFiller : List Char → Prop
  | blanks {cs : List Char} : cs ≠ [] → (∀ c ∈ cs, isLayout c = true) → IsFiller cs
  | line {body : List Char} : '\n' ∉ body → IsFiller ('/' :: '/' :: body)
  | block {body : List Char} : ¬ ['*', '/'] <:+: body → IsFiller ('/' :: '*' :: (body ++ ['*', '/']))

theorem isFiller_of_fillerLength (cs : List Char) : fillerLength cs ≠ 0 → IsFiller (cs.take (fillerLength cs)) := by
  fun_cases fillerLength cs with
  | case1 rest =>
      intro _
      rw [Nat.add_comm, List.take_succ_cons, List.take_succ_cons]
      refine .line fun hnewline => ?_
      cases (run_spec (· != '\n') rest).2.1 _ hnewline
  | case2 rest hend => exact fun h => absurd rfl h
  | case3 rest hend =>
      intro _
      obtain ⟨body, after, rfl, hlength, hinfix⟩ := exists_of_blockEndLength hend
      have htake : (body ++ '*' :: '/' :: after).take (body.length + 2) = body ++ ['*', '/'] := by
        rw [List.take_length_add_append]
        rfl
      rw [hlength, List.take_succ_cons, List.take_succ_cons, htake]
      exact .block hinfix
  | case4 =>
      intro h
      obtain ⟨hle, hlayout, -⟩ := run_spec isLayout cs
      refine .blanks (List.ne_nil_of_length_pos ?_) hlayout
      rw [List.length_take_of_le hle]
      exact Nat.pos_of_ne_zero h

theorem isFiller_of_first? {possible : Terminal → Bool} {f rest : List Char}
    (h : first? possible (f ++ rest) = some (.filler f.length)) : IsFiller f := by
  obtain ⟨hlength, hpos⟩ := fillerLength_of_first? h
  have hfiller := isFiller_of_fillerLength (f ++ rest) (hlength ▸ Nat.ne_of_gt hpos)
  rwa [hlength, List.take_left] at hfiller

end Lexeme

/-! ### Pieces -/

/-- A piece of a text: a token, or something that is skipped. -/
inductive Piece where
  | token (t : Token)
  | filler (text : List Char)

namespace Piece

def chars : Piece → List Char
  | token t => t.text.toList
  | filler text => text

def token? : Piece → Option Token
  | token t => some t
  | filler _ => none

/-- A token that says that it stands at this place and is written as its terminal is, or something that can be skipped. -/
def IsAt (place : Place) : Piece → Prop
  | token t => t.place = place ∧ t.terminal.Spells t.text.toList
  | filler text => Lexeme.IsFiller text

end Piece

/-- The text of some pieces, one after the other. -/
def joined (ps : List Piece) : List Char := ps.flatMap Piece.chars

/-- A text from a place on, in pieces of which these are the tokens. -/
structure Pieces (start : Place) (text : List Char) (ts : List Token) (ps : List Piece) : Prop where
  whole : joined ps = text
  nonempty : ∀ p ∈ ps, p.chars ≠ []
  tokens : ps.filterMap Piece.token? = ts
  at_place : ∀ before p after, ps = before ++ p :: after → p.IsAt (start.advance (joined before))
  line : ∀ before t after, ps = before ++ .token t :: after → t.line = start.line + (joined before).count '\n'

namespace Pieces

variable {start : Place} {text : List Char} {ts : List Token} {ps : List Piece}

theorem nil : Pieces start [] [] [] :=
  ⟨rfl, by simp, rfl, by simp, by simp⟩

/-- The line of a token follows from its place. -/
theorem of_at_place (hne : ∀ p ∈ ps, p.chars ≠ [])
    (hat : ∀ before p after, ps = before ++ p :: after → p.IsAt (start.advance (joined before))) :
    Pieces start (joined ps) (ps.filterMap Piece.token?) ps := by
  refine ⟨rfl, hne, rfl, hat, fun before t after hps => ?_⟩
  have hplace := (hat before (.token t) after hps).1
  rw [← Place.line_advance, ← hplace]
  rfl

theorem cons {p : Piece} (h : Pieces (start.advance p.chars) text ts ps) (hne : p.chars ≠ []) (hp : p.IsAt start) :
    Pieces start (p.chars ++ text) (p.token?.toList ++ ts) (p :: ps) := by
  have hpieces : Pieces start (joined (p :: ps)) ((p :: ps).filterMap Piece.token?) (p :: ps) := by
    refine of_at_place (List.forall_mem_cons.2 ⟨hne, h.nonempty⟩) fun before q after hps => ?_
    cases before with
    | nil =>
        cases hps
        exact hp
    | cons p' before =>
        obtain ⟨rfl, htail⟩ := List.cons.inj hps
        have hq := h.at_place before q after htail
        rwa [← Place.advance_append] at hq
  have htext : joined (p :: ps) = p.chars ++ text := by rw [← h.whole]; rfl
  have htokens : (p :: ps).filterMap Piece.token? = p.token?.toList ++ ts := by
    rw [← h.tokens]
    cases p <;> rfl
  rwa [htext, htokens] at hpieces

end Pieces

namespace Reader

variable {s s' : Reader} {place : Place} {text rest : List Char} {ts : List Token}

/-- What the reader cuts off a text are pieces of it. -/
theorem Cut.exists_pieces (h : s.Cut rest place text ts s') : ∃ ps, Pieces place text ts ps := by
  induction h with
  | nil => exact ⟨[], .nil⟩
  | @filler s s' place f text ts hfirst htext ih =>
      obtain ⟨ps, hps⟩ := ih
      have hne : f ≠ [] := Lexeme.ne_nil_of_first? hfirst rfl
      exact ⟨.filler f :: ps, hps.cons (p := .filler f) hne (Lexeme.isFiller_of_first? hfirst)⟩
  | @token s next s' place x text k ts hfirst hfeed htext ih =>
      obtain ⟨ps, hps⟩ := ih
      have hne : x ≠ [] := Lexeme.ne_nil_of_first? hfirst rfl
      obtain ⟨-, hspells, -, -⟩ := Lexeme.spells_of_first?_append hfirst
      have hchars : (place.token k x).text.toList = x := String.toList_ofList
      rw [← hchars] at hps hne hspells
      have hcons := hps.cons (p := .token (place.token k x)) hne ⟨rfl, hspells⟩
      simp only [Piece.chars, hchars] at hcons
      exact ⟨_, hcons⟩

/-- A text that is cut up to a token and what is skipped after it is cut up to the place of the token. -/
theorem Cut.before_last {t : Token} (h : s.Cut rest place text (ts ++ [t]) s') :
    ∃ before after r, text ++ rest = before ++ after ∧ s.Cut after place before ts r ∧ place.advance before = t.place := by
  generalize hall : ts ++ [t] = all at h
  induction h generalizing ts with
  | nil => cases (List.append_eq_nil_iff.1 hall).2
  | filler hfirst htext ih =>
      obtain ⟨before, after, r, hsplit, hbefore, hplace⟩ := ih hall
      rw [hsplit] at hfirst
      rw [← Place.advance_append] at hplace
      exact ⟨_, after, r, by rw [List.append_assoc, hsplit, List.append_assoc], .filler hfirst hbefore, hplace⟩
  | @token s next s' place x text k all hfirst hfeed htext ih =>
      cases ts with
      | nil =>
          cases hall
          exact ⟨[], x ++ text ++ rest, s, rfl, .nil, rfl⟩
      | cons u ts =>
          obtain ⟨rfl, htokens⟩ := List.cons.inj hall
          obtain ⟨before, after, r, hsplit, hbefore, hplace⟩ := ih htokens
          rw [hsplit] at hfirst
          rw [← Place.advance_append] at hplace
          exact ⟨_, after, r, by rw [List.append_assoc, hsplit, List.append_assoc], .token hfirst hfeed hbefore, hplace⟩

end Reader

/-! ### The part before a refusal -/

/-- The place that a refusal reports. -/
def Rejection.place : Rejection → Place
  | token t => t.place
  | character _ place => place
  | ended place => place

theorem Reader.Refuses.place_eq {s : Reader} {last place : Place} {rest : List Char} {r : Rejection}
    (h : s.Refuses last place rest r) : r.place = place ∨ r.place = last ∧ s.finish? = none := by
  cases h with
  | ended hfinish => exact .inr ⟨rfl, hfinish⟩
  | token hfirst hfeed => exact .inl rfl
  | @nothing c rest hfirst =>
      rcases refuse_cases place c rest with ⟨k, n, -, hrefuse⟩ | hrefuse
      · exact .inl (by rw [hrefuse]; rfl)
      · exact .inl (by rw [hrefuse]; rfl)

/-- A text that is refused is cut into tokens up to the place that is reported. -/
theorem exists_cut_of_refused {source : String} {r : Rejection} (h : readProgram source = .error r) :
    ∃ before rest ts s, source.toList = before ++ rest ∧ Place.start.advance before = r.place ∧
      Reader.initial.Cut rest Place.start before ts s := by
  obtain ⟨before, rest, ts, s, htext, hcut, hrefuses⟩ := Reader.refuses_of_read h
  rcases hrefuses.place_eq with hplace | ⟨hplace, hfinish⟩
  · exact ⟨before, rest, ts, s, htext, hplace.symm, hcut⟩
  · -- The end is reported at the last token.
    obtain ⟨t, ht, hlast⟩ := Reader.exists_last hcut.foldlM_feed hfinish Place.start
    rw [← List.dropLast_append_getLast? t ht] at hcut
    obtain ⟨before', after, r', hsplit, hcut', hplace'⟩ := hcut.before_last
    exact ⟨before', after, _, r', htext.trans hsplit, by rw [hplace', hplace, hlast], hcut'⟩

/-- The tokens of a program and what is skipped are pieces of the text, none of them empty, that make the whole of it in
their order, and each token is on the line that the newlines before it tell. If a text is refused, this holds of the part
before the place that is reported, with the tokens that were taken there. -/
theorem cutting_loses_nothing (source : String) :
    (∀ tree, readProgram source = .ok tree →
      ∃ ts ps, Lexes source ts ∧ parse? ts = some tree ∧ Pieces Place.start source.toList ts ps) ∧
    ∀ r, readProgram source = .error r →
      ∃ before rest ts s ps, source.toList = before ++ rest ∧ Place.start.advance before = r.place ∧
        Reader.initial.Cut rest Place.start before ts s ∧ Pieces Place.start before ts ps := by
  constructor
  · intro tree hread
    obtain ⟨ts, ⟨s, hcuts⟩, hparse⟩ := (readProgram_eq_ok_iff source tree).1 hread
    obtain ⟨ps, hps⟩ := hcuts.cut.exists_pieces
    exact ⟨ts, ps, ⟨s, hcuts⟩, hparse, hps⟩
  · intro r hread
    obtain ⟨before, rest, ts, s, htext, hplace, hcut⟩ := exists_cut_of_refused hread
    obtain ⟨ps, hps⟩ := hcut.exists_pieces
    exact ⟨before, rest, ts, s, ps, htext, hplace, hcut, hps⟩

/-- A program after a comment of two lines, and a text that is refused after one. -/
theorem cutting_loses_nothing_comments :
    (∃ tree ts ps, readProgram "/* */ /*\n*/func f()//\nendfunc" = .ok tree ∧ Lexes "/* */ /*\n*/func f()//\nendfunc" ts ∧
      Pieces Place.start "/* */ /*\n*/func f()//\nendfunc".toList ts ps) ∧
    ∃ before rest ts ps, "func f(\n/*\n*/ 0".toList = before ++ rest ∧ Place.start.advance before = ⟨3, 4⟩ ∧
      Pieces Place.start before ts ps := by
  have hok : (readProgram "/* */ /*\n*/func f()//\nendfunc").toOption.isSome = true := by decide +kernel
  have herror : (readProgram "func f(\n/*\n*/ 0").map (fun _ => ()) = .error (.token ⟨.int, "0", 3, 4⟩) := by decide +kernel
  constructor
  · cases hread : readProgram "/* */ /*\n*/func f()//\nendfunc" with
    | error r => simp [hread, Except.toOption] at hok
    | ok tree =>
        obtain ⟨ts, ps, hlexes, -, hps⟩ := (cutting_loses_nothing _).1 tree hread
        exact ⟨tree, ts, ps, rfl, hlexes, hps⟩
  · cases hread : readProgram "func f(\n/*\n*/ 0" with
    | ok tree => simp [hread, Except.map] at herror
    | error r =>
        obtain ⟨before, rest, ts, s, ps, htext, hplace, -, hps⟩ := (cutting_loses_nothing _).2 r hread
        rw [hread] at herror
        cases herror
        exact ⟨before, rest, ts, ps, htext, hplace, hps⟩

end Rover
