import Rover.Proofs.Cutting

/-!
# Layout only moves lines

Blanks and comments can be put after every token of a program. The tokens before them stay as they are, those after them
move down by the number of newlines, and in the tree the line of each node moves with the token that it is taken from. Which
token that is shows in the tree that is read from tokens that have their numbers for lines (`numbered`).
-/

namespace Rover

/-! ### What can be put in -/

/-- Blanks, comments that go to the end of a line, with that end, and block comments, in any order. -/
inductive Filler : List Char → Prop
  | nil : Filler []
  | blank {c : Char} {cs : List Char} : Lexeme.isLayout c = true → Filler cs → Filler (c :: cs)
  | line {body cs : List Char} : '\n' ∉ body → Filler cs → Filler ('/' :: '/' :: (body ++ '\n' :: cs))
  | block {body cs : List Char} : ¬ ['*', '/'] <:+: body → Filler cs → Filler ('/' :: '*' :: (body ++ '*' :: '/' :: cs))

namespace Lexeme

theorem fillerLength_line {body : List Char} (h : '\n' ∉ body) (rest : List Char) :
    fillerLength (('/' :: '/' :: body) ++ '\n' :: rest) = ('/' :: '/' :: body).length := by
  have hrun : run (· != '\n') (body ++ '\n' :: rest) = body.length := by
    refine run_append (fun c hc => ?_) (fun c hc => ?_)
    · exact bne_iff_ne.2 fun hnewline => h (hnewline ▸ hc)
    · cases hc
      rfl
  simp only [List.cons_append, fillerLength, hrun, List.length_cons]
  omega

theorem fillerLength_block {body : List Char} (h : ¬ ['*', '/'] <:+: body) (rest : List Char) :
    fillerLength (('/' :: '*' :: (body ++ ['*', '/'])) ++ rest) = ('/' :: '*' :: (body ++ ['*', '/'])).length := by
  simp [fillerLength, blockEndLength_append h]

end Lexeme

namespace Reader

variable {s s' : Reader} {place : Place} {f rest : List Char} {ts : List Token}

theorem Cuts.skip_one (hne : f ≠ []) (hlength : Lexeme.fillerLength (f ++ rest) = f.length)
    (h : s.Cuts (place.advance f) rest ts s') : s.Cuts place (f ++ rest) ts s' := by
  have hpos : 0 < Lexeme.fillerLength (f ++ rest) := hlength ▸ List.length_pos_of_ne_nil hne
  exact .filler_append (hlength ▸ Lexeme.first?_of_fillerLength hpos) h

/-- What can be put in is skipped. -/
theorem Cuts.skip (hf : Filler f) (h : s.Cuts (place.advance f) rest ts s') : s.Cuts place (f ++ rest) ts s' := by
  induction hf generalizing place with
  | nil => exact h
  | blank hc _ ih => exact .layout hc (ih h)
  | @line body cs hbody _ ih =>
      rw [← List.cons_append, ← List.cons_append, Place.advance_append] at h
      rw [← List.cons_append, ← List.cons_append, List.append_assoc]
      exact .skip_one (by simp) (Lexeme.fillerLength_line hbody _) (.layout rfl (ih h))
  | @block body cs hbody _ ih =>
      have hsplit : '/' :: '*' :: (body ++ '*' :: '/' :: cs) = '/' :: '*' :: (body ++ ['*', '/']) ++ cs := by
        simp
      rw [hsplit, Place.advance_append] at h
      rw [hsplit, List.append_assoc]
      exact .skip_one (by simp) (Lexeme.fillerLength_block hbody _) (ih h)

end Reader

/-! ### Which token a line is taken from -/

/-- The tokens with their numbers, from 1, for lines. -/
def numbered (ts : List Token) : List Token := ts.mapIdx fun i t => { t with line := i + 1 }

/-- The line of the token of a number; 0 is the line of what is taken from no token. -/
def lineAt (ts : List Token) : Int → Int
  | .ofNat (i + 1) => (ts[i]?.map fun t => (t.line : Int)).getD 0
  | _ => 0

theorem congruent_lineAt (ts : List Token) : Congruent (fun i l => lineAt ts i = l) Eq :=
  ⟨rfl, fun _ => rfl, fun h => h ▸ rfl⟩

theorem numbered_alike {L : Int → Int → Prop} {ts ts' : List Token} (h : List.Forall₂ (Token.Alike L Eq) ts ts') :
    List.Forall₂ (Token.Alike (fun i l => lineAt ts' i = l) Eq) (numbered ts) ts' := by
  rw [List.forall₂_iff_get] at h ⊢
  obtain ⟨hlength, halike⟩ := h
  refine ⟨by simpa [numbered] using hlength, fun i hi hi' => ?_⟩
  have ht := halike i (by simpa [numbered] using hi) hi'
  simp only [List.get_eq_getElem, numbered, List.getElem_mapIdx] at ht ⊢
  refine ⟨ht.terminal_eq, ?_, ht.text⟩
  show (ts'[i]?.map fun t => (t.line : Int)).getD 0 = _
  rw [List.getElem?_eq_getElem hi']
  rfl

theorem parse?_eq_mapLines {ts ts' : List Token} {origin : Node} (h : parse? ts = some origin)
    (hts : List.Forall₂ (Token.Alike (fun i l => lineAt ts' i = l) Eq) ts ts') :
    parse? ts' = some (origin.mapLines (lineAt ts')) := by
  obtain ⟨tree, hparse, htree⟩ := (congruent_lineAt ts').exists_parse? hts h
  have hlines : origin.mapLines (lineAt ts') = tree.mapLines id := htree.mapLines_eq fun _ _ h => h
  rw [hparse, hlines, Node.mapLines_id]

/-- Trees of the same tokens on other lines are one tree with the lines of the ones or of the others. -/
theorem parse?_numbered {L : Int → Int → Prop} {ts ts' : List Token} {tree : Node} (h : parse? ts = some tree)
    (hts : List.Forall₂ (Token.Alike L Eq) ts ts') :
    ∃ origin, parse? (numbered ts) = some origin ∧ tree = origin.mapLines (lineAt ts) ∧
      parse? ts' = some (origin.mapLines (lineAt ts')) := by
  have hself : List.Forall₂ (Token.Alike (fun _ _ => True) Eq) ts ts := List.forall₂_same.2 fun t _ => ⟨rfl, trivial, rfl⟩
  have hback : List.Forall₂ (Token.Alike (fun _ _ => True) Eq) ts (numbered ts) :=
    .flip ((numbered_alike hself).imp fun t t' ht => ⟨ht.terminal_eq.symm, trivial, ht.text.symm⟩)
  obtain ⟨origin, horigin, -⟩ := congruent_lines.exists_parse? hback h
  refine ⟨origin, horigin, ?_, parse?_eq_mapLines horigin (numbered_alike hts)⟩
  exact Option.some.inj (h.symm.trans (parse?_eq_mapLines horigin (numbered_alike hself)))

/-! ### Putting layout in -/

/-- The tokens of a text with something put in after some of them. -/
theorem Lexes.insert {cs rest f : List Char} {before after : List Token}
    (hlexes : Lexes (String.ofList (cs ++ rest)) (before ++ after)) (hplace : Place.start.advance cs = Place.start.after before)
    (hf : Filler f) (hblank : ∃ c ∈ f.head?, Lexeme.isLayout c = true) :
    ∃ after', Lexes (String.ofList (cs ++ f ++ rest)) (before ++ after') ∧
      List.Forall₂ (Token.Alike (fun l l' => l' = l + f.count '\n') Eq) after after' := by
  obtain ⟨s, hcuts⟩ := hlexes
  rw [String.toList_ofList] at hcuts
  obtain ⟨cs₀, rest₀, r, htext, hplace₀, hbefore, hafter⟩ := hcuts.split
  obtain ⟨rfl, rfl⟩ := Place.advance_injective htext (hplace.trans hplace₀.symm)
  have hself : r.Alike (fun _ _ => True) Eq r := congruent_lines.alike_self (fun _ => trivial) hbefore.foldlM_feed
  obtain ⟨after', s', hafter', halike⟩ := hafter.relocate hself ((Place.start.advance cs).advance f)
  have hhead : ∃ c ∈ (f ++ rest).head?, Lexeme.isLayout c = true := by
    obtain ⟨c, hc, hlayout⟩ := hblank
    obtain ⟨f', rfl⟩ := List.head?_eq_some_iff.1 hc
    exact ⟨c, rfl, hlayout⟩
  refine ⟨after', ⟨s', ?_⟩, halike.imp fun t t' ht => ⟨ht.terminal_eq, ?_, ht.text⟩⟩
  · rw [String.toList_ofList, List.append_assoc]
    exact (hbefore.before_layout hplace hhead).append (hafter'.skip hf)
  · have hline := ht.line
    rw [Place.line_advance] at hline
    omega

/-- Layout that is put in after a token of a program, or at its start, only moves lines. The new text is a program too. Its
tokens are those of the old text, the ones after the place lower by the newlines put in. Its tree is the old one, with the
lines of the same tokens at all nodes. -/
theorem layout_only_moves_lines {cs rest f : List Char} {before after : List Token} {tree : Node}
    (hread : readProgram (String.ofList (cs ++ rest)) = .ok tree)
    (hlexes : Lexes (String.ofList (cs ++ rest)) (before ++ after)) (hplace : Place.start.advance cs = Place.start.after before)
    (hf : Filler f) (hblank : ∃ c ∈ f.head?, Lexeme.isLayout c = true) :
    ∃ after' tree' origin,
      readProgram (String.ofList (cs ++ f ++ rest)) = .ok tree' ∧
      Lexes (String.ofList (cs ++ f ++ rest)) (before ++ after') ∧
      List.Forall₂ (fun t t' => t'.terminal = t.terminal ∧ t'.text = t.text ∧ t'.line = t.line + f.count '\n') after after' ∧
      parse? (numbered (before ++ after)) = some origin ∧
      tree = origin.mapLines (lineAt (before ++ after)) ∧
      tree' = origin.mapLines (lineAt (before ++ after')) := by
  obtain ⟨after', hlexes', hafter⟩ := hlexes.insert hplace hf hblank
  have hparse : parse? (before ++ after) = some tree := by
    obtain ⟨ts, ⟨r, hcuts⟩, hparse⟩ := (readProgram_eq_ok_iff _ _).1 hread
    obtain ⟨s, hlexes⟩ := hlexes
    rwa [hlexes.unique hcuts] at hparse
  have hts : List.Forall₂ (Token.Alike (fun _ _ => True) Eq) (before ++ after) (before ++ after') :=
    List.rel_append (List.forall₂_same.2 fun t _ => ⟨rfl, trivial, rfl⟩)
      (hafter.imp fun t t' ht => ⟨ht.terminal_eq, trivial, ht.text⟩)
  obtain ⟨origin, horigin, htree, hparse'⟩ := parse?_numbered hparse hts
  refine ⟨after', _, origin, (readProgram_eq_ok_iff _ _).2 ⟨_, hlexes', hparse'⟩, hlexes', ?_, horigin, htree, rfl⟩
  exact hafter.imp fun t t' ht => ⟨ht.terminal_eq, ht.text.symm, by have := ht.line; omega⟩

/-- A comment after a stroke, which no blank separates from it in the old text. -/
theorem layout_only_moves_lines_stroke :
    ∃ (after' : List Token) (tree' origin : Node),
      readProgram (String.ofList ("func f() x=1/".toList ++ "\n//*\n/*//*/".toList ++ "2; endfunc".toList)) = .ok tree' ∧
      List.Forall₂ (fun t t' : Token => t'.terminal = t.terminal ∧ t'.text = t.text ∧ t'.line = t.line + 2)
        [⟨.int, "2", 1, 14⟩, ⟨.mark .semicolon, ";", 1, 15⟩, ⟨.keyword .kwEndfunc, "endfunc", 1, 17⟩] after' ∧
      tree' = origin.mapLines (lineAt
        ([⟨.keyword .kwFunc, "func", 1, 1⟩, ⟨.name, "f", 1, 6⟩, ⟨.mark .lpar, "(", 1, 7⟩, ⟨.mark .rpar, ")", 1, 8⟩,
          ⟨.name, "x", 1, 10⟩, ⟨.mark .equal, "=", 1, 11⟩, ⟨.int, "1", 1, 12⟩, ⟨.mark .slash, "/", 1, 13⟩] ++ after')) := by
  have hlexes : Lexes (String.ofList ("func f() x=1/".toList ++ "2; endfunc".toList))
      ([⟨.keyword .kwFunc, "func", 1, 1⟩, ⟨.name, "f", 1, 6⟩, ⟨.mark .lpar, "(", 1, 7⟩, ⟨.mark .rpar, ")", 1, 8⟩,
        ⟨.name, "x", 1, 10⟩, ⟨.mark .equal, "=", 1, 11⟩, ⟨.int, "1", 1, 12⟩, ⟨.mark .slash, "/", 1, 13⟩] ++
        [⟨.int, "2", 1, 14⟩, ⟨.mark .semicolon, ";", 1, 15⟩, ⟨.keyword .kwEndfunc, "endfunc", 1, 17⟩]) := by
    constructor
    rw [String.toList_ofList]
    exact .token (n := 4) rfl rfl (.filler (n := 1) rfl (.token (n := 1) rfl rfl (.token (n := 1) rfl rfl
      (.token (n := 1) rfl rfl (.filler (n := 1) rfl (.token (n := 1) rfl rfl (.token (n := 1) rfl rfl
      (.token (n := 1) rfl rfl (.token (n := 1) rfl rfl (.token (n := 1) rfl rfl (.token (n := 1) rfl rfl
      (.filler (n := 1) rfl (.token (n := 7) rfl rfl .nil)))))))))))))
  have hread := (readProgram_eq_ok_iff _ _).2 ⟨_, hlexes, rfl⟩
  have hf : Filler "\n//*\n/*//*/".toList :=
    .blank rfl (@Filler.line ['*'] _ (by decide) (@Filler.block ['/', '/'] _ (by decide) .nil))
  obtain ⟨after', tree', origin, hread', -, hafter, -, -, htree⟩ :=
    layout_only_moves_lines hread hlexes (by decide) hf ⟨'\n', rfl, rfl⟩
  exact ⟨after', tree', origin, hread', hafter, htree⟩

end Rover
