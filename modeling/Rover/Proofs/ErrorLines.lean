import Rover.Proofs.Origin

/-!
# The line of an error

The line that a fault reports is that of the node whose check did not pass, whatever has been executed before, but for
two checks. The condition of a loop is tested again where the round before has ended, so it is reported at the end of the
body. And a call that nests too deep is refused where its last argument stands. `fault_line_lexical` says which node
answers for which check.
-/

namespace Rover

/-! ### Where statements end -/

/-- `n.EndsAt w`: when the statement `n` is done, `w` may be the statement under way, which is `n` or the end of the last
statement of a branch or a body of it. -/
inductive Node.EndsAt : Node → Node → Prop
  | self (n : Node) : EndsAt n n
  | last {n b s w : Node} : n.kind = .ifElse ∨ n.kind = .whileDo → b ∈ n.children.tail → b.children.getLast? = some s →
      EndsAt s w → EndsAt n w

/-- A block may end at this line: the end of its last statement. -/
def EndLine (nodes : List Node) (line : Int) : Prop := ∃ s, nodes.getLast? = some s ∧ ∃ w, s.EndsAt w ∧ line = w.line

theorem EndLine.cons {n : Node} {nodes : List Node} {line : Int} (h : EndLine nodes line) : EndLine (n :: nodes) line := by
  obtain ⟨s, hs, w, hw⟩ := h
  exact ⟨s, by rw [List.getLast?_cons, hs]; rfl, w, hw⟩

theorem line_of_assign {name : String} {v : Value} {m m' : Machine} (h : Eval.assign name v m = .done () m') :
    m'.line = m.line := by
  unfold Eval.assign at h
  split at h
  · cases h
  · cases h
    rfl

section Ends

variable {fuel : Nat} {l : Int} {t : String} {v : Option Value} {m m' : Machine} {r : Option Value}

theorem line_of_assignment {x n : Node} {cs : List Node}
    (h : runStatement (fuel + 1) ⟨.assign, l, t, v, x :: n :: cs⟩ m = .done r m') : m'.line = l := by
  rw [runStatement_assign, Eval.setLine_bind] at h
  obtain ⟨y, m₁, hn, h⟩ := Eval.done_of_bind h
  obtain ⟨_, m₂, htarget, h⟩ := Eval.done_of_bind h
  cases h
  rw [line_of_assign htarget, line_of_evaluate hn]

theorem line_of_return {cs : List Node} (h : runStatement (fuel + 1) ⟨.ret, l, t, v, cs⟩ m = .done r m') : m'.line = l := by
  cases cs with
  | nil =>
      cases h
      rfl
  | cons n cs =>
      rw [runStatement_ret, Eval.setLine_bind] at h
      obtain ⟨y, m₁, hn, h⟩ := Eval.done_of_bind h
      cases h
      exact line_of_evaluate hn

theorem line_of_read {cs : List Node} (h : runStatement (fuel + 1) ⟨.read, l, t, v, cs⟩ m = .done r m') : m'.line = l := by
  rw [runStatement_read, Eval.setLine_bind] at h
  obtain ⟨token, m₁, hnext, h⟩ := Eval.done_of_bind h
  have hline : m₁.line = l := by
    unfold Eval.nextToken at hnext
    split at hnext
    · cases hnext
    · cases hnext
      rfl
  cases hvalue : Value.ofToken token with
  | error e =>
      rw [storeToken_of_error hvalue] at h
      cases h
  | ok y =>
      cases cs with
      | nil =>
          rw [storeToken_nil hvalue] at h
          cases h
      | cons x cs =>
          rw [storeToken_cons hvalue] at h
          obtain ⟨_, m₂, htarget, h⟩ := Eval.done_of_bind h
          cases h
          rw [line_of_assign htarget, hline]

theorem line_of_write {n : Node} {cs : List Node}
    (h : runStatement (fuel + 1) ⟨.write, l, t, v, n :: cs⟩ m = .done r m') : m'.line = l := by
  rw [runStatement_write, Eval.setLine_bind] at h
  by_cases htext : n.kind = .string → n.value = none
  · rw [writeNode_value htext] at h
    obtain ⟨y, m₁, hn, h⟩ := Eval.done_of_bind h
    cases h
    exact line_of_evaluate hn
  · obtain ⟨hkind, hvalue⟩ := Classical.not_imp.1 htext
    obtain ⟨x, hx⟩ := Option.ne_none_iff_exists'.1 hvalue
    rw [writeNode_text hkind hx] at h
    cases h
    rfl

theorem line_of_call {callee arguments : Node} {cs : List Node}
    (h : runStatement (fuel + 1) ⟨.call, l, t, v, callee :: arguments :: cs⟩ m = .done r m') : m'.line = l := by
  rw [runStatement_call, Eval.setLine_bind] at h
  obtain ⟨y, m₁, hcall, h⟩ := Eval.done_of_bind h
  cases h
  exact line_of_invoke hcall

/-- A statement without parts ends at its own line. -/
theorem line_of_simple {k : Kind} {cs : List Node} (hif : k ≠ .ifElse) (hwhile : k ≠ .whileDo)
    (h : runStatement (fuel + 1) ⟨k, l, t, v, cs⟩ m = .done r m') : m'.line = l := by
  cases statementShape k cs with
  | assign => exact line_of_assignment h
  | ifElse => exact absurd rfl hif
  | whileDo => exact absurd rfl hwhile
  | ret => exact line_of_return h
  | read => exact line_of_read h
  | write => exact line_of_write h
  | call => exact line_of_call h
  | defect hdefect =>
      rw [runStatement_defect hdefect] at h
      cases h

end Ends

/-- Where statements, blocks and loops that do not return end, with this fuel. -/
structure LinesEnd (fuel : Nat) : Prop where
  statement {n : Node} {m m' : Machine} (h : runStatement fuel n m = .done none m') :
    ∃ w, n.EndsAt w ∧ m'.line = w.line
  block {nodes : List Node} {m m' : Machine} (h : runBlock fuel nodes m = .done none m') :
    nodes = [] ∧ m' = m ∨ EndLine nodes m'.line
  loop {c : Node} {nodes : List Node} {m m' : Machine} (h : runLoop fuel c nodes m = .done none m') :
    m'.line = m.line ∨ EndLine nodes m'.line

namespace LinesEnd

variable {fuel : Nat} (ih : LinesEnd fuel) {m m' : Machine}

include ih

theorem block_step {nodes : List Node} (h : runBlock (fuel + 1) nodes m = .done none m') :
    nodes = [] ∧ m' = m ∨ EndLine nodes m'.line := by
  match nodes with
  | [] =>
      cases h
      exact .inl ⟨rfl, rfl⟩
  | n :: nodes =>
      rw [runBlock] at h
      obtain ⟨r₁, m₁, hfirst, h⟩ := Eval.done_of_bind h
      cases r₁ with
      | some x => cases h
      | none =>
          rcases ih.block h with ⟨rfl, rfl⟩ | hrest
          · exact .inr ⟨n, rfl, ih.statement hfirst⟩
          · exact .inr hrest.cons

theorem loop_step {c : Node} {nodes : List Node} (h : runLoop (fuel + 1) c nodes m = .done none m') :
    m'.line = m.line ∨ EndLine nodes m'.line := by
  rw [runLoop] at h
  obtain ⟨x, m₁, hc, h⟩ := Eval.done_of_bind h
  have hline := line_of_evaluate hc
  obtain ⟨b, -, h⟩ := Eval.done_of_check h
  cases b with
  | false =>
      cases h
      exact .inl hline
  | true =>
      obtain ⟨r₁, m₂, hround, h⟩ := Eval.done_of_bind (m := m₁) h
      cases r₁ with
      | some y => cases h
      | none =>
          rcases ih.loop h with hsame | hend
          · rw [hsame]
            rcases ih.block hround with ⟨-, rfl⟩ | hend
            · exact .inl hline
            · exact .inr hend
          · exact .inr hend

theorem ifElse {l : Int} {t : String} {v : Option Value} {cs : List Node}
    (h : runStatement (fuel + 1) ⟨.ifElse, l, t, v, cs⟩ m = .done none m') :
    ∃ w, (⟨.ifElse, l, t, v, cs⟩ : Node).EndsAt w ∧ m'.line = w.line := by
  match cs with
  | [] => cases h
  | c :: bs =>
      rw [runStatement_ifElse, Eval.setLine_bind] at h
      obtain ⟨x, m₁, hc, h⟩ := Eval.done_of_bind h
      have hline := line_of_evaluate hc
      obtain ⟨b, -, h⟩ := Eval.done_of_check h
      have hbranch {b : Node} (hb : b ∈ bs) (h : runBlock fuel b.children m₁ = .done none m') :
          ∃ w, (⟨.ifElse, l, t, v, c :: bs⟩ : Node).EndsAt w ∧ m'.line = w.line := by
        rcases ih.block h with ⟨-, rfl⟩ | ⟨s, hs, w, hw, hend⟩
        · exact ⟨_, .self _, hline⟩
        · exact ⟨w, .last (.inl rfl) hb hs hw, hend⟩
      have hself : ∃ w, (⟨.ifElse, l, t, v, c :: bs⟩ : Node).EndsAt w ∧ m₁.line = w.line := ⟨_, .self _, hline⟩
      cases b with
      | true =>
          cases bs with
          | nil => cases h
          | cons b bs => exact hbranch List.mem_cons_self h
      | false =>
          rcases bs with _ | ⟨a, _ | ⟨b, _ | ⟨d, bs⟩⟩⟩
          · cases h
            exact hself
          · cases h
            exact hself
          · exact hbranch (by simp) h
          · cases h
            exact hself

theorem whileDo {l : Int} {t : String} {v : Option Value} {cs : List Node}
    (h : runStatement (fuel + 1) ⟨.whileDo, l, t, v, cs⟩ m = .done none m') :
    ∃ w, (⟨.whileDo, l, t, v, cs⟩ : Node).EndsAt w ∧ m'.line = w.line := by
  match cs with
  | [] => cases h
  | [_] => cases h
  | [c, b] =>
      rcases ih.loop (m := { m with line := l }) h with hline | ⟨s, hs, w, hw, hend⟩
      · exact ⟨_, .self _, hline⟩
      · exact ⟨w, .last (.inr rfl) (by simp) hs hw, hend⟩
  | _ :: _ :: _ :: _ => cases h

theorem statement_step {n : Node} (h : runStatement (fuel + 1) n m = .done none m') :
    ∃ w, n.EndsAt w ∧ m'.line = w.line := by
  obtain ⟨k, l, t, v, cs⟩ := n
  by_cases hif : k = .ifElse
  · subst hif
    exact ih.ifElse h
  by_cases hwhile : k = .whileDo
  · subst hwhile
    exact ih.whileDo h
  · exact ⟨_, .self _, line_of_simple hif hwhile h⟩

end LinesEnd

theorem linesEnd (fuel : Nat) : LinesEnd fuel := by
  induction fuel with
  | zero => exact ⟨nofun, nofun, nofun⟩
  | succ fuel ih => exact ⟨ih.statement_step, ih.block_step, ih.loop_step⟩

/-! ### The node that answers for a check -/

theorem line_of_bindArguments {fuel : Nat} {params : List Param} {nodes : List Node} {m m' : Machine}
    {bound : List (Param × Cell)} (hlength : params.length = nodes.length)
    (h : bindArguments fuel params nodes m = .done bound m') :
    m'.line = (nodes.getLast?.map Node.line).getD m.line := by
  induction fuel generalizing params nodes m bound with
  | zero => cases h
  | succ fuel ih =>
      match params, nodes with
      | [], [] =>
          cases h
          rfl
      | p :: params, n :: nodes =>
          rw [bindArguments_cons] at h
          change (argumentCell fuel p n >>= _ : Eval _) { m with line := n.line } = _ at h
          obtain ⟨c, m₁, hcell, h⟩ := Eval.done_of_bind h
          obtain ⟨rest, m₂, hrest, h⟩ := Eval.done_of_bind h
          cases h
          have hline : m₁.line = n.line := by
            rcases argumentCell_cases hcell with rfl | ⟨v, m₁, hv, rfl⟩
            · rfl
            · exact line_of_evaluate hv
          rw [ih (Nat.succ.inj hlength) hrest, hline, List.getLast?_cons]
          cases nodes.getLast? <;> rfl

/-- The line that a check is made at, from the line that the task is started at. -/
def Task.checkLine (line : Int) (c : Cause) : Task → Int
  | .statement n => n.line
  | .binding _ (n :: _) => n.line
  | .call _ nodes => if c = .stackOverflow then (nodes.getLast?.map Node.line).getD line else line
  | _ => line

theorem Task.Fails.line {t : Task} {c : Cause} {n n' : Machine} (h : t.Fails n c n') :
    n'.line = t.checkLine n.line c := by
  cases h with
  | result hcall =>
      obtain ⟨fuel, hcall⟩ := hcall
      exact line_of_invoke hcall
  | unary _ ha _ =>
      obtain ⟨fuel, ha⟩ := ha
      exact line_of_evaluate ha
  | left _ ha _ =>
      obtain ⟨fuel, ha⟩ := ha
      exact line_of_evaluate ha
  | right _ ha _ hb _ =>
      obtain ⟨fuel, ha⟩ := ha
      obtain ⟨fuel', hb⟩ := hb
      exact (line_of_evaluate hb).trans (line_of_evaluate ha)
  | binary _ ha hb _ =>
      obtain ⟨fuel, ha⟩ := ha
      obtain ⟨fuel', hb⟩ := hb
      exact (line_of_evaluate hb).trans (line_of_evaluate ha)
  | argument hn _ =>
      obtain ⟨fuel, hn⟩ := hn
      exact line_of_evaluate hn
  | perform _ harguments _ =>
      obtain ⟨fuel, harguments⟩ := harguments
      exact line_of_evaluateArguments harguments
  | untold hlength hbound _ =>
      obtain ⟨fuel, hbound⟩ := hbound
      rw [line_of_bindArguments hlength hbound, Task.checkLine, if_pos rfl]
  | overflow hlength hbound _ _ =>
      obtain ⟨fuel, hbound⟩ := hbound
      refine (line_of_bindArguments hlength hbound).trans ?_
      rw [Task.checkLine, if_pos rfl]
  | target he _ =>
      obtain ⟨fuel, he⟩ := he
      exact line_of_evaluate he
  | condition hc _ =>
      obtain ⟨fuel, hc⟩ := hc
      exact line_of_evaluate hc
  | branch hc =>
      obtain ⟨fuel, hc⟩ := hc
      exact line_of_evaluate hc
  | test hc _ =>
      obtain ⟨fuel, hc⟩ := hc
      exact line_of_evaluate hc
  | _ => rfl

/-- Where the condition of a loop is tested: at the loop, or after a round where the body has ended. -/
def Trail.Rounds (outside : Int) : List Task → Int → Prop
  | .loop _ body :: .loop _ _ :: ts, l => EndLine body l ∨ body = [] ∧ l = Trail.line outside ts
  | .loop _ _ :: ts, l => l = Trail.line outside ts
  | _, _ => True

theorem Trail.Rounds.loop {outside l : Int} {c : Node} {body : List Node} {ts : List Task}
    (h : Trail.Rounds outside (.loop c body :: ts) l) : EndLine body l ∨ l = Trail.line outside ts := by
  unfold Trail.Rounds at h
  split at h
  · rename_i heq
    cases heq
    exact h.imp id And.right
  · rename_i heq
    cases heq
    exact .inr h
  · rename_i hloop
    exact absurd rfl (hloop c body ts)

theorem Machine.Trails.rounds {m n : Machine} {name : String} {nodes : List Node} {ts : List Task}
    (h : m.Trails (.invoke name nodes) ts n) : Trail.Rounds m.line ts n.line := by
  induction h with
  | first => trivial
  | step _ hstarts ih =>
      cases hstarts with
      | loop => rfl
      | again hc hround =>
          obtain ⟨fuel, hc⟩ := hc
          obtain ⟨fuel', hround⟩ := hround
          rcases (linesEnd fuel').block hround with ⟨rfl, rfl⟩ | hend
          · rcases ih.loop with ⟨s, hs, -⟩ | hline
            · cases hs
            · exact .inr ⟨rfl, (line_of_evaluate hc).trans hline⟩
          · exact .inl hend
      | _ => trivial

/-- Inside a function there is always a node under way, but for the moment at which a block is about to start. -/
theorem Machine.Trails.owner {m n : Machine} {first : Task} {ts : List Task} (h : m.Trails first ts n)
    (hcalls : Trail.calls ts ≠ []) : (∃ nodes rest, ts = .block nodes :: rest) ∨ ∃ w, Trail.owner? ts = some w := by
  induction h with
  | first => cases first <;> exact absurd rfl hcalls
  | step _ hstarts ih =>
      cases hstarts with
      | node => exact .inr ⟨_, rfl⟩
      | statement => exact .inr ⟨_, rfl⟩
      | body => exact .inl ⟨_, _, rfl⟩
      | block => exact .inl ⟨_, _, rfl⟩
      | consequent => exact .inl ⟨_, _, rfl⟩
      | alternative => exact .inl ⟨_, _, rfl⟩
      | round => exact .inl ⟨_, _, rfl⟩
      | _ =>
          rcases ih hcalls with ⟨_, _, hblock⟩ | howner
          · cases hblock
          · exact .inr howner

/-- The node that answers for a check of a task: the argument for one that is bound by reference, the end of the body for the
condition of a loop after a round, the last argument for a call that nests too deep, and the node under way for all
others. -/
def Trail.Blames (c : Cause) : List Task → Node → Prop
  | .binding _ (n :: _) :: _, w => w = n
  | .loop _ body :: .loop _ _ :: ts, w =>
    (∃ s, body.getLast? = some s ∧ s.EndsAt w) ∨ body = [] ∧ Trail.owner? ts = some w
  | .call _ nodes :: ts, w =>
    (if c = .stackOverflow then nodes.getLast? <|> Trail.owner? ts else Trail.owner? ts) = some w
  | ts, w => Trail.owner? ts = some w

theorem Task.Fails.blames {m n n' : Machine} {name : String} {nodes : List Node} {t : Task} {ts : List Task} {c : Cause}
    (htrail : m.Trails (.invoke name nodes) (t :: ts) n) (hfails : t.Fails n c n') (hcalls : Trail.calls (t :: ts) ≠ []) :
    ∃ w, Trail.Blames c (t :: ts) w ∧ n'.line = w.line := by
  have hstands := htrail.stands
  have hrounds := htrail.rounds
  rcases htrail.owner hcalls with ⟨_, _, hblock⟩ | ⟨w, hw⟩
  · cases hblock
    cases hfails
  have hline : Trail.line m.line (t :: ts) = w.line := by simp [Trail.line, hw]
  rw [hfails.line]
  cases t with
  | evaluate e => cases hfails
  | node e => exact ⟨e, rfl, hstands⟩
  | invoke callee arguments => exact ⟨w, hw, hstands.trans hline⟩
  | arguments types arguments => exact ⟨w, hw, hstands.trans hline⟩
  | call f arguments =>
      have hcall : n.line = w.line := hstands.trans hline
      by_cases hc : c = .stackOverflow
      · simp only [Trail.Blames, Task.checkLine, hc, if_true]
        cases arguments.getLast? with
        | none => exact ⟨w, hw, hcall⟩
        | some a => exact ⟨a, rfl, rfl⟩
      · simp only [Trail.Blames, Task.checkLine, hc, if_false]
        exact ⟨w, hw, hcall⟩
  | binding params arguments =>
      cases arguments with
      | nil => cases hfails
      | cons a arguments => exact ⟨a, rfl, rfl⟩
  | block body => cases hfails
  | statement s => exact ⟨s, rfl, rfl⟩
  | loop condition body =>
      by_cases hagain : ∃ condition' body' rest, ts = .loop condition' body' :: rest
      · obtain ⟨condition', body', rest, rfl⟩ := hagain
        rcases hrounds with ⟨s, hs, u, hu, hend⟩ | ⟨hempty, hend⟩
        · exact ⟨u, .inl ⟨s, hs, hu⟩, hend⟩
        · exact ⟨w, .inr ⟨hempty, hw⟩, hend.trans hline⟩
      · have hfirst : Trail.Rounds m.line (.loop condition body :: ts) n.line → n.line = Trail.line m.line ts := by
          unfold Trail.Rounds
          split <;> simp_all
        refine ⟨w, ?_, (hfirst hrounds).trans hline⟩
        unfold Trail.Blames
        split <;> simp_all

/-- A fault that comes up inside a function reports the line of the node that answers for the check, whatever the run has
executed before and whatever records the fault leaves on its way out. -/
theorem fault_line_lexical {fuel : Nat} {name : String} {nodes : List Node} {m m' : Machine} {e : Fault} {p : Program}
    (hp : m.program = some p) (h : Machine.call fuel name nodes m = .failed e m') (hc : e.cause.category ≠ .internal) :
    ∃ t ts n n', m.Trails (.invoke name nodes) (t :: ts) n ∧ t.Fails n e.cause n' ∧ e.line = some n'.line ∧
      (Trail.calls (t :: ts) ≠ [] → ∃ w, Trail.Blames e.cause (t :: ts) w ∧ e.line = some w.line) := by
  obtain ⟨t, ts, n, n', htrail, hfails, -, k, -, -, hreports⟩ := origin_of_call hp h
  have hline := hreports.line_eq hc
  refine ⟨t, ts, n, n', htrail, hfails, hline, fun hcalls => ?_⟩
  obtain ⟨w, hw, hw'⟩ := hfails.blames htrail hcalls
  exact ⟨w, hw, by rw [hline, hw']⟩

/-- A program that divides by a number which a loop counts down. -/
def shares : String :=
  "func main()\n  n = 3;\n  while n > 0 do\n    n = n - 1;\n    share(n);\n  endwhile\nendfunc\n" ++
  "func share(k)\n  write 6 / k;\nendfunc\n"

theorem shares_line : ∃ tree m e m', (Machine.initial .default "" .unobserved).loadSource shares = .ok (tree, m) ∧
    Machine.run 40 "main" m = .failed e m' ∧ e.cause = .operand .divisionByZero ∧ e.line = some 9 ∧
      ∃ t ts n n', m.Trails (.invoke "main" []) (t :: ts) n ∧ t.Fails n e.cause n' ∧ e.line = some n'.line ∧
        (Trail.calls (t :: ts) ≠ [] → ∃ w, Trail.Blames e.cause (t :: ts) w ∧ e.line = some w.line) := by
  have hfailure : failure? 40 shares "main" =
      some (.operand .divisionByZero, some 9, ["share (line 9)", "main (line 5)"]) := by decide +kernel
  obtain ⟨tree, m, e, m', hload, hrun, hcause, hline, -⟩ := failed_of_failure? hfailure
  obtain ⟨q, -, hm⟩ := loaded_of_loadTree (loadTree_of_loadSource hload)
  have hprogram : m.program = some q := by rw [hm, Machine.emit]
  have hcategory : e.cause.category ≠ .internal := by rw [hcause]; decide
  exact ⟨tree, m, e, m', hload, hrun, hcause, hline, fault_line_lexical hprogram hrun hcategory⟩

/-- A loop whose body makes its condition a number. -/
def strayLoop : String := "func main()\n  x = true;\n  while x do\n    x = 1;\n  endwhile\nendfunc\n"

/-- After a round, a condition that is not a truth value is reported at the end of the body and not at the loop. -/
theorem strayLoop_line : failure? 20 strayLoop "main" = some (.operand .notBoolean, some 4, ["main (line 4)"]) ∧
    (readProgram strayLoop).toOption.map (fun tree => tree.children.flatMap fun f => f.children.flatMap fun b =>
      b.children.map fun s => (s.kind, s.line)) = some [(.assign, 2), (.whileDo, 3)] := by
  decide +kernel

end Rover
