import Rover.Proofs.CallFrame
import Rover.Proofs.Origin

/-!
# Declarations

A variable is declared by the first assignment to it, or by a read into it: a cell is made, and the innermost record binds the
name to it. `Node.Declares` says so of one statement. A run of statements adds nothing else to that record, however it ends
and whatever it calls on the way (`grown_of_final`), and so the record has grown in this way only wherever the run starts
another task (`Task.Starts.grown`).
-/

namespace Rover

/-- `s.Declares n outer c`: the statement `s`, run on `n`, makes the cell `c` for a variable that is not yet bound in the
innermost record, which is the one above `outer`. The address of a new cell is the number of those that there are. -/
inductive Node.Declares (n : Machine) (outer : List Frame) : Node → Cell → Prop
  | assigned {l : Int} {t : String} {v : Option Value} {x e : Node} {cs : List Node} {y : Value} {n' : Machine} {f : Frame} :
      Gives (evaluate · e) { n with line := l } y n' → n'.stack.frames = f :: outer → f.cell? x.text = none →
        Declares n outer ⟨.assign, l, t, v, x :: e :: cs⟩ n'.stack.cells.size
  | read {l : Int} {t : String} {v : Option Value} {x : Node} {cs : List Node} {token : String} {rest : List String}
      {y : Value} {f : Frame} :
      n.input = token :: rest → Value.ofToken token = .ok y → n.stack.frames = f :: outer → f.cell? x.text = none →
        Declares n outer ⟨.read, l, t, v, x :: cs⟩ n.stack.cells.size

/-- The cell of a declaration is a new one: no record binds it yet. -/
theorem Node.Declares.not_mem {n : Machine} {outer : List Frame} {s : Node} {c : Cell} (h : s.Declares n outer c)
    (hn : n.stack.Closed) {g : Frame} (hg : g ∈ outer) : c ∉ g.cells := by
  cases h with
  | @assigned l _ _ _ _ _ _ n' _ he hframes _ =>
      obtain ⟨fuel, he⟩ := he
      have hclosed : n'.stack.Closed := (evaluate_extends (m := { n with line := l }) hn he).closed
      intro hc
      have hlt := hclosed g (hframes ▸ List.mem_cons_of_mem _ hg) _ hc
      exact Nat.lt_irrefl _ hlt
  | read _ _ hframes _ =>
      intro hc
      have hlt := hn g (hframes ▸ List.mem_cons_of_mem _ hg) _ hc
      exact Nat.lt_irrefl _ hlt

namespace Machine

variable {n n₁ n' : Machine} {t t₁ t' : Task}

theorem Visits.trans {first : Task} (h : n.Visits first t n₁) (h' : n₁.Visits t t' n') : n.Visits first t' n' := by
  induction h' with
  | first => exact h
  | step _ hstarts ih => exact ih.step hstarts

/-- A statement that the task comes to makes the cell, for the record above `outer`. -/
def Makes (n : Machine) (t : Task) (outer : List Frame) (c : Cell) : Prop :=
  ∃ s p, n.Visits t (.statement s) p ∧ s.Declares p outer c

theorem Makes.of_visits {outer : List Frame} {c : Cell} (hvisits : n.Visits t t' n') (h : n'.Makes t' outer c) :
    n.Makes t outer c := by
  obtain ⟨s, p, hs, hdeclares⟩ := h
  exact ⟨s, p, hvisits.trans hs, hdeclares⟩

/-- From `n` to `n'`, only the innermost record changes, and all that it gets are cells that the task makes for it. -/
def Grown (n : Machine) (t : Task) (n' : Machine) : Prop :=
  ∀ f outer, n.stack.frames = f :: outer →
    ∃ f', n'.stack.frames = f' :: outer ∧ ∀ c ∈ f'.cells, c ∈ f.cells ∨ n.Makes t outer c

namespace Grown

theorem of_frames (h : n'.stack.frames = n.stack.frames) : n.Grown t n' :=
  fun f _ hf => ⟨f, h.trans hf, fun _ => .inl⟩

/-- On with a task that is started. -/
theorem step (h : n.Grown t n₁) (hstarts : t.Starts n t₁ n₁) (h' : n₁.Grown t₁ n') : n.Grown t n' := by
  intro f outer hf
  obtain ⟨f₁, hf₁, hcells⟩ := h f outer hf
  obtain ⟨f', hf', hcells'⟩ := h' f₁ outer hf₁
  refine ⟨f', hf', fun c hc => ?_⟩
  rcases hcells' c hc with hc | hmakes
  · exact hcells c hc
  · exact .inr (.of_visits (.step .first hstarts) hmakes)

/-- A task that is started in the same records. -/
theorem of_starts (hstarts : t.Starts n t₁ n₁) (hframes : n₁.stack.frames = n.stack.frames) (h : n₁.Grown t₁ n') :
    n.Grown t n' :=
  (of_frames hframes).step hstarts h

end Grown

end Machine

/-! ### What computations leave -/

theorem frames_of_evaluate {e : Node} {v : Value} {n n' : Machine} (h : Gives (evaluate · e) n v n') :
    n'.stack.frames = n.stack.frames := by
  obtain ⟨fuel, h⟩ := h
  have hanswers : (Task.evaluate e).Answers fuel n n' := ⟨v, h⟩
  exact (frames_of_final hanswers.final).2 rfl

namespace Eval

variable {α β : Type} {x : Eval α} {f : α → Eval β} {n n' : Machine}

/-- A sequence ends where its first part fails, or goes on from its answer. -/
theorem left_of_bind (h : ((x >>= f) n).machine? = some n') :
    ∃ n₁, (x n).machine? = some n₁ ∧ (n' = n₁ ∨ ∃ a, x n = .done a n₁ ∧ (f a n₁).machine? = some n') := by
  cases hx : x n with
  | done a n₁ =>
      rw [bind_of_done hx] at h
      exact ⟨n₁, rfl, .inr ⟨a, rfl, h⟩⟩
  | failed e n₁ =>
      rw [bind_of_failed hx] at h
      cases h
      exact ⟨n', rfl, .inl rfl⟩
  | unfinished =>
      rw [bind_of_unfinished hx] at h
      cases h

/-- An expression, and what follows with its value. -/
theorem left_of_value {fuel : Nat} {e : Node} {f : Value → Eval β} (h : ((evaluate fuel e >>= f) n).machine? = some n') :
    ∃ n₁, n₁.stack.frames = n.stack.frames ∧
      (n' = n₁ ∨ ∃ v, Gives (evaluate · e) n v n₁ ∧ (f v n₁).machine? = some n') := by
  obtain ⟨n₁, hn₁, h⟩ := left_of_bind h
  refine ⟨n₁, (frames_of_final (t := .evaluate e) hn₁).2 rfl, h.imp id ?_⟩
  rintro ⟨v, hv, h⟩
  exact ⟨v, ⟨fuel, hv⟩, h⟩

/-- A condition, and what follows when it has been tested. -/
theorem left_of_test {fuel : Nat} {e : Node} {f : Value → Bool → Eval β}
    (h : ((evaluate fuel e >>= fun v => Eval.ofExcept id v.asBoolean >>= f v) n).machine? = some n') :
    ∃ n₁, n₁.stack.frames = n.stack.frames ∧
      (n' = n₁ ∨ ∃ b, Gives (evaluate · e) n (.boolean b) n₁ ∧ (f (.boolean b) b n₁).machine? = some n') := by
  obtain ⟨n₁, hframes, rfl | ⟨v, hv, h⟩⟩ := left_of_value h
  · exact ⟨n', hframes, .inl rfl⟩
  cases hb : v.asBoolean with
  | error c =>
      rw [hb] at h
      cases h
      exact ⟨n', hframes, .inl rfl⟩
  | ok b =>
      rw [hb] at h
      cases Value.eq_boolean_of_asBoolean hb
      exact ⟨n₁, hframes, .inr ⟨b, hv, h⟩⟩

/-- An assignment binds at most one new cell, if the variable has none. -/
theorem left_of_assign {x : String} {v : Value} {a : β} {g : Frame} {outer : List Frame}
    (hframes : n.stack.frames = g :: outer) (h : ((Eval.assign x v >>= fun _ => Pure.pure a) n).machine? = some n') :
    ∃ g', n'.stack.frames = g' :: outer ∧ ∀ c ∈ g'.cells, c ∈ g.cells ∨ g.cell? x = none ∧ c = n.stack.cells.size := by
  have hassign : Eval.assign x v n = .done () { n with stack := n.stack.assign x v } := by
    unfold Eval.assign
    rw [hframes]
  rw [bind_of_done hassign] at h
  cases h
  rcases Stack.assign_cases hframes x v with ⟨d, -, -, heq⟩ | ⟨hnone, heq⟩
  · exact ⟨g, by rw [heq], fun c => .inl⟩
  · refine ⟨g.bind x n.stack.cells.size, by rw [heq], fun c hc => ?_⟩
    rcases Frame.mem_cells_bind hc with rfl | hc
    · exact .inr ⟨hnone, rfl⟩
    · exact .inl hc

end Eval

/-! ### Runs of statements -/

section Statement

variable {fuel : Nat} {l : Int} {t : String} {v : Option Value} {n n' : Machine}

namespace Machine.Grown

theorem assign {x e : Node} {cs : List Node}
    (h : (runStatement (fuel + 1) ⟨.assign, l, t, v, x :: e :: cs⟩ n).machine? = some n') :
    n.Grown (.statement ⟨.assign, l, t, v, x :: e :: cs⟩) n' := by
  rw [runStatement_assign, Eval.setLine_bind] at h
  obtain ⟨n₁, hframes, rfl | ⟨y, hy, h⟩⟩ := Eval.left_of_value h
  · exact .of_frames hframes
  intro f outer hf
  obtain ⟨f', hf', hcells⟩ := Eval.left_of_assign (hframes.trans hf) h
  refine ⟨f', hf', fun c hc => (hcells c hc).imp_right ?_⟩
  rintro ⟨hnone, rfl⟩
  exact ⟨_, n, .first, .assigned hy (hframes.trans hf) hnone⟩

theorem read {cs : List Node} (h : (runStatement (fuel + 1) ⟨.read, l, t, v, cs⟩ n).machine? = some n') :
    n.Grown (.statement ⟨.read, l, t, v, cs⟩) n' := by
  rw [runStatement_read, Eval.setLine_bind] at h
  cases hinput : n.input with
  | nil =>
      have hnext : Eval.nextToken { n with line := l } = .failed (.bare .noInput) { n.taken with line := l } :=
        Eval.nextToken_of_nil hinput
      rw [Eval.bind_of_failed hnext] at h
      cases h
      exact .of_frames rfl
  | cons token rest =>
      have hnext : Eval.nextToken { n with line := l } = .done token { n.taken with line := l } :=
        Eval.nextToken_of_cons hinput
      rw [Eval.bind_of_done hnext] at h
      cases hvalue : Value.ofToken token with
      | error e =>
          rw [storeToken_of_error hvalue] at h
          cases h
          exact .of_frames rfl
      | ok y =>
          cases cs with
          | nil =>
              rw [storeToken_nil hvalue] at h
              cases h
              exact .of_frames rfl
          | cons x cs =>
              rw [storeToken_cons hvalue] at h
              intro f outer hf
              obtain ⟨f', hf', hcells⟩ := Eval.left_of_assign (n := { n.taken with line := l }) hf h
              refine ⟨f', hf', fun c hc => (hcells c hc).imp_right ?_⟩
              rintro ⟨hnone, rfl⟩
              exact ⟨_, n, .first, .read hinput hvalue hf hnone⟩

theorem ret {cs : List Node} (h : (runStatement (fuel + 1) ⟨.ret, l, t, v, cs⟩ n).machine? = some n') :
    n.Grown (.statement ⟨.ret, l, t, v, cs⟩) n' := by
  cases cs with
  | nil =>
      cases h
      exact .of_frames rfl
  | cons e cs =>
      rw [runStatement_ret, Eval.setLine_bind] at h
      obtain ⟨n₁, hframes, rfl | ⟨y, -, h⟩⟩ := Eval.left_of_value h
      · exact .of_frames hframes
      · cases h
        exact .of_frames hframes

theorem write {e : Node} {cs : List Node}
    (h : (runStatement (fuel + 1) ⟨.write, l, t, v, e :: cs⟩ n).machine? = some n') :
    n.Grown (.statement ⟨.write, l, t, v, e :: cs⟩) n' := by
  rw [runStatement_write, Eval.setLine_bind] at h
  by_cases htext : e.kind = .string → e.value = none
  · rw [writeNode_value htext] at h
    obtain ⟨n₁, hframes, rfl | ⟨y, -, h⟩⟩ := Eval.left_of_value h
    · exact .of_frames hframes
    · cases h
      exact .of_frames hframes
  · obtain ⟨hkind, hvalue⟩ := Classical.not_imp.1 htext
    obtain ⟨x, hx⟩ := Option.ne_none_iff_exists'.1 hvalue
    rw [writeNode_text hkind hx] at h
    cases h
    exact .of_frames rfl

theorem call {callee arguments : Node} {cs : List Node}
    (h : (runStatement (fuel + 1) ⟨.call, l, t, v, callee :: arguments :: cs⟩ n).machine? = some n') :
    n.Grown (.statement ⟨.call, l, t, v, callee :: arguments :: cs⟩) n' := by
  rw [runStatement_call, Eval.setLine_bind] at h
  obtain ⟨n₁, hn₁, h⟩ := Eval.left_of_bind h
  have hframes : n₁.stack.frames = n.stack.frames :=
    (frames_of_final (t := .invoke callee.text arguments.children) hn₁).2 rfl
  rcases h with rfl | ⟨y, -, h⟩
  · exact .of_frames hframes
  · cases h
    exact .of_frames hframes

end Machine.Grown

/-- What is to be shown of all tasks, by induction on the fuel. -/
def TasksGrow (fuel : Nat) : Prop := ∀ {t : Task} {n n' : Machine}, t.final? fuel n = some n' → n.Grown t n'

namespace TasksGrow

variable (ih : TasksGrow fuel)

include ih

theorem block {nodes : List Node} (h : (runBlock (fuel + 1) nodes n).machine? = some n') : n.Grown (.block nodes) n' := by
  cases nodes with
  | nil =>
      cases h
      exact .of_frames rfl
  | cons s nodes =>
      rw [runBlock] at h
      obtain ⟨n₁, hn₁, h⟩ := Eval.left_of_bind h
      have hfirst : n.Grown (.block (s :: nodes)) n₁ := .of_starts .statement rfl (ih (t := .statement s) hn₁)
      rcases h with rfl | ⟨r, hr, h⟩
      · exact hfirst
      · cases r with
        | some v =>
            cases h
            exact hfirst
        | none => exact hfirst.step (.block ⟨fuel, hr⟩) (ih (t := .block nodes) h)

theorem loop {condition : Node} {body : List Node} (h : (runLoop (fuel + 1) condition body n).machine? = some n') :
    n.Grown (.loop condition body) n' := by
  rw [runLoop] at h
  obtain ⟨n₁, hframes, rfl | ⟨b, htest, h⟩⟩ := Eval.left_of_test h
  · exact .of_frames hframes
  cases b with
  | false =>
      cases h
      exact .of_frames hframes
  | true =>
      obtain ⟨n₂, hn₂, h⟩ := Eval.left_of_bind h
      have hround : n.Grown (.loop condition body) n₂ := .of_starts (.round htest) hframes (ih (t := .block body) hn₂)
      rcases h with rfl | ⟨r, hr, h⟩
      · exact hround
      · cases r with
        | some v =>
            cases h
            exact hround
        | none => exact hround.step (.again htest ⟨fuel, hr⟩) (ih (t := .loop condition body) h)

theorem ifElse {c : Node} {bs : List Node}
    (h : (runStatement (fuel + 1) ⟨.ifElse, l, t, v, c :: bs⟩ n).machine? = some n') :
    n.Grown (.statement ⟨.ifElse, l, t, v, c :: bs⟩) n' := by
  rw [runStatement_ifElse, Eval.setLine_bind] at h
  obtain ⟨n₁, hframes, rfl | ⟨b, htest, h⟩⟩ := Eval.left_of_test h
  · exact .of_frames hframes
  cases b with
  | true =>
      cases bs with
      | nil =>
          cases h
          exact .of_frames hframes
      | cons b bs => exact .of_starts (.consequent htest) hframes (ih (t := .block b.children) h)
  | false =>
      rcases bs with _ | ⟨a, _ | ⟨b, _ | ⟨d, bs⟩⟩⟩
      · cases h
        exact .of_frames hframes
      · cases h
        exact .of_frames hframes
      · exact .of_starts (.alternative htest) hframes (ih (t := .block b.children) h)
      · cases h
        exact .of_frames hframes

theorem statement {s : Node} (h : (runStatement (fuel + 1) s n).machine? = some n') : n.Grown (.statement s) n' := by
  obtain ⟨k, l, t, v, cs⟩ := s
  cases statementShape k cs with
  | assign => exact .assign h
  | ifElse => exact ih.ifElse h
  | whileDo c b => exact .of_starts .loop rfl (ih (t := .loop c b.children) h)
  | ret => exact .ret h
  | read => exact .read h
  | write => exact .write h
  | call => exact .call h
  | defect hdefect =>
      rw [runStatement_defect hdefect] at h
      cases h
      exact .of_frames rfl

end TasksGrow

end Statement

/-- Whether it answers or fails, a task adds to the innermost record only what its statements declare there. -/
theorem grown_of_final {fuel : Nat} : TasksGrow fuel := by
  induction fuel with
  | zero =>
      intro t n n' h
      cases t <;> cases h
  | succ fuel ih =>
      intro t n n' h
      cases t with
      | block nodes => exact ih.block h
      | statement s => exact ih.statement h
      | loop condition body => exact ih.loop h
      | _ => exact .of_frames ((frames_of_final h).2 rfl)

/-- The one task is the body of the other, a call. -/
def Task.opens : Task → Task → Bool
  | .call _ _, .block _ => true
  | _, _ => false

/-- On its way to a task that it starts, a task adds to the innermost record only what its statements declare there. -/
theorem Task.Starts.grown {t t' : Task} {n n' : Machine} (h : t.Starts n t' n') (hopens : t.opens t' = false) :
    n.Grown t n' := by
  cases h with
  | right _ hleft _ => exact .of_frames (frames_of_evaluate hleft)
  | operation _ hprecheck =>
      cases machine_of_precheck hprecheck
      exact .of_frames rfl
  | arguments hfirst _ => exact .of_frames (frames_of_evaluate hfirst)
  | function _ hlookup =>
      cases machine_of_function hlookup
      exact .of_frames rfl
  | binding hfirst =>
      obtain ⟨fuel, hfirst⟩ := hfirst
      rcases argumentCell_cases hfirst with rfl | ⟨v, m₁, hv, rfl⟩
      · exact .of_frames rfl
      · have hframes := frames_of_evaluate ⟨fuel, hv⟩
        exact .of_frames hframes
  | body _ _ _ => cases hopens
  | @block s _ _ hfirst =>
      obtain ⟨fuel, hfirst⟩ := hfirst
      have hanswers : (Task.statement s).Answers fuel n n' := ⟨none, hfirst⟩
      exact .of_starts .statement rfl (grown_of_final hanswers.final)
  | consequent hcondition => exact .of_frames (frames_of_evaluate hcondition :)
  | alternative hcondition => exact .of_frames (frames_of_evaluate hcondition :)
  | round hcondition => exact .of_frames (frames_of_evaluate hcondition :)
  | @again _ body n₁ _ hcondition hround =>
      obtain ⟨fuel, hround⟩ := hround
      have hanswers : (Task.block body).Answers fuel n₁ n' := ⟨none, hround⟩
      exact .of_starts (.round hcondition) (frames_of_evaluate hcondition) (grown_of_final hanswers.final)
  | _ => exact .of_frames rfl

end Rover
