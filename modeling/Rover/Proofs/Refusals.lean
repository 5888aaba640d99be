import Rover.Proofs.Origin

/-!
# Robot operations that fail

A robot operation acts last. Whatever it fails for, it has not touched the world, and it has told nothing: the machine is
as the evaluation of its arguments has left it. `Builtin.Refused` lists the ways to fail together with the machine that each
of them leaves, and `refused_of_invoke` says that there is no other. An expression without calls changes nothing but the
line that the machine stands at, and so does an operation that fails on such arguments.
-/

namespace Rover

/-- `Evaluated types m nodes values m'`: the arguments have been evaluated from left to right, from `m` to `m'`, and each
has been found to be of its type before the next. -/
inductive Evaluated : List ArgumentType → Machine → List Node → List Value → Machine → Prop
  | nil {m : Machine} : Evaluated [] m [] [] m
  | cons {t : ArgumentType} {types : List ArgumentType} {n : Node} {nodes : List Node} {v x : Value} {values : List Value}
      {m m₁ m' : Machine} :
      Gives (evaluate · n) m v m₁ → t.check v = .ok x → Evaluated types m₁ nodes values m' →
        Evaluated (t :: types) m (n :: nodes) (x :: values) m'

/-- `b.Refused m nodes e m'`: the operation, called on `m`, fails with `e` and leaves `m'`. -/
inductive Builtin.Refused (b : Builtin) (m : Machine) (nodes : List Node) : Fault → Machine → Prop
  | unplaced : b.needsPosition = true → m.world.positioned = false →
      Refused b m nodes (.bare (.world .notPositioned)) m
  | count : (b.needsPosition = true → m.world.positioned = true) → nodes.length ≠ b.arguments.length →
      Refused b m nodes (.bare .argumentCount) m
  | argument {types types' : List ArgumentType} {t : ArgumentType} {before after : List Node} {n : Node}
      {values : List Value} {m₁ m' : Machine} {fuel : Nat} {e : Fault} :
      b.arguments = types ++ t :: types' → nodes = before ++ n :: after → Evaluated types m before values m₁ →
        evaluate fuel n m₁ = .failed e m' → Refused b m nodes e m'
  | type {types types' : List ArgumentType} {t : ArgumentType} {before after : List Node} {n : Node}
      {values : List Value} {v : Value} {m₁ m' : Machine} {c : Cause} :
      b.arguments = types ++ t :: types' → nodes = before ++ n :: after → Evaluated types m before values m₁ →
        Gives (evaluate · n) m₁ v m' → t.check v = .error c → Refused b m nodes (.bare c) m'
  | world {values : List Value} {m' : Machine} {fuel : Nat} {e : WorldError} :
      Evaluated b.arguments m nodes values m' → b.perform fuel values m' = .failed (.bare (.world e)) m' →
        Refused b m nodes (.bare (.world e)) m'

/-! ### Arguments -/

section Arguments

variable {fuel : Nat} {types : List ArgumentType} {nodes : List Node} {m m' : Machine}

theorem evaluated_of_done {values : List Value} (hlength : nodes.length = types.length)
    (h : evaluateArguments fuel types nodes m = .done values m') : Evaluated types m nodes values m' := by
  induction fuel generalizing types nodes m values with
  | zero => cases h
  | succ fuel ih =>
      rcases types with _ | ⟨t, types⟩ <;> rcases nodes with _ | ⟨n, nodes⟩
      · cases h
        exact .nil
      · cases hlength
      · cases hlength
      · rw [evaluateArguments] at h
        obtain ⟨v, m₁, hv, h⟩ := Eval.done_of_bind h
        obtain ⟨x, hx, h⟩ := Eval.done_of_check h
        obtain ⟨rest, m₂, hrest, h⟩ := Eval.done_of_bind h
        cases h
        exact .cons ⟨fuel, hv⟩ hx (ih (Nat.succ.inj hlength) hrest)

/-- Arguments fail with the first that cannot be evaluated or is not of its type. -/
theorem first_failed {e : Fault} (h : evaluateArguments fuel types nodes m = .failed e m') :
    ∃ done t types' before n after values m₁, types = done ++ t :: types' ∧ nodes = before ++ n :: after ∧
      Evaluated done m before values m₁ ∧
      ((∃ fuel, evaluate fuel n m₁ = .failed e m') ∨
        ∃ v c, Gives (evaluate · n) m₁ v m' ∧ t.check v = .error c ∧ e = .bare c) := by
  induction fuel generalizing types nodes m with
  | zero => cases h
  | succ fuel ih =>
      rcases types with _ | ⟨t, types⟩ <;> rcases nodes with _ | ⟨n, nodes⟩
      · cases h
      · cases h
      · cases h
      · rw [evaluateArguments] at h
        rcases Eval.failed_of_bind h with hfailed | ⟨v, m₁, hv, h⟩
        · exact ⟨[], t, types, [], n, nodes, [], m, rfl, rfl, .nil, .inl ⟨fuel, hfailed⟩⟩
        rcases Eval.failed_of_check h with ⟨c, hc, rfl, rfl⟩ | ⟨x, hx, h⟩
        · exact ⟨[], t, types, [], n, nodes, [], m, rfl, rfl, .nil, .inr ⟨v, c, ⟨fuel, hv⟩, hc, rfl⟩⟩
        rcases Eval.failed_of_bind h with hrest | ⟨_, _, -, hpure⟩
        · obtain ⟨done, t', types', before, n', after, values, m₂, rfl, rfl, hdone, hend⟩ := ih hrest
          exact ⟨t :: done, t', types', n :: before, n', after, x :: values, m₂, rfl, rfl, .cons ⟨fuel, hv⟩ hx hdone, hend⟩
        · cases hpure

end Arguments

/-! ### Checks -/

theorem precheck_unplaced {b : Builtin} {m : Machine} (hneeds : b.needsPosition = true)
    (hplaced : m.world.positioned = false) (count : Nat) :
    b.precheck count m = .failed (.bare (.world .notPositioned)) m := by
  have hask : Eval.ask (·.requirePositioned) m = .failed (.bare (.world .notPositioned)) m := by
    rw [Eval.ask, World.requirePositioned, hplaced]
    rfl
  rw [Builtin.precheck, hneeds]
  exact Eval.bind_of_failed hask

theorem precheck_placed {b : Builtin} {m : Machine} (hplaced : b.needsPosition = true → m.world.positioned = true)
    (count : Nat) :
    b.precheck count m = if count ≠ b.arguments.length then .failed (.bare .argumentCount) m else .done () m := by
  have hcount : (if count ≠ b.arguments.length then Eval.fail .argumentCount else Pure.pure () : Eval Unit) m =
      if count ≠ b.arguments.length then .failed (.bare .argumentCount) m else .done () m := by
    split_ifs <;> rfl
  unfold Builtin.precheck
  dsimp only
  split
  · rename_i hneeds
    have hask : Eval.ask (·.requirePositioned) m = .done () m := by
      rw [Eval.ask, World.requirePositioned, hplaced hneeds]
      rfl
    rw [Eval.bind_of_done hask]
    exact hcount
  · exact hcount

theorem precheck_fails {b : Builtin} {m : Machine} {count : Nat}
    (h : b.needsPosition = true ∧ m.world.positioned = false ∨ count ≠ b.arguments.length) :
    ∃ c, b.precheck count m = .failed (.bare c) m := by
  by_cases hunplaced : b.needsPosition = true ∧ m.world.positioned = false
  · exact ⟨_, precheck_unplaced hunplaced.1 hunplaced.2 count⟩
  · rw [precheck_placed (fun hneeds => by simpa [hneeds] using hunplaced), if_pos (h.resolve_left hunplaced)]
    exact ⟨_, rfl⟩

/-! ### The operation itself -/

/-- The values of a type, as operations take them. -/
def ArgumentType.Describes : ArgumentType → Value → Prop
  | .number, v => ∃ x, v = .float x
  | .integer, v => ∃ n, v = .integer n
  | .boolean, v => ∃ b, v = .boolean b

theorem ArgumentType.describes_of_check {t : ArgumentType} {v x : Value} (h : t.check v = .ok x) : t.Describes x := by
  cases t <;> cases v <;> cases h <;> exact ⟨_, rfl⟩

theorem Evaluated.describes {types : List ArgumentType} {m m' : Machine} {nodes : List Node} {values : List Value}
    (h : Evaluated types m nodes values m') : List.Forall₂ ArgumentType.Describes types values := by
  induction h with
  | nil => exact .nil
  | cons _ hcheck _ ih => exact .cons (ArgumentType.describes_of_check hcheck) ih

/-- A computation that fails only if the world refuses. -/
def Eval.FailsByWorld {α : Type} (x : Eval α) : Prop := ∀ m e m', x m = .failed e m' → ∃ we, e = .bare (.world we)

namespace Eval.FailsByWorld

variable {α β : Type}

theorem world (operation : World → Except WorldError (Change α)) (narrate : α → World → List String) :
    FailsByWorld (Eval.world operation narrate) := by
  intro m e m' h
  unfold Eval.world at h
  split at h
  · cases h
    exact ⟨_, rfl⟩
  · cases h

theorem ask (question : World → Except WorldError α) : FailsByWorld (Eval.ask question) := by
  intro m e m' h
  unfold Eval.ask at h
  split at h
  · cases h
    exact ⟨_, rfl⟩
  · cases h

theorem map {x : Eval α} (hx : FailsByWorld x) (f : α → β) : FailsByWorld (x >>= fun a => Pure.pure (f a)) := by
  intro m e m' h
  rcases Eval.failed_of_bind h with hfailed | ⟨a, m₁, -, hpure⟩
  · exact hx m e m' hfailed
  · cases hpure

theorem performMove (fuel : Nat) (distance : Float) : FailsByWorld (Builtin.performMove fuel distance) := by
  intro m e m' h
  unfold Builtin.performMove at h
  split at h
  · cases h
  · exact (world _ _).map (fun _ => Value.void) m e m' h

/-- On arguments of its types an operation fails only if the world refuses. -/
theorem perform (fuel : Nat) {b : Builtin} {values : List Value}
    (hvalues : List.Forall₂ ArgumentType.Describes b.arguments values) : FailsByWorld (b.perform fuel values) := by
  cases b <;> simp only [Builtin.arguments, List.forall₂_cons_left_iff, List.forall₂_nil_left_iff] at hvalues
  case set =>
    obtain ⟨_, _, ⟨x, rfl⟩, ⟨_, _, ⟨y, rfl⟩, ⟨_, _, ⟨degrees, rfl⟩, rfl, rfl⟩, rfl⟩, rfl⟩ := hvalues
    exact (world _ _).map _
  case move =>
    obtain ⟨_, _, ⟨distance, rfl⟩, rfl, rfl⟩ := hvalues
    exact performMove fuel distance
  case turn =>
    obtain ⟨_, _, ⟨degrees, rfl⟩, rfl, rfl⟩ := hvalues
    exact (world _ _).map _
  case obstacle =>
    obtain ⟨_, _, ⟨x, rfl⟩, ⟨_, _, ⟨y, rfl⟩, ⟨_, _, ⟨sizeX, rfl⟩, ⟨_, _, ⟨sizeY, rfl⟩, rfl, rfl⟩, rfl⟩, rfl⟩, rfl⟩ := hvalues
    exact (world _ _).map _
  case trail =>
    obtain ⟨_, _, ⟨enabled, rfl⟩, rfl, rfl⟩ := hvalues
    exact (world _ _).map _
  case feel =>
    obtain ⟨_, _, ⟨sensor, rfl⟩, rfl, rfl⟩ := hvalues
    exact (ask _).map _
  all_goals
    subst hvalues
    exact (ask _).map _

end Eval.FailsByWorld

theorem Builtin.ofName?_name (b : Builtin) : ofName? b.name = some b := by
  cases b <;> rfl

/-- There is no other way for an operation to fail. -/
theorem refused_of_invoke {fuel : Nat} {b : Builtin} {nodes : List Node} {m m' : Machine} {e : Fault}
    (h : invoke fuel b.name nodes m = .failed e m') : b.Refused m nodes e m' := by
  cases fuel with
  | zero => cases h
  | succ fuel =>
      rw [invoke_operation b.ofName?_name] at h
      by_cases hunplaced : b.needsPosition = true ∧ m.world.positioned = false
      · rw [Eval.bind_of_failed (precheck_unplaced hunplaced.1 hunplaced.2 _)] at h
        cases h
        exact .unplaced hunplaced.1 hunplaced.2
      have hplaced (hneeds : b.needsPosition = true) : m.world.positioned = true := by simpa [hneeds] using hunplaced
      have hprecheck := precheck_placed hplaced nodes.length
      by_cases hcount : nodes.length = b.arguments.length
      · rw [if_neg (not_not.2 hcount)] at hprecheck
        rw [Eval.bind_of_done hprecheck] at h
        rcases Eval.failed_of_bind h with hfailed | ⟨values, m₁, hvalues, h⟩
        · obtain ⟨_, _, _, _, _, _, _, _, htypes, hnodes, hdone, ⟨fuel, hn⟩ | ⟨v, c, hv, hc, rfl⟩⟩ := first_failed hfailed
          · exact .argument htypes hnodes hdone hn
          · exact .type htypes hnodes hdone hv hc
        · have hevaluated := evaluated_of_done hcount hvalues
          obtain ⟨rfl, -⟩ := (Outcome.Acts.perform fuel b values m₁).of_failed h
          obtain ⟨we, rfl⟩ := Eval.FailsByWorld.perform fuel hevaluated.describes _ _ _ h
          exact .world hevaluated h
      · rw [if_pos hcount] at hprecheck
        rw [Eval.bind_of_failed hprecheck] at h
        cases h
        exact .count hplaced hcount

/-! ### Arguments without calls -/

/-- The machine has only moved to another line. -/
def Machine.Stays (m m' : Machine) : Prop := m' = { m with line := m'.line }

theorem Machine.Stays.trans {a b c : Machine} (hab : a.Stays b) (hbc : b.Stays c) : a.Stays c := by
  rw [Machine.Stays, hbc, hab]

/-- A computation that changes no more than the line, whether it ends well or not. -/
def Eval.Still {α : Type} (x : Eval α) : Prop := x.Keeps Machine.Stays

namespace Eval.Still

variable {α β : Type}

theorem pure (a : α) : Still (Pure.pure a) := fun _ => rfl

theorem fail (c : Cause) : Still (Eval.fail c : Eval α) := fun _ => rfl

theorem ofExcept (r : Except Cause α) : Still (Eval.ofExcept id r) := by
  cases r with
  | ok a => exact fun _ => rfl
  | error c => exact fail c

theorem bind {x : Eval α} {f : α → Eval β} (hx : Still x) (hf : ∀ a, Still (f a)) : Still (x >>= f) :=
  fun m => Eval.leaves_bind (R := Machine.Stays) .trans (hx m) hf

end Eval.Still

theorem Node.anyHas_eq_false {k : Kind} {nodes : List Node} (h : anyHas k nodes = false) : ∀ n ∈ nodes, n.has k = false := by
  induction nodes with
  | nil => simp
  | cons n nodes ih =>
      rw [anyHas, Bool.or_eq_false_iff] at h
      rw [List.forall_mem_cons]
      exact ⟨h.1, ih h.2⟩

section WithoutCalls

variable {fuel : Nat}

theorem operation_still (ih : ∀ n : Node, n.has .call = false → (evaluate fuel n).Still) (k : Kind) {children : List Node}
    (hcalls : ∀ n ∈ children, n.has .call = false) : (operation fuel k children).Still := by
  have hright (n : Node) (hn : n.has .call = false) : Eval.Still (do
      let r ← evaluate fuel n
      return Value.boolean (← Eval.ofExcept id r.asBoolean)) :=
    (ih n hn).bind fun r => (Eval.Still.ofExcept _).bind fun b => .pure _
  rcases children with _ | ⟨a, _ | ⟨b, rest⟩⟩
  · exact .fail _
  · exact (ih a (hcalls a (by simp))).bind fun v => .ofExcept _
  · have ha := ih a (hcalls a (by simp))
    have hb := hcalls b (by simp)
    unfold operation
    dsimp only
    split
    · refine ha.bind fun l => (Eval.Still.ofExcept _).bind fun c => ?_
      split
      · exact hright b hb
      · exact .pure _
    · refine ha.bind fun l => (Eval.Still.ofExcept _).bind fun c => ?_
      split
      · exact .pure _
      · exact hright b hb
    · exact ha.bind fun l => (ih b hb).bind fun r => .ofExcept _

theorem evaluateNode_still (ih : ∀ n : Node, n.has .call = false → (evaluate fuel n).Still) {n : Node}
    (hcalls : n.has .call = false) : (evaluateNode (fuel + 1) n).Still := by
  obtain ⟨k, line, text, value, children⟩ := n
  rw [Node.has, Bool.or_eq_false_iff, decide_eq_false_iff_not] at hcalls
  cases k.evaluated with
  | id =>
      intro m
      rw [evaluateNode]
      unfold Eval.variableValue
      split <;> exact rfl
  | literal hliteral =>
      rw [evaluateNode_literal hliteral]
      cases value with
      | some v => exact .pure v
      | none => exact .fail _
  | call => exact absurd rfl hcalls.1
  | operator hoperator =>
      rw [evaluateNode_operator hoperator]
      exact operation_still ih k (Node.anyHas_eq_false hcalls.2)

/-- An expression without calls changes no more than the line, whether or not it has a value. -/
theorem evaluate_still {n : Node} (hcalls : n.has .call = false) :
    (evaluate fuel n).Still ∧ (evaluateNode fuel n).Still := by
  induction fuel generalizing n with
  | zero => exact ⟨fun _ => trivial, fun _ => trivial⟩
  | succ fuel ih =>
      refine ⟨fun m => ?_, evaluateNode_still (fun n hn => (ih hn).1) hcalls⟩
      have hnode := (ih hcalls).2 { m with line := n.line }
      rw [evaluate_eq]
      cases hrun : evaluateNode fuel n { m with line := n.line } with
      | done v m' =>
          rw [hrun] at hnode
          exact congrArg (fun m' : Machine => { m' with line := m.line }) hnode
      | failed e m' =>
          rw [hrun] at hnode
          exact hnode
      | unfinished => trivial

theorem stays_of_failed {n : Node} (hcalls : n.has .call = false) {m m' : Machine} {e : Fault}
    (h : evaluate fuel n m = .failed e m') : m.Stays m' := by
  have hstill : (evaluate fuel n m).Leaves m.Stays := (evaluate_still hcalls).1 m
  rw [h] at hstill
  exact hstill

theorem stays_of_gives {n : Node} (hcalls : n.has .call = false) {m m' : Machine} {v : Value}
    (h : Gives (evaluate · n) m v m') : m.Stays m' := by
  obtain ⟨fuel, h⟩ := h
  have hstill : (evaluate fuel n m).Leaves m.Stays := (evaluate_still hcalls).1 m
  rw [show evaluate fuel n m = .done v m' from h] at hstill
  exact hstill

theorem Evaluated.stays {types : List ArgumentType} {m m' : Machine} {nodes : List Node} {values : List Value}
    (h : Evaluated types m nodes values m') (hcalls : ∀ n ∈ nodes, n.has .call = false) : m.Stays m' := by
  induction h with
  | nil => rfl
  | cons hv _ _ ih =>
      rw [List.forall_mem_cons] at hcalls
      exact .trans (stays_of_gives hcalls.1 hv) (ih hcalls.2)

end WithoutCalls

theorem Builtin.Refused.stays {b : Builtin} {m m' : Machine} {nodes : List Node} {e : Fault} (h : b.Refused m nodes e m')
    (hcalls : ∀ n ∈ nodes, n.has .call = false) : m.Stays m' := by
  cases h with
  | unplaced _ _ => rfl
  | count _ _ => rfl
  | argument _ hnodes hbefore hn =>
      rw [hnodes, List.forall_mem_append, List.forall_mem_cons] at hcalls
      exact .trans (hbefore.stays hcalls.1) (stays_of_failed hcalls.2.1 hn)
  | type _ hnodes hbefore hn _ =>
      rw [hnodes, List.forall_mem_append, List.forall_mem_cons] at hcalls
      exact .trans (hbefore.stays hcalls.1) (stays_of_gives hcalls.2.1 hn)
  | world hevaluated _ => exact hevaluated.stays hcalls

/-- A robot operation that fails changes nothing itself: the machine that it leaves, with the world and with the log that
the display, the console and the output are read from, is the one that the evaluation of its arguments has left, up to the
failure. If the robot is not placed where it has to be, or if the number of arguments is wrong, that is the machine at
the call; and if the arguments contain no call, it differs from that in its line at most. -/
theorem failed_operation_changes_nothing {fuel : Nat} {b : Builtin} {nodes : List Node} {m m' : Machine} {e : Fault}
    (h : invoke fuel b.name nodes m = .failed e m') :
    b.Refused m nodes e m' ∧
      (b.needsPosition = true ∧ m.world.positioned = false ∨ nodes.length ≠ b.arguments.length → m' = m) ∧
      (Node.anyHas .call nodes = false → m' = { m with line := m'.line }) := by
  have hrefused := refused_of_invoke h
  refine ⟨hrefused, fun hcheck => ?_, fun hcalls => hrefused.stays (Node.anyHas_eq_false hcalls)⟩
  cases fuel with
  | zero => cases h
  | succ fuel =>
      obtain ⟨c, hprecheck⟩ := precheck_fails hcheck
      rw [invoke_operation b.ofName?_name, Eval.bind_of_failed hprecheck] at h
      cases h
      rfl

theorem Outcome.eq_failed_get {o : Outcome Value} (h : o.fault?.isSome = true) :
    o = .failed (o.fault?.get h).1 (o.fault?.get h).2 :=
  Outcome.eq_failed (Option.some_get h).symm

namespace Misplaced

/-- A call of a function. -/
def call (name : String) (arguments : List Node) : Node := .branch .call 1 [.leaf .id 1 name, .branch .argList 1 arguments]

def number (x : Float) : Node := ⟨.float, 1, "", some (.float x), []⟩

/-- A function that places the robot, and returns a place outside the arena. -/
def place : Function where
  name := "place"
  params := []
  body := .branch .block 1
    [call "rSet" [number 5.0, number 5.0, number 0.0], .branch .ret 1 [number (-9.0)]]
  line := 1

def machine : Machine := { Machine.initial .default "" .unobserved with program := some ⟨[place]⟩ }

/-- The robot is to be placed where the function says. -/
def outcome : Outcome Value := invoke 40 Builtin.set.name [call "place" [], number 5.0, number 0.0] machine

theorem fails : outcome.fault?.isSome = true := by decide +kernel

/-- The fault, and the machine that it leaves. -/
def fault : Fault × Machine := outcome.fault?.get fails

theorem outcome_eq : outcome = .failed fault.1 fault.2 := by
  unfold fault
  exact Outcome.eq_failed_get fails

theorem leaves_first_place :
    fault.1.cause = .world .outOfBounds ∧ fault.2.world.path = #[(5.0, 5.0)] ∧
      Builtin.set.Refused machine [call "place" [], number 5.0, number 0.0] fault.1 fault.2 ∧
      (Builtin.set.needsPosition = true ∧ machine.world.positioned = false ∨ 3 ≠ Builtin.set.arguments.length →
        fault.2 = machine) ∧
      (Node.anyHas .call [call "place" [], number 5.0, number 0.0] = false →
        fault.2 = { machine with line := fault.2.line }) :=
  ⟨by decide +kernel, by decide +kernel, failed_operation_changes_nothing outcome_eq⟩

end Misplaced

end Rover
