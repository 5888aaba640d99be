import Rover.Proofs.CallReport
import Rover.Proofs.Independence

/-!
# Spans and the calls that they stand for

A run calls functions from bodies of functions, so the calls that it tells of form a tree, and this tree can be read off the
log of the run: `CallTree`. A span recorder hears the same log, but it does not hear that a call has failed. So its spans
agree with the tree in all but one respect. A call from outside has no caller, and still its span gets a parent if a call of
an earlier run has failed: the last call that has not returned, whose span is open for good.
-/

namespace Rover

/-- The calls that runs have told of, numbered in the order in which they were made: the function and the caller of each, the
calls under way, innermost first, and the calls that have returned, in the order of their returns. -/
structure CallTree where
  calls : List (String × Option Nat)
  underWay : List Nat
  returned : List Nat

namespace CallTree

/-- What an event makes of the calls. The innermost call under way makes the next call, and is the next one to return. -/
def follow? (t : CallTree) : Event → Option CallTree
  | .called name _ _ depth _ =>
    if depth = t.underWay.length then
      some { t with calls := t.calls ++ [(name, t.underWay.head?)], underWay := t.calls.length :: t.underWay }
    else none
  | .returned name _ _ _ depth =>
    match t.underWay with
    | [] => none
    | c :: outer =>
      if t.calls[c]?.map Prod.fst = some name ∧ depth = outer.length then
        some { t with underWay := outer, returned := t.returned ++ [c] }
      else none
  | _ => some t

/-- What a run tells. It starts with no call under way, since the calls that an earlier run has left have failed. -/
def run? (t : CallTree) (told : List Event) : Option CallTree := told.foldlM follow? { t with underWay := [] }

/-- The calls of runs, one after another. -/
def ofRuns? (runs : List (List Event)) : Option CallTree := runs.foldlM run? ⟨[], [], []⟩

/-- The calls before another one that have not returned. -/
def unreturned (t : CallTree) (n : Nat) : List Nat := (List.range n).filter (· ∉ t.returned)

/-- The functions of the calls under way, innermost first. -/
def names (t : CallTree) : List (Option String) := t.underWay.map fun c => t.calls[c]?.map Prod.fst

/-- What holds of calls as long as they are told of. -/
structure Sound (t : CallTree) : Prop where
  /-- The calls under way are the last ones that have not returned. -/
  underWay_prefix : t.underWay <+: (t.unreturned t.calls.length).reverse
  returned_lt : ∀ c ∈ t.returned, c < t.calls.length
  returned_nodup : t.returned.Nodup
  /-- A call without a caller comes before all calls under way, or is the first of them. -/
  entry_le : ∀ n name, t.calls[n]? = some (name, none) → ∀ c ∈ t.underWay, n ≤ c

end CallTree

/-- The spans agree with the calls: there is one span for each call, under its number. Its parent is the span of the caller, or
without a caller that of the last call before it that has not returned. The spans of the calls that have returned have ended,
in the order of the returns. -/
structure SpanRecorder.Records (r : SpanRecorder) (t : CallTree) : Prop where
  count_eq : r.count = t.calls.length
  opened_eq : r.opened.map Span.number = (t.unreturned t.calls.length).reverse
  ended_eq : r.spans.map Span.number = t.returned
  spans : ∀ s ∈ r.opened ++ r.ended, ∃ name caller, t.calls[s.number]? = some (name, caller) ∧
    s.name = "call:" ++ name ∧ s.parent = caller.or (t.unreturned s.number).getLast?

/-! ### Attributes -/

namespace Span

/-- Spans that differ in their attributes alone. -/
structure Same (s s' : Span) : Prop where
  number_eq : s'.number = s.number
  name_eq : s'.name = s.name
  parent_eq : s'.parent = s.parent

theorem Same.trans {a b c : Span} (h : a.Same b) (h' : b.Same c) : a.Same c :=
  ⟨h'.number_eq.trans h.number_eq, h'.name_eq.trans h.name_eq, h'.parent_eq.trans h.parent_eq⟩

theorem same_set (s : Span) (key : String) (a : Attribute) : s.Same (s.set key a) := by
  constructor <;> simp only [set]

theorem same_foldl (key : Binding → String) (value : Binding → Attribute) (bindings : List Binding) (s : Span) :
    s.Same (bindings.foldl (fun s b => s.set (key b) (value b)) s) := by
  induction bindings generalizing s with
  | nil => exact ⟨rfl, rfl, rfl⟩
  | cons b bindings ih =>
      rw [List.foldl_cons]
      exact (s.same_set (key b) (value b)).trans (ih _)

theorem same_setValues (s : Span) (group : String) (bindings : List Binding) : s.Same (s.setValues group bindings) := by
  unfold setValues
  exact same_foldl _ _ bindings s

end Span

/-! ### Calls and returns -/

namespace CallTree

variable {t : CallTree}

/-- The calls after another one has been made. -/
def called (t : CallTree) (name : String) : CallTree :=
  { t with calls := t.calls ++ [(name, t.underWay.head?)], underWay := t.calls.length :: t.underWay }

/-- The calls after one of them has returned to those around it. -/
def back (t : CallTree) (c : Nat) (outer : List Nat) : CallTree :=
  { t with underWay := outer, returned := t.returned ++ [c] }

theorem getElem?_called {n : Nat} (h : n < t.calls.length) (name : String) : (t.called name).calls[n]? = t.calls[n]? :=
  List.getElem?_append_left h

theorem getElem?_called_self (t : CallTree) (name : String) :
    (t.called name).calls[t.calls.length]? = some (name, t.underWay.head?) :=
  List.getElem?_concat_length

theorem unreturned_called (ht : t.Sound) (name : String) :
    (t.called name).unreturned (t.called name).calls.length = t.unreturned t.calls.length ++ [t.calls.length] := by
  have hnew : t.calls.length ∉ t.returned := fun hmem => (ht.returned_lt _ hmem).false
  have hlength : (t.called name).calls.length = t.calls.length + 1 := List.length_append
  rw [hlength, unreturned, List.range_succ, List.filter_append]
  change _ ++ List.filter (· ∉ t.returned) [t.calls.length] = _
  rw [List.filter_singleton, decide_eq_true hnew]
  rfl

theorem Sound.called (ht : t.Sound) (name : String) : (t.called name).Sound where
  underWay_prefix := by
    rw [unreturned_called ht, List.reverse_append]
    exact List.prefix_append_right_inj [_] |>.2 ht.underWay_prefix
  returned_lt c hc := by
    have hlt := ht.returned_lt c hc
    simp only [CallTree.called, List.length_append]
    omega
  returned_nodup := ht.returned_nodup
  entry_le n callee hentry c hc := by
    rcases lt_trichotomy n t.calls.length with hlt | rfl | hgt
    · rw [getElem?_called hlt] at hentry
      rcases List.mem_cons.1 hc with rfl | hc
      · exact hlt.le
      · exact ht.entry_le n callee hentry c hc
    · rw [getElem?_called_self] at hentry
      have hnone : t.underWay = [] := List.head?_eq_none_iff.1 (congrArg Prod.snd (Option.some.inj hentry))
      rw [CallTree.called, hnone] at hc
      exact (List.mem_singleton.1 hc).ge
    · have hlength : (t.called name).calls.length ≤ n := by
        simp only [CallTree.called, List.length_append, List.length_singleton]
        omega
      rw [List.getElem?_eq_none hlength] at hentry
      cases hentry

theorem unreturned_nodup (t : CallTree) (n : Nat) : (t.unreturned n).Nodup := List.nodup_range.filter _

theorem unreturned_back_eq_filter (t : CallTree) (c : Nat) (outer : List Nat) (n : Nat) :
    (t.back c outer).unreturned n = (t.unreturned n).filter (· ≠ c) := by
  rw [unreturned, unreturned, List.filter_filter]
  congr 1
  funext x
  simp [back, and_comm]

/-- The return of the innermost call takes the last of the calls that have not returned. -/
theorem unreturned_back (ht : t.Sound) {c : Nat} {outer : List Nat} (h : t.underWay = c :: outer) :
    t.unreturned t.calls.length = (t.back c outer).unreturned t.calls.length ++ [c] ∧
      outer <+: ((t.back c outer).unreturned t.calls.length).reverse := by
  obtain ⟨rest, hrest⟩ := ht.underWay_prefix
  rw [h, List.cons_append] at hrest
  have hsplit : t.unreturned t.calls.length = (outer ++ rest).reverse ++ [c] := by
    rw [← List.reverse_reverse (t.unreturned _), ← hrest, List.reverse_cons]
  have hnodup := t.unreturned_nodup t.calls.length
  rw [hsplit, List.nodup_append] at hnodup
  have hfilter : (t.back c outer).unreturned t.calls.length = (outer ++ rest).reverse := by
    rw [unreturned_back_eq_filter, hsplit, List.filter_append, List.filter_eq_self.2]
    · simp
    · intro x hx
      simpa using hnodup.2.2 x hx c (List.mem_singleton_self c)
  rw [hfilter, List.reverse_reverse]
  exact ⟨hsplit, List.prefix_append outer rest⟩

theorem Sound.back (ht : t.Sound) {c : Nat} {outer : List Nat} (h : t.underWay = c :: outer) : (t.back c outer).Sound := by
  obtain ⟨hsplit, hstart⟩ := unreturned_back ht h
  have hc : c ∈ t.unreturned t.calls.length := by simp [hsplit]
  obtain ⟨hlt, hnew⟩ : c < t.calls.length ∧ c ∉ t.returned := by simpa [unreturned] using hc
  refine ⟨hstart, ?_, ?_, ?_⟩
  · intro x hx
    rcases List.mem_append.1 hx with hx | hx
    · exact ht.returned_lt x hx
    · rwa [List.mem_singleton.1 hx]
  · exact ht.returned_nodup.append (List.nodup_singleton c) (by simpa using hnew)
  · intro n name hentry x hx
    exact ht.entry_le n name hentry x (h ▸ List.mem_cons_of_mem c hx)

/-- The return of a call makes no difference for what was lost before it. -/
theorem unreturned_back_of_le {c n : Nat} (hle : n ≤ c) (outer : List Nat) :
    (t.back c outer).unreturned n = t.unreturned n := by
  rw [unreturned_back_eq_filter, List.filter_eq_self]
  intro x hx
  have hlt : x < n := by simpa using List.mem_of_mem_filter hx
  simpa using (hlt.trans_le hle).ne

end CallTree

namespace SpanRecorder

theorem exists_call (r : SpanRecorder) (name : String) (bindings : List Binding) (line depth : Int) (isEntry : Bool) :
    ∃ s : Span, r.call name bindings line depth isEntry = ⟨s :: r.opened, r.ended, r.count + 1⟩ ∧ s.number = r.count ∧
      s.name = "call:" ++ name ∧ s.parent = r.opened.head?.map Span.number := by
  have hsame := (((Span.mk r.count ("call:" ++ name) (r.opened.head?.map Span.number) [] 0).same_set "robotlang.line"
    (.int line)).trans (Span.same_set _ "robotlang.depth" (.int depth))).trans
      ((Span.same_set _ "robotlang.entry_point" (.bool isEntry)).trans (Span.same_setValues _ "arg" bindings))
  exact ⟨_, rfl, hsame.number_eq, hsame.name_eq, hsame.parent_eq⟩

theorem exists_ret {r : SpanRecorder} {s : Span} {outer : List Span} (h : r.opened = s :: outer) (v : Value)
    (refs : List Binding) : ∃ s', s.Same s' ∧ r.ret v refs = ⟨outer, s' :: r.ended, r.count⟩ := by
  rw [ret, h]
  refine ⟨_, ?_, rfl⟩
  split
  · exact Span.same_setValues _ _ _
  · exact (Span.same_set _ _ _).trans (Span.same_setValues _ _ _)

namespace Records

variable {r : SpanRecorder} {t : CallTree} (h : r.Records t)

include h

theorem number_lt {s : Span} (hs : s ∈ r.opened ++ r.ended) : s.number < t.calls.length := by
  obtain ⟨name, caller, hcall, -⟩ := h.spans s hs
  exact (List.getElem?_eq_some_iff.1 hcall).1

variable (ht : t.Sound)

include ht

/-- The innermost open span belongs to the innermost call under way; without one, to the last call that was lost. -/
theorem head?_opened : r.opened.head?.map Span.number = t.underWay.head?.or (t.unreturned t.calls.length).getLast? := by
  rw [← List.head?_map, h.opened_eq]
  obtain ⟨rest, hrest⟩ := ht.underWay_prefix
  cases hunder : t.underWay with
  | nil =>
      rw [List.head?_reverse]
      rfl
  | cons c outer =>
      rw [← hrest, hunder]
      rfl

theorem called (name : String) (bindings : List Binding) (line depth : Int) (isEntry : Bool) :
    (r.call name bindings line depth isEntry).Records (t.called name) := by
  obtain ⟨s, hcall, hnumber, hname, hparent⟩ := r.exists_call name bindings line depth isEntry
  have hlength : (t.called name).calls.length = t.calls.length + 1 := List.length_append
  rw [hcall]
  refine ⟨?_, ?_, h.ended_eq, ?_⟩
  · rw [hlength, h.count_eq]
  · rw [t.unreturned_called ht, List.reverse_append, List.map_cons, hnumber, h.count_eq, h.opened_eq]
    rfl
  · intro s' hs'
    rcases List.mem_cons.1 hs' with rfl | hs'
    · refine ⟨name, t.underWay.head?, ?_, hname, ?_⟩
      · rw [hnumber, h.count_eq, t.getElem?_called_self]
      · rw [hparent, h.head?_opened ht, hnumber, h.count_eq]
        rfl
    · obtain ⟨callee, caller, hcall, hspan⟩ := h.spans s' hs'
      exact ⟨callee, caller, (t.getElem?_called (h.number_lt hs') name).trans hcall, hspan⟩

theorem back {c : Nat} {outer : List Nat} (hunder : t.underWay = c :: outer) (v : Value) (refs : List Binding) :
    (r.ret v refs).Records (t.back c outer) := by
  obtain ⟨hsplit, -⟩ := t.unreturned_back ht hunder
  have hopened := h.opened_eq
  rw [hsplit, List.reverse_append, List.reverse_singleton] at hopened
  obtain ⟨s, opened, hr, hc, hrest⟩ := List.map_eq_cons_iff.1 hopened
  obtain ⟨s', hsame, hret⟩ := exists_ret hr v refs
  have hspans (x : Span) (hx : x ∈ r.opened ++ r.ended) : ∃ name caller, t.calls[x.number]? = some (name, caller) ∧
      x.name = "call:" ++ name ∧ x.parent = caller.or ((t.back c outer).unreturned x.number).getLast? := by
    obtain ⟨name, caller, hcall, hname, hparent⟩ := h.spans x hx
    refine ⟨name, caller, hcall, hname, ?_⟩
    cases caller with
    | some j => exact hparent
    | none =>
        have hle := ht.entry_le _ _ hcall c (hunder ▸ List.mem_cons_self)
        rw [t.unreturned_back_of_le hle]
        exact hparent
  rw [hret]
  refine ⟨h.count_eq, hrest, ?_, ?_⟩
  · have hended := h.ended_eq
    rw [SpanRecorder.spans, List.map_reverse] at hended ⊢
    rw [List.map_cons, List.reverse_cons, hended, hsame.number_eq, hc]
    rfl
  · intro x hx
    simp only [List.mem_append, List.mem_cons] at hx
    rcases hx with hx | rfl | hx
    · exact hspans x (by simp [hr, hx])
    · rw [hsame.number_eq, hsame.name_eq, hsame.parent_eq]
      exact hspans s (by simp [hr])
    · exact hspans x (by simp [hx])

end Records

end SpanRecorder

/-! ### What runs tell -/

namespace CallTree

variable {t : CallTree}

theorem Sound.underWay_lt (ht : t.Sound) {c : Nat} (hc : c ∈ t.underWay) : c < t.calls.length := by
  have hmem : c ∈ t.unreturned t.calls.length := List.mem_reverse.1 (ht.underWay_prefix.subset hc)
  simpa using List.mem_of_mem_filter hmem

theorem names_called (ht : t.Sound) (name : String) : (t.called name).names = some name :: t.names := by
  have hfirst : (t.called name).calls[t.calls.length]?.map Prod.fst = some name := by
    rw [getElem?_called_self]
    rfl
  refine congrArg₂ List.cons hfirst (List.map_congr_left fun c hc => ?_)
  rw [getElem?_called (ht.underWay_lt hc)]

/-- An event that the open calls allow is one that the tree allows. -/
theorem exists_follow (ht : t.Sound) {opens opens' : List (String × Int)} (hnames : t.names = opens.map fun o => some o.1)
    {e : Event} (he : Event.follow? opens e = some opens') :
    ∃ t', t.follow? e = some t' ∧ t'.Sound ∧ (t'.names = opens'.map fun o => some o.1) ∧
      ∀ r : SpanRecorder, r.Records t → (r.record e).Records t' := by
  have hlength : t.underWay.length = opens.length := by simpa [names] using congrArg List.length hnames
  cases e with
  | called name bindings line depth isEntry =>
      unfold Event.follow? at he
      dsimp only at he
      split_ifs at he with hdepth
      cases he
      refine ⟨t.called name, if_pos (hlength ▸ hdepth), ht.called name, ?_, fun r hr => hr.called ht _ _ _ _ _⟩
      rw [names_called ht, hnames]
      rfl
  | returned name v refs line depth =>
      unfold Event.follow? at he
      cases opens with
      | nil => cases he
      | cons o outer =>
          dsimp only at he
          split_ifs at he with hreturn
          have hopens : outer = opens' := Option.some.inj he
          subst hopens
          obtain ⟨c, inner, hunder⟩ : ∃ c inner, t.underWay = c :: inner :=
            List.exists_cons_of_length_pos (by rw [hlength]; exact Nat.succ_pos _)
          rw [names, hunder] at hnames
          obtain ⟨hname, houter⟩ := List.cons_eq_cons.1 hnames
          rw [hunder] at hlength
          have hinner : inner.length = outer.length := Nat.succ.inj hlength
          refine ⟨t.back c inner, ?_, ht.back hunder, houter, fun r hr => hr.back ht hunder v refs⟩
          unfold follow?
          rw [hunder]
          exact if_pos ⟨hname.trans (congrArg some hreturn.1), hinner ▸ hreturn.2⟩
  | loaded names =>
      cases he
      exact ⟨t, rfl, ht, hnames, fun r hr => hr⟩
  | wrote text =>
      cases he
      exact ⟨t, rfl, ht, hnames, fun r hr => hr⟩
  | noted line =>
      cases he
      exact ⟨t, rfl, ht, hnames, fun r hr => hr⟩
  | narrated lines =>
      cases he
      exact ⟨t, rfl, ht, hnames, fun r hr => hr⟩
  | world we =>
      cases he
      exact ⟨t, rfl, ht, hnames, fun r hr => hr⟩

theorem exists_foldlM (ht : t.Sound) {opens opens' : List (String × Int)} (hnames : t.names = opens.map fun o => some o.1)
    {told : List Event} (htold : told.foldlM Event.follow? opens = some opens') :
    ∃ t', told.foldlM follow? t = some t' ∧ t'.Sound ∧ (t'.names = opens'.map fun o => some o.1) ∧
      ∀ r : SpanRecorder, r.Records t → (told.foldl SpanRecorder.record r).Records t' := by
  induction told generalizing t opens with
  | nil =>
      cases htold
      exact ⟨t, rfl, ht, hnames, fun r hr => hr⟩
  | cons e told ih =>
      rw [List.foldlM_cons] at htold
      obtain ⟨next, he, htold⟩ := Option.bind_eq_some_iff.1 htold
      obtain ⟨t₁, hfollow, ht₁, hnames₁, hrecords₁⟩ := exists_follow ht hnames he
      obtain ⟨t', hrest, ht', hnames', hrecords'⟩ := ih ht₁ hnames₁ htold
      refine ⟨t', ?_, ht', hnames', fun r hr => hrecords' _ (hrecords₁ r hr)⟩
      rw [List.foldlM_cons, hfollow]
      exact hrest

/-- A new run finds no call under way; the spans stay as they are. -/
theorem Sound.renew (ht : t.Sound) : ({ t with underWay := [] } : CallTree).Sound where
  underWay_prefix := List.nil_prefix
  returned_lt := ht.returned_lt
  returned_nodup := ht.returned_nodup
  entry_le _ _ _ _ hc := absurd hc List.not_mem_nil

theorem exists_run (ht : t.Sound) {told : List Event} {opens : List (String × Int)} (htold : openCalls? told = some opens) :
    ∃ t', t.run? told = some t' ∧ t'.Sound ∧ (t'.names = opens.map fun o => some o.1) ∧
      ∀ r : SpanRecorder, r.Records t → (told.foldl SpanRecorder.record r).Records t' := by
  obtain ⟨t', hrun, ht', hnames, hrecords⟩ := exists_foldlM ht.renew rfl htold
  refine ⟨t', hrun, ht', hnames, fun r hr => hrecords r ?_⟩
  exact ⟨hr.count_eq, hr.opened_eq, hr.ended_eq, hr.spans⟩

end CallTree

/-! ### Sessions -/

namespace Machine

/-- What is told on a machine since it was new, operation by operation: programs are loaded and functions called, and a call may
fail. -/
inductive Session (c : Config) : List (List Event) → Machine → Prop
  | initial (input : String) (options : Options) : Session c [] (.initial c input options)
  | loaded {runs : List (List Event)} {m m' : Machine} {tree : Node} {told : List Event} : Session c runs m →
      m.loadTree tree = .ok m' → m'.events.toList = m.events.toList ++ told → Session c (runs ++ [told]) m'
  | called {runs : List (List Event)} {m m' : Machine} {fuel : Nat} {name : String} {nodes : List Node} {told : List Event} :
      Session c runs m → (call fuel name nodes m).machine? = some m' → m'.events.toList = m.events.toList ++ told →
      Session c (runs ++ [told]) m'

variable {c : Config} {m m' : Machine} {runs : List (List Event)}

theorem Session.reachable (h : m.Session c runs) : m.Reachable c := by
  induction h with
  | initial input options => exact .initial input options
  | loaded _ hload _ ih => exact ih.loaded hload
  | called _ hcall _ ih => exact ih.of_machine? hcall

theorem Session.heads_eq_nil (h : m.Session c runs) : m.stack.heads = [] := by
  rw [Stack.heads, h.reachable.frames_eq_nil]
  rfl

theorem Session.toldSince (h : m.Session c runs) : m.ToldSince m.events.toList :=
  ⟨[], (List.append_nil _).symm, congrArg some h.heads_eq_nil.symm⟩

/-- What a call tells is properly nested, and leaves no call open if it returns. -/
theorem Session.exists_told (h : m.Session c runs) {fuel : Nat} {name : String} {nodes : List Node}
    (hcall : (call fuel name nodes m).machine? = some m') :
    ∃ told opens, m'.events.toList = m.events.toList ++ told ∧ openCalls? told = some opens ∧
      ∀ v, call fuel name nodes m = .done v m' → opens = [] := by
  obtain hp | ⟨p, hp⟩ := Option.eq_none_or_eq_some m.program
  · rw [call_of_no_program hp] at hcall ⊢
    cases hcall
    exact ⟨[], [], (List.append_nil _).symm, rfl, fun _ _ => rfl⟩
  · cases ho : call fuel name nodes m with
    | done v n =>
        rw [ho] at hcall
        cases hcall
        obtain ⟨⟨told, hevents, hopens⟩, hframes⟩ := h.toldSince.call ho
        refine ⟨told, _, hevents, hopens, fun _ _ => ?_⟩
        rw [Stack.heads, hframes]
        exact h.heads_eq_nil
    | failed e n =>
        rw [ho] at hcall
        cases hcall
        obtain ⟨t, ts, n, n', htrail, hfails, ⟨stack, rfl⟩, -⟩ := origin_of_call hp ho
        obtain ⟨told, hevents, hopens⟩ := hfails.told (htrail.visits.toldSince h.toldSince)
        refine ⟨told, _, hevents, hopens, fun v hdone => ?_⟩
        cases hdone
    | unfinished =>
        rw [ho] at hcall
        cases hcall

theorem Session.exists_records (h : m.Session c runs) :
    ∃ t, CallTree.ofRuns? runs = some t ∧ t.Sound ∧ (SpanRecorder.ofEvents m.events.toList).Records t := by
  -- The recorder hears each run from where the last one has left it.
  have hextend : ∀ {runs : List (List Event)} {t : CallTree} {told : List Event} {opens : List (String × Int)}
      {m m' : Machine}, CallTree.ofRuns? runs = some t → t.Sound → (SpanRecorder.ofEvents m.events.toList).Records t →
      m'.events.toList = m.events.toList ++ told → openCalls? told = some opens →
      ∃ t', CallTree.ofRuns? (runs ++ [told]) = some t' ∧ t'.Sound ∧
        (SpanRecorder.ofEvents m'.events.toList).Records t' := by
    intro runs t told opens m m' hruns ht hrecords hevents hopens
    obtain ⟨t', hrun, ht', -, hrecords'⟩ := CallTree.exists_run ht hopens
    refine ⟨t', ?_, ht', ?_⟩
    · rw [CallTree.ofRuns?] at hruns ⊢
      rw [List.foldlM_append, hruns]
      simpa using hrun
    · rw [hevents, SpanRecorder.ofEvents, List.foldl_append]
      exact hrecords' _ hrecords
  induction h with
  | initial =>
      refine ⟨⟨[], [], []⟩, rfl, ⟨List.nil_prefix, nofun, List.nodup_nil, nofun⟩, ⟨rfl, rfl, rfl, nofun⟩⟩
  | @loaded _ m _ _ told _ hload hevents ih =>
      obtain ⟨t, hruns, ht, hrecords⟩ := ih
      have htold : openCalls? told = some [] := by
        obtain ⟨p, -, rfl⟩ := loaded_of_loadTree hload
        have : told = [_] := List.append_cancel_left (hevents.symm.trans (Array.toList_push ..))
        rw [this]
        rfl
      exact hextend hruns ht hrecords hevents htold
  | called hsession hcall hevents ih =>
      obtain ⟨t, hruns, ht, hrecords⟩ := ih
      obtain ⟨told', opens, hevents', hopens, -⟩ := hsession.exists_told hcall
      cases List.append_cancel_left (hevents.symm.trans hevents')
      exact hextend hruns ht hrecords hevents hopens

end Machine

theorem SpanRecorder.Records.numbers_perm {r : SpanRecorder} {t : CallTree} (hr : r.Records t) (ht : t.Sound) :
    ((r.opened ++ r.ended).map Span.number).Perm (List.range t.calls.length) := by
  have hended : r.ended.map Span.number = t.returned.reverse := by
    rw [← hr.ended_eq, SpanRecorder.spans, List.map_reverse, List.reverse_reverse]
  rw [List.map_append, hr.opened_eq, hended]
  have hnodup : ((t.unreturned t.calls.length).reverse ++ t.returned.reverse).Nodup := by
    rw [List.nodup_append']
    refine ⟨List.nodup_reverse.2 (List.nodup_range.filter _), List.nodup_reverse.2 ht.returned_nodup, ?_⟩
    intro c hc hreturned
    rw [List.mem_reverse] at hc hreturned
    exact of_decide_eq_true (List.mem_filter.1 hc).2 hreturned
  refine (List.perm_ext_iff_of_nodup hnodup List.nodup_range).2 fun c => ?_
  have hlt := ht.returned_lt c
  simp only [CallTree.unreturned, List.mem_append, List.mem_reverse, List.mem_filter, List.mem_range, decide_eq_true_eq]
  tauto

/-- As long as every call has returned, the parents of the spans are the callers. -/
theorem SpanRecorder.Records.parent_eq_caller {r : SpanRecorder} {t : CallTree} (hr : r.Records t) (hopened : r.opened = [])
    {s : Span} (hs : s ∈ r.ended) : ∃ name, t.calls[s.number]? = some (name, s.parent) := by
  obtain ⟨name, caller, hcall, -, hparent⟩ := hr.spans s (List.mem_append_right _ hs)
  have hall : t.unreturned t.calls.length = [] := by
    have hopen := hr.opened_eq
    rw [hopened] at hopen
    exact List.reverse_eq_nil_iff.1 hopen.symm
  have hbefore : t.unreturned s.number = [] := by
    rw [CallTree.unreturned, List.filter_eq_nil_iff] at hall ⊢
    intro c hc
    have hnumber : s.number < t.calls.length := (List.getElem?_eq_some_iff.1 hcall).1
    exact hall c (List.mem_range.2 ((List.mem_range.1 hc).trans hnumber))
  refine ⟨name, ?_⟩
  rw [hcall, hparent, hbefore]
  cases caller with
  | none => rfl
  | some _ => rfl

/-- The spans of a session are those of its call tree, with the parents that `SpanRecorder.Records` gives them: callers, and
for calls from outside the last call before that has failed. There is exactly one span for each call. Unless a call has failed,
every parent is the caller.

The call tree is that of the machine. At every point of a further call the calls under way are those whose bodies are, and the
spans still agree with the tree; and a call that returns leaves none under way. -/
theorem spans_record_calls {c : Config} {runs : List (List Event)} {m : Machine} (h : m.Session c runs) :
    ∃ t, CallTree.ofRuns? runs = some t ∧ (SpanRecorder.ofEvents m.events.toList).Records t ∧
      (((SpanRecorder.ofEvents m.events.toList).opened ++ (SpanRecorder.ofEvents m.events.toList).ended).map
        Span.number).Perm (List.range t.calls.length) ∧
      ((SpanRecorder.ofEvents m.events.toList).opened = [] →
        ∀ s ∈ (SpanRecorder.ofEvents m.events.toList).ended, ∃ name, t.calls[s.number]? = some (name, s.parent)) ∧
      (∀ name nodes task ts n, m.Trails (.invoke name nodes) (task :: ts) n →
        ∃ told t', n.events.toList = m.events.toList ++ told ∧ t.run? told = some t' ∧
          (SpanRecorder.ofEvents n.events.toList).Records t' ∧
          t'.names = (Trail.calls (task :: ts)).map fun call => some call.1.name) ∧
      ∀ fuel name nodes v m', Machine.call fuel name nodes m = .done v m' →
        ∃ told t', m'.events.toList = m.events.toList ++ told ∧ t.run? told = some t' ∧ t'.underWay = [] := by
  obtain ⟨t, hruns, ht, hrecords⟩ := h.exists_records
  refine ⟨t, hruns, hrecords, hrecords.numbers_perm ht, fun hopened s hs => hrecords.parent_eq_caller hopened hs, ?_, ?_⟩
  · intro name nodes task ts n htrail
    obtain ⟨told, hevents, hopens⟩ := htrail.visits.toldSince h.toldSince
    obtain ⟨t', hrun, -, hnames, hrecords'⟩ := CallTree.exists_run ht hopens
    refine ⟨told, t', hevents, hrun, ?_, ?_⟩
    · rw [hevents, SpanRecorder.ofEvents, List.foldl_append]
      exact hrecords' _ hrecords
    · rw [hnames, htrail.heads, h.heads_eq_nil, List.append_nil, Trail.records, List.map_map]
      rfl
  · intro fuel name nodes v m' hcall
    obtain ⟨told, opens, hevents, hopens, hdone⟩ := h.exists_told (congrArg Outcome.machine? hcall)
    obtain ⟨t', hrun, -, hnames, -⟩ := CallTree.exists_run ht hopens
    refine ⟨told, t', hevents, hrun, ?_⟩
    rw [hdone v hcall] at hnames
    exact List.map_eq_nil_iff.1 hnames

/-! A program that fails in a call when it reads a zero, run twice. -/

namespace Halves

def source : String := "func main()\n  read n;\n  write half(n);\nendfunc\nfunc half(n)\n  return 8 / n;\nendfunc\n"

/-- The machine after a run, with what the run has told. -/
def next? (m : Machine) : Option (List Event × Machine) :=
  (Machine.run 40 "main" m).machine?.map fun m' => (m'.events.toList.drop m.events.size, m')

def session? : Option (List (List Event) × Machine) := do
  let m₀ := Machine.initial .default "0 2" .unobserved
  let (_, m₁) ← (m₀.loadSource source).toOption
  let (told₂, m₂) ← next? m₁
  let (told₃, m₃) ← next? m₂
  return ([m₁.events.toList, told₂, told₃], m₃)

theorem session_next {c : Config} {runs : List (List Event)} {m m' : Machine} {told : List Event} (h : m.Session c runs)
    (hnext : next? m = some (told, m')) : m'.Session c (runs ++ [told]) := by
  obtain ⟨n, hrun, hn⟩ := Option.map_eq_some_iff.1 hnext
  cases hn
  obtain ⟨told, -, hevents, -⟩ := h.exists_told hrun
  refine h.called hrun ?_
  rw [hevents, ← Array.length_toList, List.drop_left]

theorem session_of_session? {runs : List (List Event)} {m : Machine} (h : session? = some (runs, m)) :
    m.Session .default runs := by
  obtain ⟨⟨tree, m₁⟩, hload, h⟩ := Option.bind_eq_some_iff.1 h
  obtain ⟨⟨told₂, m₂⟩, hnext₂, h⟩ := Option.bind_eq_some_iff.1 h
  obtain ⟨⟨told₃, m₃⟩, hnext₃, h⟩ := Option.bind_eq_some_iff.1 h
  cases h
  have hloaded : m₁.Session .default ([] ++ [m₁.events.toList]) :=
    (Machine.Session.initial "0 2" _).loaded (loadTree_of_loadSource (eq_ok_of_toOption hload)) rfl
  exact session_next (session_next hloaded hnext₂) hnext₃

/-- The first two calls have failed, and the last two have returned: the inner one first, with the outer one as its parent. -/
theorem spans_of_session : ∃ (runs : List (List Event)) (m : Machine) (t : CallTree),
    m.Session .default runs ∧ CallTree.ofRuns? runs = some t ∧
    t.calls = [("main", none), ("half", some 0), ("main", none), ("half", some 2)] ∧ t.returned = [3, 2] ∧
    (SpanRecorder.ofEvents m.events.toList).Records t ∧
    (SpanRecorder.ofEvents m.events.toList).opened.map Span.number = [1, 0] := by
  have hsession : session?.bind (fun r => (CallTree.ofRuns? r.1).map fun t => (t.calls, t.returned)) =
      some ([("main", none), ("half", some 0), ("main", none), ("half", some 2)], [3, 2]) := by decide +kernel
  obtain ⟨⟨runs, m⟩, hruns, hsession⟩ := Option.bind_eq_some_iff.1 hsession
  obtain ⟨t, ht, hsession⟩ := Option.map_eq_some_iff.1 hsession
  have hm := session_of_session? hruns
  obtain ⟨hcalls, hreturned⟩ := Prod.mk.inj hsession
  obtain ⟨t', ht', hrecords, -⟩ := spans_record_calls hm
  cases ht.symm.trans ht'
  refine ⟨runs, m, t, hm, ht, hcalls, hreturned, hrecords, ?_⟩
  rw [hrecords.opened_eq, CallTree.unreturned, hcalls, hreturned]
  decide

/-- The second run comes from outside, so its call has no caller. Its span has a parent all the same: that of the call in the
first run that failed. -/
theorem entry_has_parent : ∃ (runs : List (List Event)) (m : Machine) (t : CallTree) (s : Span),
    m.Session .default runs ∧ CallTree.ofRuns? runs = some t ∧
    s ∈ (SpanRecorder.ofEvents m.events.toList).spans ∧ t.calls[s.number]? = some ("main", none) ∧ s.parent = some 1 := by
  have hsession : session?.bind (fun r => (CallTree.ofRuns? r.1).bind fun t =>
      (SpanRecorder.ofEvents r.2.events.toList).spans.getLast?.map fun s => (t.calls[s.number]?, s.parent)) =
      some (some ("main", none), some 1) := by decide +kernel
  obtain ⟨⟨runs, m⟩, hruns, hsession⟩ := Option.bind_eq_some_iff.1 hsession
  obtain ⟨t, ht, hsession⟩ := Option.bind_eq_some_iff.1 hsession
  obtain ⟨s, hs, hsession⟩ := Option.map_eq_some_iff.1 hsession
  obtain ⟨hcall, hparent⟩ := Prod.mk.inj hsession
  exact ⟨runs, m, t, s, session_of_session? hruns, ht, List.mem_of_getLast? hs, hcall, hparent⟩

end Halves

end Rover
