import Mathlib.Data.List.Forall2
import Rover.Node
import Rover.Proofs.Quotation
import Rover.Proofs.ReadBack

/-!
# Outlines of trees

A tree is shown with one line for each node, and how the nodes hang together is seen from the indentation alone. A line never
breaks, since the text in it is quoted, and what it shows of its node can be told from it (`label_inj`). The lines after a node
that are indented further are those of its descendants, so a list of trees can be told from its lines and from whatever
follows with less indentation (`outlineAll_append_inj`). There is no less indentation than none: an outline that starts two or more levels
to the left of the margin shows a node and its children alike, and only then is something lost (`pretty_determines_iff`).
-/

namespace Rover

open Reading

/-- Trees with the same kinds, lines and texts everywhere; only the constants that were found for literals may differ. -/
inductive Node.Same : Node → Node → Prop
  | mk {kind : Kind} {line : Int} {text : String} {value value' : Option Value} {children children' : List Node} :
      List.Forall₂ Node.Same children children' →
      Node.Same ⟨kind, line, text, value, children⟩ ⟨kind, line, text, value', children'⟩

/-- Induction on lists of trees, by the children of the first tree and by the trees after it. -/
@[elab_as_elim]
theorem Node.forest_induction {P : List Node → Prop} (nil : P [])
    (cons : ∀ n ns, P n.children → P ns → P (n :: ns)) (ns : List Node) : P ns := by
  generalize hsize : sizeOf ns = size
  induction size using Nat.strong_induction_on generalizing ns with
  | _ size ih =>
      cases ns with
      | nil => exact nil
      | cons n ns =>
          have hchildren : sizeOf n.children < sizeOf n := by
            cases n
            simp only [Node.mk.sizeOf_spec]
            omega
          rw [List.cons.sizeOf_spec] at hsize
          exact cons n ns (ih _ (by omega) _ rfl) (ih _ (by omega) _ rfl)

/-! ### Names and numerals -/

theorem Kind.ofName?_name (k : Kind) : Kind.ofName? k.name = some k := by
  cases k
  case arithmetic op => cases op <;> rfl
  case relational op => cases op <;> rfl
  all_goals rfl

theorem Kind.name_injective : Function.Injective Kind.name := by
  intro k k' h
  have hread := congrArg Kind.ofName? h
  rwa [Kind.ofName?_name, Kind.ofName?_name, Option.some_inj] at hread

theorem Kind.name_spec (k : Kind) : k.name.toList ≠ [] ∧ ' ' ∉ k.name.toList ∧ '\n' ∉ k.name.toList := by
  cases k
  case arithmetic op => cases op <;> decide
  case relational op => cases op <;> decide
  all_goals decide

theorem Numeral.ofInt_injective : Function.Injective Numeral.ofInt := by
  intro n n' h
  have hread := congrArg int? h
  rwa [int?_ofInt, int?_ofInt, Option.some_inj] at hread

/-- Where a character stands for the first time is the same in equal lists. -/
theorem split_first {α : Type} {a : α} {xs xs' ys ys' : List α} (hxs : a ∉ xs) (hxs' : a ∉ xs')
    (h : xs ++ a :: ys = xs' ++ a :: ys') : xs = xs' ∧ ys = ys' := by
  induction xs generalizing xs' with
  | nil =>
      cases xs' with
      | nil => simpa using h
      | cons x' xs' => exact absurd (List.cons.inj h).1 (List.ne_of_not_mem_cons hxs')
  | cons x xs ih =>
      cases xs' with
      | nil => exact absurd (List.cons.inj h).1.symm (List.ne_of_not_mem_cons hxs)
      | cons x' xs' =>
          obtain ⟨rfl, hrest⟩ := List.cons.inj h
          obtain ⟨rfl, rfl⟩ := ih (List.not_mem_of_not_mem_cons hxs) (List.not_mem_of_not_mem_cons hxs') hrest
          exact ⟨rfl, rfl⟩

namespace Node

/-! ### Lines -/

/-- The last part of a line: which line of the program a node is from. -/
def place (line : Int) : List Char := ['<', 'l', 'i', 'n', 'e', ' '] ++ (Numeral.ofInt line).toList ++ ['>']

/-- What stands in the line of a node after its kind. -/
def details (text : String) (line : Int) : List Char :=
  if text.isEmpty then place line else Quoted.encode text.toList ++ ' ' :: place line

theorem toList_margin (k : Nat) : (String.join (List.replicate k "  ")).toList = List.replicate (2 * k) ' ' := by
  rw [String.toList_join]
  induction k with
  | zero => rfl
  | succ k ih => rw [List.replicate_succ, List.flatMap_cons, ih]; rfl

theorem toList_label (i : Int) (n : Node) : (label i n).toList =
    List.replicate (2 * i.toNat) ' ' ++ (n.kind.name.toList ++ ' ' :: details n.text n.line) := by
  simp only [label, details, String.toList_append, toList_margin]
  split_ifs <;> simp [quoted, place]

theorem place_injective : Function.Injective place := by
  intro line line' h
  exact Numeral.ofInt_injective (String.toList_injective (List.append_cancel_left (List.append_cancel_right h)))

theorem newline_notMem_place (line : Int) : '\n' ∉ place line := by
  have hnumeral : '\n' ∉ (Numeral.ofInt line).toList := fun h => absurd (isNumeralChar_ofInt line _ h) (by decide)
  simp [place, hnumeral]

theorem encode_append_ne_place (text rest : List Char) (line : Int) : Quoted.encode text ++ rest ≠ place line := by
  intro h
  have hmark : Quoted.mark text = '<' := (List.cons.inj h).1
  obtain (hquote | hquote) := Quoted.isMark_mark text
  · exact absurd (hquote.symm.trans hmark) (by decide)
  · exact absurd (hquote.symm.trans hmark) (by decide)

theorem details_inj {text text' : String} {line line' : Int} (h : details text line = details text' line') :
    text = text' ∧ line = line' := by
  simp only [details] at h
  split_ifs at h with htext htext' htext'
  · rw [String.isEmpty_iff] at htext htext'
    exact ⟨htext.trans htext'.symm, place_injective h⟩
  · exact absurd h.symm (encode_append_ne_place _ _ _)
  · exact absurd h (encode_append_ne_place _ _ _)
  · obtain ⟨htexts, hplaces⟩ := Quoted.encode_append_inj h
    exact ⟨String.toList_injective htexts, place_injective (List.cons.inj hplaces).2⟩

theorem newline_notMem_details (text : String) (line : Int) : '\n' ∉ details text line := by
  simp only [details]
  split_ifs
  · exact newline_notMem_place line
  · simp [newline_notMem_place, Quoted.newline_notMem_encode]

/-- The number of blanks at the start of a line. -/
def indentation (s : String) : Nat := (s.toList.takeWhile (· = ' ')).length

theorem indentation_label (k : Nat) (n : Node) : indentation (label k n) = 2 * k := by
  obtain ⟨hne, hblank, -⟩ := n.kind.name_spec
  obtain ⟨c, name, hname⟩ := List.exists_cons_of_ne_nil hne
  have hc : c ≠ ' ' := by
    intro h
    exact hblank (by rw [hname, h]; exact List.mem_cons_self)
  rw [indentation, toList_label, hname, List.takeWhile_append_of_pos (by simp)]
  simp [hc]

theorem label_inj {i : Int} {n n' : Node} (h : label i n = label i n') :
    n.kind = n'.kind ∧ n.text = n'.text ∧ n.line = n'.line := by
  have hlist := congrArg String.toList h
  rw [toList_label, toList_label] at hlist
  obtain ⟨hname, hdetails⟩ := split_first n.kind.name_spec.2.1 n'.kind.name_spec.2.1 (List.append_cancel_left hlist)
  exact ⟨Kind.name_injective (String.toList_injective hname), details_inj hdetails⟩

theorem newline_notMem_label (i : Int) (n : Node) : '\n' ∉ (label i n).toList := by
  have hname := n.kind.name_spec.2.2
  rw [toList_label]
  simp [hname, newline_notMem_details]

/-! ### Outlines -/

theorem outline_eq (i : Int) (n : Node) : outline i n = label i n :: outlineAll (i + 1) n.children := by
  cases n with
  | mk kind line text value children => rw [outline]; rfl

theorem outlineAll_cons (i : Int) (n : Node) (ns : List Node) :
    outlineAll i (n :: ns) = label i n :: (outlineAll (i + 1) n.children ++ outlineAll i ns) := by
  rw [outlineAll, outline_eq, List.cons_append]

theorem newline_notMem_outlineAll (i : Int) (ns : List Node) : ∀ s ∈ outlineAll i ns, '\n' ∉ s.toList := by
  induction ns using forest_induction generalizing i with
  | nil => exact List.forall_mem_nil _
  | cons n ns hchildren hns =>
      rw [outlineAll_cons, List.forall_mem_cons, List.forall_mem_append]
      exact ⟨newline_notMem_label i n, hchildren (i + 1), hns i⟩

theorem newline_notMem_outline (i : Int) (n : Node) : ∀ s ∈ outline i n, '\n' ∉ s.toList := by
  rw [outline_eq, List.forall_mem_cons]
  exact ⟨newline_notMem_label i n, newline_notMem_outlineAll (i + 1) n.children⟩

/-- The first of some lines, if there is one, is indented less than the nodes of a level. -/
def Outdented (k : Nat) (lines : List String) : Prop := ∀ s ∈ lines.head?, indentation s < 2 * k

theorem not_outdented_cons (k : Nat) (n : Node) (lines : List String) : ¬ Outdented k (label k n :: lines) := by
  intro h
  have hlt := h _ rfl
  rw [indentation_label] at hlt
  exact Nat.lt_irrefl _ hlt

/-- What follows the children of a node is outdented for them. -/
theorem Outdented.outlineAll_append {k : Nat} {rest : List String} (h : Outdented k rest) (ns : List Node) :
    Outdented (k + 1) (outlineAll k ns ++ rest) := by
  cases ns with
  | nil =>
      intro s hs
      have hlt := h s hs
      omega
  | cons n ns =>
      intro s hs
      rw [outlineAll_cons, List.cons_append, List.head?_cons, Option.mem_some_iff] at hs
      rw [← hs, indentation_label]
      omega

theorem Same.of_fields {n n' : Node} (hkind : n.kind = n'.kind) (htext : n.text = n'.text) (hline : n.line = n'.line)
    (hchildren : List.Forall₂ Same n.children n'.children) : n.Same n' := by
  cases n with
  | mk kind line text value children =>
      cases n' with
      | mk kind' line' text' value' children' =>
          subst hkind htext hline
          exact .mk hchildren

/-- A list of trees can be told from its lines and from any lines after them that start with less indentation. -/
theorem outlineAll_append_inj {k : Nat} {ns ns' : List Node} {rest rest' : List String} (hrest : Outdented k rest)
    (hrest' : Outdented k rest') (h : outlineAll k ns ++ rest = outlineAll k ns' ++ rest') :
    List.Forall₂ Same ns ns' ∧ rest = rest' := by
  induction ns using forest_induction generalizing k ns' rest rest' with
  | nil =>
      rw [outlineAll, List.nil_append] at h
      cases ns' with
      | nil => exact ⟨.nil, by rwa [outlineAll, List.nil_append] at h⟩
      | cons n' ns' =>
          rw [h, outlineAll_cons, List.cons_append] at hrest
          exact absurd hrest (not_outdented_cons k n' _)
  | cons n ns hinner houter =>
      rw [outlineAll_cons, List.cons_append] at h
      cases ns' with
      | nil =>
          rw [outlineAll, List.nil_append] at h
          rw [← h] at hrest'
          exact absurd hrest' (not_outdented_cons k n _)
      | cons n' ns' =>
          rw [outlineAll_cons, List.cons_append, List.append_assoc, List.append_assoc, List.cons.injEq] at h
          obtain ⟨hlabel, hlines⟩ := h
          obtain ⟨hkind, htext, hline⟩ := label_inj hlabel
          -- The children end where the first line comes that is no further to the right than their parent.
          obtain ⟨hchildren, hafter⟩ := hinner (hrest.outlineAll_append ns) (hrest'.outlineAll_append ns') hlines
          obtain ⟨hnext, hlast⟩ := houter hrest hrest' hafter
          exact ⟨.cons (.of_fields hkind htext hline hchildren) hnext, hlast⟩

/-- Unless it starts two levels to the left of the margin, an outline shows all of a tree but its constants. -/
theorem same_of_outline_eq {i : Int} (hi : -1 ≤ i) {a b : Node} (h : outline i a = outline i b) : a.Same b := by
  obtain ⟨k, hk⟩ := Int.eq_ofNat_of_zero_le (show 0 ≤ i + 1 by omega)
  have hempty : Outdented k [] := by
    intro s hs
    cases hs
  rw [outline_eq, outline_eq, hk, List.cons.injEq] at h
  obtain ⟨hlabel, hlines⟩ := h
  obtain ⟨hkind, htext, hline⟩ := label_inj hlabel
  obtain ⟨hchildren, -⟩ := outlineAll_append_inj hempty hempty (congrArg (· ++ []) hlines)
  exact .of_fields hkind htext hline hchildren

theorem label_eq_of_same {a b : Node} (h : a.Same b) (i : Int) : label i a = label i b := by
  cases h
  rfl

theorem outlineAll_eq_of_same {ns ns' : List Node} (h : List.Forall₂ Same ns ns') (i : Int) :
    outlineAll i ns = outlineAll i ns' := by
  induction ns using forest_induction generalizing i ns' with
  | nil =>
      cases h
      rfl
  | cons n ns hinner houter =>
      cases h with
      | @cons _ n' _ ns' hn hns =>
          have hchildren : List.Forall₂ Same n.children n'.children := by
            cases hn with
            | mk h => exact h
          rw [outlineAll_cons, outlineAll_cons, label_eq_of_same hn, hinner hchildren, houter hns]

theorem outline_eq_of_same {a b : Node} (h : a.Same b) (i : Int) : outline i a = outline i b := by
  have hall := outlineAll_eq_of_same (.cons h .nil) i
  simpa only [outlineAll, List.append_nil] using hall

/-! ### Text -/

theorem toList_lines_cons (s t : String) (lines : List String) :
    ("\n".intercalate (s :: t :: lines)).toList = s.toList ++ '\n' :: ("\n".intercalate (t :: lines)).toList := by
  simp [String.intercalate_cons_cons]

/-- Lines that do not break can be told from the text they make up. -/
theorem lines_inj {s s' : String} {lines lines' : List String} (hlines : ∀ t ∈ s :: lines, '\n' ∉ t.toList)
    (hlines' : ∀ t ∈ s' :: lines', '\n' ∉ t.toList)
    (h : "\n".intercalate (s :: lines) = "\n".intercalate (s' :: lines')) : s :: lines = s' :: lines' := by
  induction lines generalizing s s' lines' with
  | nil =>
      cases lines' with
      | nil => simpa using h
      | cons t' lines' =>
          refine absurd ?_ (hlines s List.mem_cons_self)
          rw [String.intercalate_singleton] at h
          rw [h, toList_lines_cons]
          exact List.mem_append_right _ List.mem_cons_self
  | cons t lines ih =>
      cases lines' with
      | nil =>
          refine absurd ?_ (hlines' s' List.mem_cons_self)
          rw [String.intercalate_singleton] at h
          rw [← h, toList_lines_cons]
          exact List.mem_append_right _ List.mem_cons_self
      | cons t' lines' =>
          have hlist := congrArg String.toList h
          rw [toList_lines_cons, toList_lines_cons] at hlist
          obtain ⟨hs, hrest⟩ := split_first (hlines s List.mem_cons_self) (hlines' s' List.mem_cons_self) hlist
          rw [String.toList_injective hs, ih (List.forall_mem_of_forall_mem_cons hlines)
            (List.forall_mem_of_forall_mem_cons hlines') (String.toList_injective hrest)]

theorem outline_eq_of_pretty_eq {i : Int} {a b : Node} (h : a.pretty i = b.pretty i) : outline i a = outline i b := by
  have ha := newline_notMem_outline i a
  have hb := newline_notMem_outline i b
  rw [pretty, pretty] at h
  rw [outline_eq i a] at ha h ⊢
  rw [outline_eq i b] at hb h ⊢
  exact lines_inj ha hb h

/-! ### To the left of the margin -/

/-- A block in a block in a block. -/
def nested : Node := branch .block 1 [branch .block 2 [branch .block 3 []]]

/-- Two blocks in a block. -/
def siblings : Node := branch .block 1 [branch .block 2 [], branch .block 3 []]

theorem not_same_nested_siblings : ¬ nested.Same siblings := by
  intro h
  cases h with
  | mk hchildren => exact absurd hchildren.length_eq (by decide)

theorem label_of_nonpos {i : Int} (hi : i ≤ 0) (n : Node) : label i n = label 0 n := by
  simp only [label, Int.toNat_of_nonpos hi, Int.toNat_zero]

theorem pretty_nested_eq {i : Int} (hi : i ≤ -2) : nested.pretty i = siblings.pretty i := by
  have hnested : nested.outline i =
      [label i (branch .block 1 []), label (i + 1) (branch .block 2 []), label (i + 1 + 1) (branch .block 3 [])] := rfl
  have hsiblings : siblings.outline i =
      [label i (branch .block 1 []), label (i + 1) (branch .block 2 []), label (i + 1) (branch .block 3 [])] := rfl
  have hleft : i + 1 ≤ 0 ∧ i + 1 + 1 ≤ 0 := by omega
  rw [pretty, pretty, hnested, hsiblings, label_of_nonpos hleft.2, label_of_nonpos hleft.1 (branch .block 3 [])]

/-- The text of a tree determines the tree, whatever its texts hold, but for its constants, unless the outline starts two or more
levels to the left of the margin. -/
theorem pretty_determines_iff (i : Int) : (∀ a b : Node, a.pretty i = b.pretty i ↔ a.Same b) ↔ -1 ≤ i := by
  constructor
  · intro h
    by_contra hi
    exact not_same_nested_siblings ((h _ _).1 (pretty_nested_eq (by omega)))
  · intro hi a b
    constructor
    · intro h
      exact same_of_outline_eq hi (outline_eq_of_pretty_eq h)
    · intro h
      rw [pretty, pretty, outline_eq_of_same h]

theorem nested_block_shown_beside :
    nested.pretty (-2) = "block <line 1>\nblock <line 2>\nblock <line 3>" ∧ siblings.pretty (-2) = nested.pretty (-2) ∧
      ¬ nested.Same siblings := by
  exact ⟨by decide +kernel, by decide +kernel, not_same_nested_siblings⟩

end Node
end Rover
