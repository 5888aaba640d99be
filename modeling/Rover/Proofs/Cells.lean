import Rover.Proofs.Invariant
import Mathlib.Data.List.Basic

/-!
# Cells

What the operations of a stack do to its records and to the contents of its cells: which cells a record binds, what is in a
cell after an allocation or an assignment, and that every other cell is as before.
-/

namespace Rover

namespace Frame

/-- The cells that a record binds. -/
def cells (f : Frame) : List Cell := f.slots.map (·.2)

theorem mem_cells_of_cell? {f : Frame} {x : String} {c : Cell} (h : f.cell? x = some c) : c ∈ f.cells := by
  unfold cell? at h
  obtain ⟨l₁, l₂, hslots, -⟩ := List.lookup_eq_some_iff.1 h
  rw [cells, hslots]
  simp

theorem mem_bindTo {x : String} {c : Cell} {slots : List (String × Cell)} {b : String × Cell}
    (h : b ∈ bindTo x c slots) : b = (x, c) ∨ b ∈ slots := by
  induction slots with
  | nil => exact .inl (List.mem_singleton.1 h)
  | cons s slots ih =>
      obtain ⟨y, d⟩ := s
      unfold bindTo at h
      split at h
      · rename_i hxy
        rcases List.mem_cons.1 h with hb | hb
        · exact .inl (hxy ▸ hb)
        · exact .inr (List.mem_cons_of_mem _ hb)
      · rcases List.mem_cons.1 h with hb | hb
        · exact .inr (hb ▸ List.mem_cons_self)
        · exact (ih hb).imp_right (List.mem_cons_of_mem _)

theorem mem_cells_bind {f : Frame} {x : String} {c d : Cell} (h : d ∈ (f.bind x c).cells) : d = c ∨ d ∈ f.cells := by
  obtain ⟨b, hb, rfl⟩ := List.mem_map.1 h
  rcases mem_bindTo hb with rfl | hb
  · exact .inl rfl
  · exact .inr (List.mem_map_of_mem hb)

theorem mem_cells_foldl_bind {bound : List (Param × Cell)} {f : Frame} {c : Cell}
    (h : c ∈ (bound.foldl (fun frame b => frame.bind b.1.name b.2) f).cells) :
    c ∈ f.cells ∨ ∃ b ∈ bound, b.2 = c := by
  induction bound generalizing f with
  | nil => exact .inl h
  | cons b bound ih =>
      rcases ih h with hc | ⟨d, hd, rfl⟩
      · rcases mem_cells_bind hc with rfl | hc
        · exact .inr ⟨b, List.mem_cons_self, rfl⟩
        · exact .inl hc
      · exact .inr ⟨d, List.mem_cons_of_mem _ hd, rfl⟩

theorem mem_cells_ofCall {f : Function} {callLine : Int} {bound : List (Param × Cell)} {c : Cell}
    (h : c ∈ (ofCall f callLine bound).cells) : ∃ b ∈ bound, b.2 = c :=
  (mem_cells_foldl_bind h).resolve_left nofun

end Frame

namespace Stack

/-- Every record binds cells that there are. -/
def Closed (s : Stack) : Prop := ∀ f ∈ s.frames, ∀ c ∈ f.cells, c < s.cells.size

theorem content_push {frames frames' : List Frame} {cells : Array Value} {v : Value} {c : Cell} (h : c < cells.size) :
    (⟨frames, cells.push v⟩ : Stack).content c = (⟨frames', cells⟩ : Stack).content c := by
  simp [content, Array.getD, h, Nat.lt_succ_of_lt h, Array.getElem_push_lt]

theorem content_push_self {frames : List Frame} {cells : Array Value} {v : Value} :
    (⟨frames, cells.push v⟩ : Stack).content cells.size = v := by
  simp [content]

theorem content_set {frames : List Frame} {cells : Array Value} {v : Value} {c d : Cell} (h : c ≠ d) :
    (⟨frames, cells.setIfInBounds d v⟩ : Stack).content c = (⟨frames, cells⟩ : Stack).content c := by
  simp [content, Array.getElem?_setIfInBounds_ne h.symm]

theorem content_set_self {frames : List Frame} {cells : Array Value} {v : Value} {c : Cell} (h : c < cells.size) :
    (⟨frames, cells.setIfInBounds c v⟩ : Stack).content c = v := by
  simp [content, h]

theorem content_mem {s : Stack} {c : Cell} (h : c < s.cells.size) : s.content c ∈ s.cells := by
  simp [content, h]

theorem alloc_fst (s : Stack) (v : Value) : (s.alloc v).1 = s.cells.size := by
  simp [alloc]

theorem size_alloc (s : Stack) (v : Value) : (s.alloc v).2.cells.size = s.cells.size + 1 :=
  Array.size_push v

theorem cell_congr {s s' : Stack} (h : s'.frames = s.frames) (x : String) : s'.cell x = s.cell x := by
  unfold cell top
  rw [h]

theorem top_of_cell {s : Stack} {x : String} {c : Cell} (h : s.cell x = .ok c) :
    ∃ f outer, s.frames = f :: outer ∧ f.cell? x = some c := by
  cases hframes : s.frames with
  | nil =>
      unfold cell top at h
      rw [hframes] at h
      cases h
  | cons f outer =>
      rw [cell_of_frames hframes] at h
      split at h
      · rename_i hcell
        cases h
        exact ⟨f, outer, rfl, hcell⟩
      · cases h

theorem Closed.lt_size {s : Stack} (hs : s.Closed) {x : String} {c : Cell} (h : s.cell x = .ok c) : c < s.cells.size := by
  obtain ⟨f, outer, hframes, hcell⟩ := top_of_cell h
  exact hs f (hframes ▸ List.mem_cons_self) c (Frame.mem_cells_of_cell? hcell)

/-- Assigning writes into the cell of the variable, or makes one. -/
theorem assign_cases {s : Stack} {f : Frame} {outer : List Frame} (h : s.frames = f :: outer) (x : String) (v : Value) :
    (∃ c ∈ f.cells, f.cell? x = some c ∧ s.assign x v = ⟨f :: outer, s.cells.setIfInBounds c v⟩) ∨
      f.cell? x = none ∧ s.assign x v = ⟨f.bind x s.cells.size :: outer, s.cells.push v⟩ := by
  obtain ⟨frames, cells⟩ := s
  cases h
  cases hcell : f.cell? x with
  | some c =>
      refine .inl ⟨c, Frame.mem_cells_of_cell? hcell, rfl, ?_⟩
      simp only [assign, hcell]
  | none =>
      refine .inr ⟨rfl, ?_⟩
      simp only [assign, hcell, Array.size_push, Nat.add_sub_cancel]

theorem size_le_assign (s : Stack) (x : String) (v : Value) : s.cells.size ≤ (s.assign x v).cells.size := by
  cases hframes : s.frames with
  | nil =>
      obtain ⟨frames, cells⟩ := s
      cases hframes
      exact Nat.le_refl _
  | cons f outer =>
      rcases assign_cases hframes x v with ⟨c, -, -, hassign⟩ | ⟨-, hassign⟩
      · simp [hassign]
      · simp [hassign]

namespace Closed

theorem alloc {s : Stack} (hs : s.Closed) (v : Value) : (s.alloc v).2.Closed := by
  intro f hf c hc
  have hlt := hs f hf c hc
  simp only [Stack.alloc, Array.size_push]
  exact Nat.lt_succ_of_lt hlt

theorem assign {s : Stack} (hs : s.Closed) (x : String) (v : Value) (hframes : s.frames ≠ []) : (s.assign x v).Closed := by
  obtain ⟨top, outer, htop⟩ := List.exists_cons_of_ne_nil hframes
  rcases assign_cases htop x v with ⟨d, -, -, hassign⟩ | ⟨-, hassign⟩
  · rw [hassign]
    intro f hf c hc
    simp only [Array.size_setIfInBounds]
    exact hs f (htop ▸ hf) c hc
  · rw [hassign]
    intro f hf c hc
    simp only [Array.size_push]
    rcases List.mem_cons.1 hf with rfl | hf
    · rcases Frame.mem_cells_bind hc with rfl | hc
      · exact Nat.lt_succ_self _
      · exact Nat.lt_succ_of_lt (hs top (htop ▸ List.mem_cons_self) c hc)
    · exact Nat.lt_succ_of_lt (hs f (htop ▸ List.mem_cons_of_mem _ hf) c hc)

theorem enter {s : Stack} (hs : s.Closed) {bound : List (Param × Cell)} (hbound : ∀ b ∈ bound, b.2 < s.cells.size)
    (f : Function) (callLine : Int) : (s.enter f callLine bound).Closed := by
  intro g hg c hc
  rcases List.mem_cons.1 hg with rfl | hg
  · obtain ⟨b, hb, rfl⟩ := Frame.mem_cells_ofCall hc
    exact hbound b hb
  · exact hs g hg c hc

theorem leave {s : Stack} (hs : s.Closed) : s.leave.Closed := fun f hf => hs f (List.mem_of_mem_drop hf)

end Closed

end Stack

end Rover
