import Mathlib.Data.List.DropRight
import Rover.Stack

/-!
# Summaries of stack traces

A stack trace lists the records innermost first, each with the line where it stands: the current line for the innermost
one, and for every other one the line where it called the record just above it. With a number of items, a longer list is cut
down to so many entries at each end. The cut is made with signed positions, where the last `n` entries start at `-n`. Zero
has no sign, so if no entry is to be kept the whole list stands after the count: `trace_abridged_iff`.
-/

namespace Rover

/-- What a stack trace says of a record that stands at a line. -/
def Frame.entry (f : Frame) (line : Int) : String := f.name ++ " (line " ++ Numeral.ofInt line ++ ")"

namespace Stack

/-- The lines where the records stand, innermost first, and last the line of the first call. -/
def places (s : Stack) (line : Int) : List Int := line :: s.frames.map Frame.callerLine

/-- All entries of a stack trace. -/
def listing (s : Stack) (line : Int) : List String := List.zipWith Frame.entry s.frames (s.places line)

/-- The entry in place of entries that are left out. -/
def omission (count : Nat) : String := "... (" ++ Numeral.ofInt count ++ " more)"

/-- At most `n` entries at each end of a list, and the number of the others between them. -/
def abridged (n : Nat) (entries : List String) : List String :=
  if entries.length ≤ 2 * n then entries
  else entries.take n ++ [omission (entries.length - 2 * n)] ++ entries.rtake n

theorem entries_eq_zipWith (line : Int) (frames : List Frame) :
    Frame.entries line frames = List.zipWith Frame.entry frames (line :: frames.map Frame.callerLine) := by
  induction frames generalizing line with
  | nil => rfl
  | cons f outer ih =>
      rw [Frame.entries, ih, List.map_cons, List.zipWith_cons_cons]
      rfl

theorem length_listing (s : Stack) (line : Int) : (s.listing line).length = s.depth := by
  simp [listing, places, depth]

theorem length_abridged (n : Nat) (entries : List String) :
    (abridged n entries).length = min entries.length (2 * n + 1) := by
  unfold abridged
  split_ifs with hshort
  · omega
  · simp only [List.rtake, List.length_append, List.length_take, List.length_singleton, List.length_drop]
    omega

/-! ### Signed positions -/

theorem front_natCast {α : Type} (n : Nat) (l : List α) : front n l = l.take n := by
  rw [front, if_pos (by omega), Int.toNat_natCast]

/-- From position `-n` on there are the last `n` entries. -/
theorem back_neg {α : Type} {n : Nat} (hn : 0 < n) (l : List α) : back (-n) l = l.rtake n := by
  rw [back, if_neg (by omega), List.rtake]
  congr 1
  omega

/-- Position zero, which is also `-0`, is the start of the list. -/
theorem back_zero {α : Type} (l : List α) : back 0 l = l := rfl

theorem summary_of_pos {n : Nat} (hn : 0 < n) (entries : List String) : summary n entries = abridged n entries := by
  have hskipped : 0 < (entries.length : Int) - 2 * n ↔ ¬ entries.length ≤ 2 * n := by omega
  simp only [summary, hskipped, front_natCast, back_neg hn]
  rw [abridged, ite_not]
  split_ifs with hshort
  · rfl
  · have hcount : (entries.length : Int) - 2 * n = ((entries.length - 2 * n : Nat) : Int) := by omega
    rw [hcount, omission]

theorem summary_zero {entries : List String} (h : entries ≠ []) : summary 0 entries = omission entries.length :: entries := by
  have hpos := List.length_pos_iff.2 h
  have hcount : (entries.length : Int) - 2 * 0 = entries.length := by omega
  simp only [summary, hcount]
  rw [if_pos (by omega), Int.neg_zero, back_zero]
  rfl

theorem abridged_zero {entries : List String} (h : entries ≠ []) : abridged 0 entries = [omission entries.length] := by
  have hpos := List.length_pos_iff.2 h
  rw [abridged, if_neg (by omega)]
  simp [List.rtake]

/-! ### Traces -/

theorem trace_of_pos (s : Stack) (line : Int) {n : Nat} (hn : 0 < n) :
    s.trace line (some n) = abridged n (s.listing line) := by
  simp only [trace]
  rw [entries_eq_zipWith, summary_of_pos hn]
  rfl

theorem trace_of_empty {s : Stack} (h : s.frames = []) (line : Int) (n : Nat) :
    s.trace line (some n) = abridged n (s.listing line) := by
  have hskipped : ¬ 0 < ((0 : Nat) : Int) - 2 * n := by omega
  simp only [trace, listing, h, Frame.entries, summary, List.length_nil, List.zipWith_nil_left]
  rw [if_neg hskipped, abridged, List.length_nil, if_pos (Nat.zero_le _)]

theorem trace_zero {s : Stack} (h : s.frames ≠ []) (line : Int) :
    s.trace line (some 0) = omission s.depth :: s.listing line ∧ abridged 0 (s.listing line) = [omission s.depth] := by
  have hentries : s.listing line ≠ [] := by
    rw [← List.length_pos_iff, length_listing]
    exact List.length_pos_iff.2 h
  rw [← length_listing s line]
  refine ⟨?_, abridged_zero hentries⟩
  simp only [trace]
  rw [entries_eq_zipWith]
  exact summary_zero hentries

/-- The stack trace is the listing, and with a number of items it is the listing cut down to it, unless the number is zero and
there is a record. Then nothing is left out, and the count stands before the whole listing. -/
theorem trace_abridged_iff (s : Stack) (line : Int) (n : Nat) :
    s.trace line none = s.listing line ∧
      (s.trace line (some n) = if n = 0 ∧ s.frames ≠ [] then omission s.depth :: s.listing line
        else abridged n (s.listing line)) ∧
      (s.trace line (some n) = abridged n (s.listing line) ↔ 0 < n ∨ s.frames = []) ∧
      (abridged n (s.listing line)).length = min s.depth (2 * n + 1) := by
  refine ⟨entries_eq_zipWith line s.frames, ?_, ?_, ?_⟩
  · split_ifs with hcut
    · obtain ⟨rfl, hframes⟩ := hcut
      exact (trace_zero hframes line).1
    · rcases Nat.eq_zero_or_pos n with rfl | hn
      · exact trace_of_empty (by simpa using hcut) line 0
      · exact s.trace_of_pos line hn
  · constructor
    · intro htrace
      by_contra hcut
      rw [not_or, Nat.not_lt, Nat.le_zero] at hcut
      obtain ⟨rfl, hframes⟩ := hcut
      obtain ⟨hzero, habridged⟩ := trace_zero hframes line
      have hlength := congrArg List.length (hzero.symm.trans (htrace.trans habridged))
      simp only [List.length_cons, length_listing, List.length_nil] at hlength
      have hpos : 0 < s.depth := List.length_pos_iff.2 hframes
      omega
    · rintro (hn | hframes)
      · exact s.trace_of_pos line hn
      · exact trace_of_empty hframes line n
  · rw [length_abridged, length_listing]

/-- No entry of a single record is to be kept, and yet it is there, after the count of what is left out. -/
theorem lone_record_not_left_out :
    let s : Stack := ⟨[⟨"main", -1, []⟩], #[]⟩
    s.trace 3 (some 0) = ["... (1 more)", "main (line 3)"] ∧ abridged 0 (s.listing 3) = ["... (1 more)"] ∧
      s.trace 3 (some 0) ≠ abridged 0 (s.listing 3) := by
  decide +kernel

end Stack

end Rover
