import Rover.Text.Blank

/-!
# Words read line by line

A text is read one line at a time, and only when a word is wanted and none is left of the lines read before. Lines without
words are passed over.
-/

namespace Rover

/-- The lines of a text, each with the newline that ends it; the last one may lack it. -/
def lines : List Char → List (List Char)
  | [] => []
  | c :: rest =>
    if c = '\n' then [c] :: lines rest
    else match lines rest with
      | [] => [[c]]
      | line :: others => (c :: line) :: others

theorem lines_append {line : List Char} (hline : '\n' ∉ line) (rest : List Char) :
    lines (line ++ '\n' :: rest) = (line ++ ['\n']) :: lines rest := by
  induction line with
  | nil => rfl
  | cons c line ih =>
      have hc : c ≠ '\n' := fun h => hline (h ▸ List.mem_cons_self)
      rw [List.cons_append, lines, if_neg hc, ih fun h => hline (List.mem_cons_of_mem _ h)]
      rfl

theorem lines_of_not_mem {text : List Char} (htext : '\n' ∉ text) (hne : text ≠ []) : lines text = [text] := by
  induction text with
  | nil => exact absurd rfl hne
  | cons c text ih =>
      have hc : c ≠ '\n' := fun h => htext (h ▸ List.mem_cons_self)
      rw [lines, if_neg hc]
      cases text with
      | nil => rfl
      | cons d text => rw [ih (fun h => htext (List.mem_cons_of_mem _ h)) (List.cons_ne_nil _ _)]

/-- No word goes from one line to the next. -/
theorem flatMap_words_lines (text : List Char) : (lines text).flatMap words = words text := by
  generalize hlength : text.length = n
  induction n using Nat.strongRecOn generalizing text with
  | ind n ih =>
      by_cases hmem : '\n' ∈ text
      · obtain ⟨line, rest, rfl, hline⟩ := List.eq_append_cons_of_mem hmem
        have hshorter : rest.length < n := by
          simp only [List.length_append, List.length_cons] at hlength
          omega
        rw [lines_append hline, List.flatMap_cons, ih _ hshorter rest rfl, words_append_cons (by decide),
          words_append_cons (by decide), words_nil, List.append_nil]
      · cases text with
        | nil => exact words_nil.symm
        | cons c text => rw [lines_of_not_mem hmem (List.cons_ne_nil _ _), List.flatMap_singleton]

/-- The words of the lines read so far that nobody has taken, and the lines that have not been read. -/
structure WordReader where
  pending : List String
  unread : List (List Char)

namespace WordReader

def ofText (text : String) : WordReader := ⟨[], lines text.toList⟩

/-- Reads lines until one of them has words. -/
def pull : List (List Char) → WordReader
  | [] => ⟨[], []⟩
  | line :: rest => match words line with
    | [] => pull rest
    | found => ⟨found, rest⟩

/-- Reads on if no word is left of the lines read before. -/
def filled (r : WordReader) : WordReader := if r.pending.isEmpty then pull r.unread else r

/-- Takes the next word, if there is one before the end of the text. -/
def next (r : WordReader) : Option String × WordReader :=
  (r.filled.pending.head?, { r.filled with pending := r.filled.pending.tail })

/-- The words that are still to be taken. -/
def remaining (r : WordReader) : List String := r.pending ++ r.unread.flatMap words

/-- All words of a text are there to be taken, whatever lines it is written on. -/
theorem remaining_ofText (text : String) : (ofText text).remaining = words text.toList := flatMap_words_lines text.toList

theorem remaining_pull (unread : List (List Char)) : (pull unread).remaining = unread.flatMap words := by
  induction unread with
  | nil => rfl
  | cons line rest ih =>
      rw [pull, List.flatMap_cons]
      split
      · rename_i hnone
        rw [ih, hnone, List.nil_append]
      · rfl

theorem remaining_filled (r : WordReader) : r.filled.remaining = r.remaining := by
  unfold filled
  split
  · rename_i hempty
    rw [remaining_pull, remaining, List.isEmpty_iff.1 hempty, List.nil_append]
  · rfl

/-- Reading on stops short of a word only at the end of the text. -/
theorem unread_pull {unread : List (List Char)} (h : (pull unread).pending = []) : (pull unread).unread = [] := by
  induction unread with
  | nil => rfl
  | cons line rest ih =>
      rw [pull] at h ⊢
      cases hwords : words line with
      | nil =>
          rw [hwords] at h
          exact ih h
      | cons word others =>
          rw [hwords] at h
          cases h

theorem remaining_of_pending {r : WordReader} (h : r.filled.pending = []) : r.filled.remaining = [] := by
  unfold filled at h ⊢
  split at h
  · rename_i hempty
    rw [if_pos hempty, remaining, h, unread_pull h]
    rfl
  · rename_i hsome
    exact absurd (List.isEmpty_iff.2 h) hsome

/-- The next word is the first one of those still to be taken. -/
theorem next_fst (r : WordReader) : r.next.1 = r.remaining.head? := by
  rw [← remaining_filled, next]
  cases h : r.filled.pending with
  | nil => rw [remaining_of_pending h]
  | cons word rest =>
      rw [remaining, h]
      rfl

theorem remaining_next (r : WordReader) : r.next.2.remaining = r.remaining.tail := by
  have hnext : r.next.2.remaining = r.filled.pending.tail ++ r.filled.unread.flatMap words := rfl
  rw [hnext, ← remaining_filled]
  cases h : r.filled.pending with
  | nil =>
      have hend := remaining_of_pending h
      rw [hend]
      rw [remaining, h] at hend
      exact hend
  | cons word rest =>
      rw [remaining, h]
      rfl

end WordReader

end Rover
