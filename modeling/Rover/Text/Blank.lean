/-!
# Blank space

Two classes of blank characters: the white-space property, which is trimmed around numerals, and the separators of input
words, which are the same and the four information separators.
-/

namespace Rover

/-- The characters with the white-space property. -/
def isBlank (c : Char) : Bool :=
  let n := c.toNat
  (9 ≤ n && n ≤ 13) || n == 0x20 || n == 0x85 || n == 0xa0 || n == 0x1680 || (0x2000 ≤ n && n ≤ 0x200a) ||
    n == 0x2028 || n == 0x2029 || n == 0x202f || n == 0x205f || n == 0x3000

/-- The characters that separate words of the input. -/
def isSeparator (c : Char) : Bool := isBlank c || (0x1c ≤ c.toNat && c.toNat ≤ 0x1f)

/-- The text without blanks at its two ends. -/
def trimBlank (text : List Char) : List Char :=
  (text.dropWhile isBlank).reverse.dropWhile isBlank |>.reverse

/-- The maximal runs of characters that do not separate, in order. -/
def words (text : List Char) : List String :=
  match _h : text.dropWhile isSeparator with
  | [] => []
  | c :: rest =>
    String.ofList (c :: rest.takeWhile (!isSeparator ·)) :: words (rest.dropWhile (!isSeparator ·))
termination_by text.length
decreasing_by
  have h₁ := (List.dropWhile_suffix (!isSeparator ·) (l := rest)).length_le
  have h₂ := (List.dropWhile_suffix isSeparator (l := text)).length_le
  simp only [_h, List.length_cons] at h₂
  omega

theorem words_of_dropWhile_nil {text : List Char} (h : text.dropWhile isSeparator = []) : words text = [] := by
  rw [words]
  split
  · rfl
  · rename_i hcons
    rw [h] at hcons
    cases hcons

theorem words_nil : words [] = [] := words_of_dropWhile_nil rfl

theorem words_of_dropWhile_cons {text rest : List Char} {c : Char} (h : text.dropWhile isSeparator = c :: rest) :
    words text = String.ofList (c :: rest.takeWhile (!isSeparator ·)) :: words (rest.dropWhile (!isSeparator ·)) := by
  rw [words]
  split
  · rename_i hnil
    rw [h] at hnil
    cases hnil
  · rename_i hcons
    rw [h] at hcons
    cases hcons
    rfl

theorem words_separators_append {blank : List Char} (hblank : ∀ c ∈ blank, isSeparator c = true) (text : List Char) :
    words (blank ++ text) = words text := by
  have hdrop : (blank ++ text).dropWhile isSeparator = text.dropWhile isSeparator := List.dropWhile_append_of_pos hblank
  cases h : text.dropWhile isSeparator with
  | nil => rw [words_of_dropWhile_nil h, words_of_dropWhile_nil (hdrop.trans h)]
  | cons c rest => rw [words_of_dropWhile_cons h, words_of_dropWhile_cons (hdrop.trans h)]

/-- A text that goes on with a separator, if it goes on at all. -/
def StopsWord (text : List Char) : Prop := ∀ c ∈ text.head?, isSeparator c = true

theorem words_append {word text : List Char} (hword : ∀ c ∈ word, isSeparator c = false) (hne : word ≠ [])
    (htext : StopsWord text) : words (word ++ text) = String.ofList word :: words text := by
  cases word with
  | nil => exact absurd rfl hne
  | cons c word =>
      have hc : ¬isSeparator c = true := by simp [hword c List.mem_cons_self]
      have hrest : ∀ d ∈ word, (!isSeparator d) = true := by
        intro d hd
        rw [hword d (List.mem_cons_of_mem _ hd)]
        rfl
      rw [List.cons_append, words_of_dropWhile_cons (List.dropWhile_cons_of_neg hc), List.takeWhile_append_of_pos hrest,
        List.dropWhile_append_of_pos hrest]
      cases text with
      | nil => simp
      | cons d text =>
          have hd : isSeparator d = true := htext d rfl
          simp [hd]

/-- A text has no words, or it can be cut behind its first one. -/
theorem words_cut (text : List Char) : (∀ c ∈ text, isSeparator c = true) ∨
    ∃ blank word rest, text = blank ++ (word ++ rest) ∧ (∀ c ∈ blank, isSeparator c = true) ∧
      (∀ c ∈ word, isSeparator c = false) ∧ word ≠ [] ∧ StopsWord rest := by
  have hblank : ∀ c ∈ text.takeWhile isSeparator, isSeparator c = true := List.all_eq_true.1 List.all_takeWhile
  have hsplit := (List.takeWhile_append_dropWhile (p := isSeparator) (l := text)).symm
  cases h : text.dropWhile isSeparator with
  | nil =>
      rw [h, List.append_nil] at hsplit
      exact .inl (hsplit ▸ hblank)
  | cons c rest =>
      have hc : isSeparator c = false := by
        have hhead := List.head?_dropWhile_not isSeparator text
        rw [h] at hhead
        simpa using hhead
      have hword : ∀ d ∈ rest.takeWhile (!isSeparator ·), (!isSeparator d) = true :=
        List.all_eq_true.1 List.all_takeWhile
      refine .inr ⟨_, c :: rest.takeWhile (!isSeparator ·), rest.dropWhile (!isSeparator ·), ?_, hblank, ?_,
        List.cons_ne_nil _ _, ?_⟩
      · rw [List.cons_append, List.takeWhile_append_dropWhile, ← h]
        exact hsplit
      · intro d hd
        rcases List.mem_cons.1 hd with rfl | hd
        · exact hc
        · simpa using hword d hd
      · intro d hd
        have hhead := List.head?_dropWhile_not (fun x => !isSeparator x) rest
        rw [hd] at hhead
        simpa using hhead

/-- A separator parts the words before it from those after it. -/
theorem words_append_cons {c : Char} (hc : isSeparator c = true) (before after : List Char) :
    words (before ++ c :: after) = words before ++ words after := by
  have hseparator : ∀ d ∈ [c], isSeparator d = true := by simpa using hc
  have hafter : words (c :: after) = words after := words_separators_append hseparator after
  -- The first word of `before` is taken off, so the induction is on its length.
  generalize hlength : before.length = n
  induction n using Nat.strongRecOn generalizing before with
  | ind n ih =>
      rcases words_cut before with hblank | ⟨blank, word, rest, rfl, hblank, hword, hne, hrest⟩
      · have hbefore : words before = words [] := by simpa using words_separators_append hblank []
        rw [words_separators_append hblank, hafter, hbefore, words_nil, List.nil_append]
      · have hstops : StopsWord (rest ++ c :: after) := by
          cases rest with
          | nil => simpa [StopsWord] using hc
          | cons d rest => exact hrest
        have hshorter : rest.length < n := by
          have := List.length_pos_iff.2 hne
          simp only [List.length_append] at hlength
          omega
        rw [List.append_assoc, List.append_assoc, words_separators_append hblank, words_separators_append hblank,
          words_append hword hne hstops, words_append hword hne hrest, ih _ hshorter rest rfl]
        rfl

end Rover
