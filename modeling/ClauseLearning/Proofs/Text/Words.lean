import Mathlib
import ClauseLearning.Text.Split

/-!
# Words and the blanks around a text

A text without the blanks around it begins as its first word does, and is empty where there are no
words.
-/

namespace ClauseLearning.Text

variable {c : Char} {text : List Char}

/-- The text without the blanks around it. -/
def trim (text : List Char) : List Char := (text.dropWhile isBlank).rdropWhile isBlank

/-! ## Cutting lists -/

section Split

variable {α : Type} {p : α → Bool} {a : α} {xs : List α}

theorem split_ne_nil (p : α → Bool) (xs : List α) : split p xs ≠ [] := by
  cases xs with
  | nil => simp [split_nil]
  | cons a xs =>
      rw [split_cons]
      split
      · exact List.cons_ne_nil _ _
      · cases split p xs <;> simp [prepend]

theorem exists_split_eq_cons (p : α → Bool) (xs : List α) :
    ∃ part parts, split p xs = part :: parts :=
  List.exists_cons_of_ne_nil (split_ne_nil p xs)

theorem split_of_pos (ha : p a = true) : split p (a :: xs) = [] :: split p xs := by
  rw [split_cons, if_pos ha]

theorem split_of_neg (ha : p a = false) :
    split p (a :: xs) = (split p xs).modifyHead (a :: ·) := by
  obtain ⟨part, parts, hparts⟩ := exists_split_eq_cons p xs
  rw [split_cons, if_neg (by simp [ha]), hparts]
  rfl

theorem length_split (p : α → Bool) (xs : List α) :
    (split p xs).length = xs.countP p + 1 := by
  induction xs with
  | nil => rfl
  | cons a xs ih =>
      cases ha : p a with
      | true => rw [split_of_pos ha, List.length_cons, ih, List.countP_cons_of_pos ha]
      | false =>
          rw [split_of_neg ha, List.length_modifyHead, ih, List.countP_cons_of_neg (by simp [ha])]

end Split

/-! ## Words -/

theorem words_cons_of_isBlank (h : isBlank c = true) : words (c :: text) = words text := by
  rw [words, split_of_pos h, List.filter_cons_of_neg (by simp), words]

theorem words_dropWhile (text : List Char) : words (text.dropWhile isBlank) = words text := by
  induction text with
  | nil => rfl
  | cons c text ih =>
      cases h : isBlank c with
      | true => rw [List.dropWhile_cons_of_pos h, words_cons_of_isBlank h, ih]
      | false => rw [List.dropWhile_cons_of_neg (by simp [h])]

/-- A character that is not blank begins a word. -/
theorem words_cons (h : isBlank c = false) (text : List Char) :
    ∃ word rest, words (c :: text) = (c :: word) :: rest := by
  obtain ⟨part, parts, hparts⟩ := exists_split_eq_cons isBlank text
  rw [words, split_of_neg h, hparts, List.modifyHead_cons, List.filter_cons_of_pos (by simp)]
  exact ⟨part, _, rfl⟩

/-- The blanks behind a character that is not blank do not matter to it. -/
theorem head?_rdropWhile (h : isBlank c = false) (text : List Char) :
    ((c :: text).rdropWhile isBlank).head? = some c := by
  have hne : (c :: text).rdropWhile isBlank ≠ [] := by
    rw [ne_eq, List.rdropWhile_eq_nil_iff]
    intro hall
    simp [hall c List.mem_cons_self] at h
  obtain ⟨d, rest, hcons⟩ := List.exists_cons_of_ne_nil hne
  have hprefix := List.rdropWhile_prefix isBlank (c :: text)
  rw [hcons] at hprefix ⊢
  rw [(List.cons_prefix_cons.1 hprefix).1, List.head?_cons]

/-- A text without the blanks around it begins as its first word does. -/
theorem head?_trim (text : List Char) : (trim text).head? = (words text).head?.bind List.head? := by
  rw [trim, ← words_dropWhile]
  cases htext : text.dropWhile isBlank with
  | nil => rfl
  | cons c rest =>
      have hc : isBlank c = false := by
        have := List.head?_dropWhile_not isBlank text
        simpa [htext] using this
      obtain ⟨word, others, hwords⟩ := words_cons hc rest
      rw [hwords, head?_rdropWhile hc]
      rfl

theorem ne_nil_of_mem_words {word : List Char} (h : word ∈ words text) : word ≠ [] := by
  simpa using (List.mem_filter.1 h).2

/-- Where there are no words there are blanks only. -/
theorem trim_eq_nil : trim text = [] ↔ words text = [] := by
  rw [← List.head?_eq_none_iff, head?_trim]
  cases hwords : words text with
  | nil => simp
  | cons word rest =>
      have hne := ne_nil_of_mem_words (hwords ▸ List.mem_cons_self)
      simpa using hne

end ClauseLearning.Text
