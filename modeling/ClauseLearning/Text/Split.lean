import ClauseLearning.Text.Blank

/-!
# Lines and words

Text is read in two cuts: bytes into lines, and the characters of a line into words.
-/

namespace ClauseLearning.Text

/-- Puts an element in front of the first part. -/
def prepend {α : Type} (a : α) : List (List α) → List (List α)
  | [] => [[a]]
  | part :: parts => (a :: part) :: parts

/-- Cuts a list at each separator. There is one part more than there are separators. -/
def split {α : Type} (isSeparator : α → Bool) (xs : List α) : List (List α) :=
  xs.foldr (fun a parts => if isSeparator a then [] :: parts else prepend a parts) [[]]

/-- The bytes between line feeds. -/
def lines (bytes : List UInt8) : List (List UInt8) := split (· == 10) bytes

/-- The characters that the bytes encode in UTF-8, if they do. -/
def decode? (bytes : List UInt8) : Option (List Char) :=
  (String.fromUTF8? ⟨bytes.toArray⟩).map String.toList

/-- The longest runs of characters that are not blank. -/
def words (text : List Char) : List (List Char) :=
  (split isBlank text).filter fun word => !word.isEmpty

theorem split_nil {α : Type} (p : α → Bool) : split p [] = [[]] := rfl

theorem split_cons {α : Type} (p : α → Bool) (a : α) (xs : List α) :
    split p (a :: xs) = if p a then [] :: split p xs else prepend a (split p xs) := rfl

end ClauseLearning.Text
