/-! Words joined by a separator, and the words between separators. -/
namespace ClassLang.Text

def join (sep : Char) : List (List Char) → List Char
  | [] => []
  | [word] => word
  | word :: words => word ++ sep :: join sep words

/-- There is always at least one word, and an empty text is one empty word. -/
def split (sep : Char) : List Char → List (List Char)
  | [] => [[]]
  | c :: cs =>
    if c = sep then [] :: split sep cs
    else match split sep cs with
      | [] => [[c]]
      | word :: words => (c :: word) :: words

theorem join_cons_of_ne_nil (sep : Char) (word : List Char) {words : List (List Char)}
    (h : words ≠ []) : join sep (word :: words) = word ++ sep :: join sep words := by
  cases words with
  | nil => exact absurd rfl h
  | cons next words => rfl

end ClassLang.Text
