/-! Splitting text at a character. -/

namespace JvmAssembler.Text

/-- The text before the first occurrence of a character, and the text after it. -/
def splitFirst? (c : Char) (text : List Char) : Option (List Char × List Char) :=
  match text.span (· != c) with
  | (before, _ :: after) => some (before, after)
  | (_, []) => none

/-- The text before the last occurrence of a character, and the text after it. -/
def splitLast? (c : Char) (text : List Char) : Option (List Char × List Char) :=
  (splitFirst? c text.reverse).map fun (after, before) => (before.reverse, after.reverse)

end JvmAssembler.Text
