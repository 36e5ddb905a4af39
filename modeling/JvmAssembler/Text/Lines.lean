/-! A line ends at a line feed, with or without a carriage return in front. Neither is part of it.
-/

namespace JvmAssembler.Text

/-- A line, last character first, without the carriage return that belongs to its line feed. -/
def dropReturn : List Char → List Char
  | '\r' :: line => line
  | line => line

/-- The first line, and the text after it. The characters read before come last first. -/
def takeLine (taken : List Char) : List Char → List Char × List Char
  | [] => (taken.reverse, [])
  | '\n' :: rest => ((dropReturn taken).reverse, rest)
  | c :: rest => takeLine (c :: taken) rest

theorem length_takeLine_lt (taken : List Char) (c : Char) (text : List Char) :
    (takeLine taken (c :: text)).2.length < (c :: text).length := by
  induction text generalizing taken c with
  | nil =>
      unfold takeLine
      split <;> simp_all [takeLine]
  | cons d text ih =>
      unfold takeLine
      split
      · simp_all
      · simp_all
      · rename_i hcons
        cases hcons
        have hlt := ih (c :: taken) d
        simp only [List.length_cons] at hlt ⊢
        omega

/-- The lines of a text, after those read before, which come last first. -/
def readLines (before : List (List Char)) (text : List Char) : List (List Char) :=
  match text with
  | [] => before.reverse
  | c :: text =>
    readLines ((takeLine [] (c :: text)).1 :: before) (takeLine [] (c :: text)).2
termination_by text.length
decreasing_by exact length_takeLine_lt [] c text

def lines (text : String) : List (List Char) := readLines [] text.toList

end JvmAssembler.Text
