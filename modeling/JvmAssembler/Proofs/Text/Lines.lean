import JvmAssembler.Source.Position
import JvmAssembler.Text.Lines
import Mathlib.Data.List.DropRight
import Mathlib.Data.List.Induction

/-! A text is cut into its lines: each but the last has its ending, with or without a carriage
return. The place after some characters of a text is told by these characters alone. -/

namespace JvmAssembler.Text

inductive LineEnd where
  | feed
  | returnFeed

def LineEnd.chars : LineEnd → List Char
  | feed => ['\n']
  | returnFeed => ['\r', '\n']

/-- The carriage return before a line feed belongs to the ending. -/
def LineEnd.Ends : LineEnd → List Char → Prop
  | feed, line => line.getLast? ≠ some '\r'
  | returnFeed, _ => True

/-- A text consists of lines. Only the last may be without an ending, and it is not empty then. -/
inductive Lined : List Char → List (List Char) → Prop
  | nil : Lined [] []
  | last {line : List Char} : line ≠ [] → '\n' ∉ line → Lined line [line]
  | cons {line rest : List Char} {lines : List (List Char)} (ending : LineEnd) :
      '\n' ∉ line → ending.Ends line → Lined rest lines →
        Lined (line ++ ending.chars ++ rest) (line :: lines)

theorem Lined.eq_nil {text : List Char} {lines : List (List Char)} (h : Lined text lines)
    (htext : text = []) : lines = [] := by
  cases h with
  | nil => rfl
  | last hne => exact absurd htext hne
  | cons ending => cases ending <;> simp [LineEnd.chars] at htext

/-- A line is taken with its ending, if it has one. -/
theorem takeLine_eq (taken text : List Char) (h : '\n' ∉ taken) :
    (∃ ending : LineEnd, '\n' ∉ (takeLine taken text).1 ∧ ending.Ends (takeLine taken text).1 ∧
        taken.reverse ++ text = (takeLine taken text).1 ++ ending.chars ++ (takeLine taken text).2) ∨
      '\n' ∉ (takeLine taken text).1 ∧ (takeLine taken text).2 = [] ∧
        taken.reverse ++ text = (takeLine taken text).1 := by
  fun_induction takeLine taken text with
  | case1 taken => exact .inr ⟨by simpa using h, rfl, by simp⟩
  | case2 taken rest =>
      left
      unfold dropReturn
      split
      · rename_i line
        exact ⟨.returnFeed, by simp_all, trivial, by simp [LineEnd.chars]⟩
      · rename_i hreturn
        refine ⟨.feed, by simpa using h, ?_, by simp [LineEnd.chars]⟩
        intro hlast
        rw [List.getLast?_reverse] at hlast
        obtain ⟨line, rfl⟩ := List.head?_eq_some_iff.mp hlast
        exact hreturn line rfl
  | case3 taken c rest hfeed ih =>
      have hnot : '\n' ∉ c :: taken := by
        simp only [List.mem_cons, not_or]
        exact ⟨fun heq => hfeed heq.symm, h⟩
      simpa using ih hnot

theorem readLines_eq (before : List (List Char)) (text : List Char) :
    ∃ lines, readLines before text = before.reverse ++ lines ∧ Lined text lines := by
  fun_induction readLines before text with
  | case1 before => exact ⟨[], by simp, .nil⟩
  | case2 before c text ih =>
      obtain ⟨lines, hread, hlined⟩ := ih
      refine ⟨(takeLine [] (c :: text)).1 :: lines, by rw [hread]; simp, ?_⟩
      rcases takeLine_eq [] (c :: text) (by simp) with ⟨ending, hline, hends, htext⟩ | ⟨hline, hrest, htext⟩
      · have hcons := Lined.cons ending hline hends hlined
        rwa [← htext] at hcons
      · rw [hlined.eq_nil hrest, ← htext]
        rw [← htext] at hline
        exact .last (by simp) hline

theorem lined_lines (text : String) : Lined text.toList (lines text) := by
  obtain ⟨found, hfound, hlined⟩ := readLines_eq [] text.toList
  rwa [lines, hfound]

/-- Number of bytes that characters take. -/
def bytes (chars : List Char) : Nat := (String.ofList chars).utf8ByteSize

theorem bytes_append (chars more : List Char) : bytes (chars ++ more) = bytes chars + bytes more := by
  rw [bytes, String.ofList_append, String.utf8ByteSize_append]
  rfl

theorem bytes_cons (c : Char) (chars : List Char) : bytes (c :: chars) = c.utf8Size + bytes chars := by
  rw [← List.singleton_append, bytes_append, bytes, ← String.singleton_eq_ofList,
    String.utf8ByteSize_singleton]

/-- The characters after the last line feed. -/
def lastLine (chars : List Char) : List Char := chars.rtakeWhile (· != '\n')

/-- The place after some characters of a text. -/
def place (before : List Char) : Position where
  line := before.count '\n' + 1
  column := bytes (lastLine before) + 1
  offset := bytes before

/-- Number of line ends with a carriage return. -/
def returns : List Char → Nat
  | '\r' :: '\n' :: rest => returns rest + 1
  | _ :: rest => returns rest
  | [] => 0

def LineEnd.returns : LineEnd → Nat
  | feed => 0
  | returnFeed => 1

/-- A line starts after these characters. -/
def StartsLine (above : List Char) : Prop := above = [] ∨ ∃ line, above = line ++ ['\n']

variable {above line lead rest : List Char}

theorem StartsLine.append (above line : List Char) (ending : LineEnd) :
    StartsLine (above ++ (line ++ ending.chars)) := by
  cases ending with
  | feed => exact .inr ⟨above ++ line, by simp [LineEnd.chars]⟩
  | returnFeed => exact .inr ⟨above ++ line ++ ['\r'], by simp [LineEnd.chars]⟩

theorem count_append_ending (ending : LineEnd) (h : '\n' ∉ line) :
    (line ++ ending.chars).count '\n' = 1 := by
  rw [List.count_append, List.count_eq_zero.mpr h]
  cases ending <;> rfl

theorem lastLine_append (h : StartsLine above) (hlead : '\n' ∉ lead) :
    lastLine (above ++ lead) = lead := by
  induction lead using List.reverseRecOn with
  | nil =>
      rw [List.append_nil]
      rcases h with rfl | ⟨line, rfl⟩
      · rfl
      · exact List.rtakeWhile_concat_neg _ _ _ (by simp)
  | append_singleton lead c ih =>
      simp only [List.mem_append, List.mem_singleton, not_or] at hlead
      rw [lastLine, ← List.append_assoc,
        List.rtakeWhile_concat_pos _ _ _ (by simpa using fun heq => hlead.2 heq.symm)]
      exact congrArg (· ++ [c]) (ih hlead.1)

theorem returns_eq_zero (h : '\n' ∉ line) : returns line = 0 := by
  fun_induction returns line with
  | case1 => simp at h
  | case2 _ _ _ ih => exact ih (by simp_all)
  | case3 => rfl

theorem returns_cons {c : Char} (h : ∀ tail, c = '\r' → rest ≠ '\n' :: tail) :
    returns (c :: rest) = returns rest := by
  rw [returns]
  rintro tail rfl rfl
  exact h tail rfl rfl

/-- Nothing before a line feed counts for what follows it. -/
theorem returns_append_feed (line rest : List Char) :
    returns (line ++ '\n' :: rest) = returns (line ++ ['\n']) + returns rest := by
  fun_induction returns line with
  | case1 line ih =>
      simp only [List.cons_append, returns]
      omega
  | case2 c line hfeed ih =>
      cases line with
      | nil =>
          by_cases hc : c = '\r'
          · subst hc
            simp [returns, Nat.add_comm]
          · have hne : ∀ more tail, c = '\r' → more ≠ '\n' :: tail := fun _ _ heq => absurd heq hc
            rw [List.singleton_append, List.singleton_append, returns_cons (hne _),
              returns_cons (hne _)]
            exact ih
      | cons d line =>
          have hne : ∀ more tail, c = '\r' → d :: line ++ more ≠ '\n' :: tail := by
            rintro more tail rfl heq
            obtain ⟨rfl, -⟩ := List.cons.inj heq
            exact hfeed line rfl rfl
          rw [List.cons_append, List.cons_append (a := c), returns_cons (hne _),
            returns_cons (hne _)]
          exact ih
  | case3 => simp [returns]

theorem returns_append (h : StartsLine above) :
    returns (above ++ rest) = returns above + returns rest := by
  rcases h with rfl | ⟨line, rfl⟩
  · simp [returns]
  · rw [List.append_assoc, List.singleton_append, returns_append_feed]

theorem returns_append_ending (ending : LineEnd) (h : '\n' ∉ line) (hends : ending.Ends line) :
    returns (line ++ ending.chars) = ending.returns := by
  induction line with
  | nil => cases ending <;> rfl
  | cons c line ih =>
      simp only [List.mem_cons, not_or] at h
      have htail : ending.Ends line := by
        cases ending with
        | feed => cases line <;> simp_all [LineEnd.Ends]
        | returnFeed => trivial
      have hne : ∀ tail, c = '\r' → line ++ ending.chars ≠ '\n' :: tail := by
        rintro tail rfl heq
        cases line with
        | nil => cases ending <;> simp_all [LineEnd.Ends, LineEnd.chars]
        | cons d line =>
            obtain ⟨rfl, -⟩ := List.cons.inj heq
            exact h.2 List.mem_cons_self
      rw [List.cons_append, returns_cons hne]
      exact ih h.2 htail

end JvmAssembler.Text
