import JvmAssembler.Listing.Token
import Mathlib.Data.List.Infix

/-! A line of a listing can be printed from what its tokens say: words as they are, and texts
between quotes with some characters escaped. Blanks keep the tokens apart, and a comment may follow.
The tokens of the line are then those that were printed, whatever the texts and the comment hold. -/

namespace JvmAssembler

/-- What can be a token without quotes. -/
def IsWord (chars : List Char) : Prop :=
  chars ≠ [] ∧ (∀ c ∈ chars, Text.isBlank c = false ∧ c ≠ '"') ∧ ¬['/', '/'] <:+: chars

-- A quantifier over characters may be decided by trying all characters there are, hence `List.all`.
instance : DecidablePred IsWord := fun chars =>
  decidable_of_iff
    (chars ≠ [] ∧ (chars.all fun c => !Text.isBlank c && c != '"') = true ∧ ¬['/', '/'] <:+: chars)
    (by simp [IsWord])

/-- What a token says. -/
inductive Lexeme where
  | word (text : String) (isWord : IsWord text.toList)
  | quoted (text : String)

/-- A character between quotes. -/
def escape : Char → List Char
  | '\\' => ['\\', '\\']
  | '"' => ['\\', '"']
  | '\n' => ['\\', 'n']
  | '\t' => ['\\', 't']
  | '\r' => ['\\', 'r']
  | '\x00' => ['\\', '0']
  | c => [c]

namespace Lexeme

def chars : Lexeme → List Char
  | word text _ => text.toList
  | quoted text => '"' :: text.toList.flatMap escape ++ ['"']

/-- The text and the flag of the token. -/
def content : Lexeme → String × Bool
  | word text _ => (text, false)
  | quoted text => (text, true)

end Lexeme

def Token.content (token : Token) : String × Bool := (token.text, token.quoted)

/-- White space. -/
structure Blanks where
  chars : List Char
  blank : ∀ c ∈ chars, Text.isBlank c = true

/-- What a line is printed from. -/
structure PrintedLine where
  /-- What the tokens say, and what stands before each. -/
  lexemes : List (Blanks × Lexeme)
  trail : Blanks
  comment : Option (List Char)
  /-- Only the first may stand at the beginning of the line. -/
  separated : ∀ item ∈ lexemes.tail, item.1.chars ≠ []
  apart : comment.isSome → trail.chars ≠ []

namespace PrintedLine

/-- What follows the last token. -/
def ending (line : PrintedLine) : List Char :=
  line.trail.chars ++ (line.comment.map fun text => '/' :: '/' :: text).getD []

def chars (line : PrintedLine) : List Char :=
  line.lexemes.flatMap (fun item => item.1.chars ++ item.2.chars) ++ line.ending

def contents (line : PrintedLine) : List (String × Bool) :=
  line.lexemes.map fun item => item.2.content

end PrintedLine

namespace Token

variable (line : LineStart)

/-- A character is escaped, or is read as it stands. -/
theorem escape_cases (c : Char) :
    (∃ d, escape c = ['\\', d] ∧ unescape? d = some c) ∨ escape c = [c] ∧ c ≠ '\\' ∧ c ≠ '"' := by
  unfold escape
  split
  · exact .inl ⟨'\\', rfl, rfl⟩
  · exact .inl ⟨'"', rfl, rfl⟩
  · exact .inl ⟨'n', rfl, rfl⟩
  · exact .inl ⟨'t', rfl, rfl⟩
  · exact .inl ⟨'r', rfl, rfl⟩
  · exact .inl ⟨'0', rfl, rfl⟩
  · rename_i hslash hquote _ _ _ _
    exact .inr ⟨rfl, hslash, hquote⟩

theorem exists_readQuoted (start : Nat) (chars rest taken : List Char) (index : Nat) :
    ∃ stop, readQuoted line start taken index (chars.flatMap escape ++ '"' :: rest) =
      .ok (String.ofList (taken.reverse ++ chars), stop, rest) := by
  induction chars generalizing taken index with
  | nil => exact ⟨index + 1, by simp [readQuoted]⟩
  | cons c chars ih =>
      rw [List.flatMap_cons]
      rcases escape_cases c with ⟨d, hescape, hunescape⟩ | ⟨hescape, hslash, hquote⟩
      · obtain ⟨stop, hstop⟩ := ih (c :: taken) (index + 2)
        refine ⟨stop, ?_⟩
        simp only [hescape, List.cons_append, List.nil_append, readQuoted, hunescape]
        simpa using hstop
      · obtain ⟨stop, hstop⟩ := ih (c :: taken) (index + c.utf8Size)
        refine ⟨stop, ?_⟩
        rw [hescape, List.singleton_append, List.cons_append, readQuoted]
        · simpa using hstop
        all_goals simp_all

/-- A token ends before these characters: there are none, or the first is blank. -/
def Stops (rest : List Char) : Prop := ∀ c ∈ rest.head?, Text.isBlank c = true

theorem endsWord_of_stops {rest : List Char} (h : Stops rest) : endsWord rest = true := by
  unfold endsWord
  split
  · rfl
  · rfl
  · rename_i c rest _
    have hblank : Text.isBlank c = true := h c rfl
    rw [hblank, Bool.true_or]

/-- A word does not end before its last character. -/
theorem endsWord_eq_false {c : Char} {word rest : List Char} (h : IsWord (c :: word))
    (hrest : Stops rest) : endsWord (c :: (word ++ rest)) = false := by
  obtain ⟨-, hchars, hslashes⟩ := h
  obtain ⟨hblank, hquote⟩ := hchars c List.mem_cons_self
  unfold endsWord
  split
  · rename_i heq
    cases heq
  · rename_i tail heq
    obtain ⟨rfl, htail⟩ := List.cons.inj heq
    cases word with
    | nil =>
        have hslash : Text.isBlank '/' = true := hrest '/' (by rw [← List.nil_append rest, htail]; rfl)
        exact absurd hslash (by decide)
    | cons d word =>
        obtain ⟨rfl, -⟩ := List.cons.inj htail
        exact absurd (List.prefix_append ['/', '/'] word).isInfix hslashes
  · rename_i heq
    obtain ⟨rfl, -⟩ := List.cons.inj heq
    simp [hblank, hquote]

theorem isWord_tail {c d : Char} {word : List Char} (h : IsWord (c :: d :: word)) :
    IsWord (d :: word) :=
  ⟨by simp, fun a ha => h.2.1 a (List.mem_cons_of_mem c ha),
    fun hin => h.2.2 (hin.trans (List.suffix_cons c _).isInfix)⟩

theorem readWord_append {c : Char} {word rest : List Char} (h : IsWord (c :: word))
    (hrest : Stops rest) (taken : List Char) :
    readWord (c :: taken) (word ++ rest) = (word.reverse ++ c :: taken, rest) := by
  induction word generalizing c taken with
  | nil =>
      cases rest with
      | nil => rfl
      | cons d rest => rw [List.nil_append, readWord, if_pos (endsWord_of_stops hrest)]; rfl
  | cons d word ih =>
      have htail := isWord_tail h
      rw [List.cons_append, readWord, if_neg (by simp [endsWord_eq_false htail hrest]), ih htail]
      simp

/-- A line that starts with neither a comment nor a quote starts with a blank or with a word. -/
theorem next?_cons {c : Char} {rest : List Char} (hcomment : ∀ tail, c = '/' → rest ≠ '/' :: tail)
    (hquote : c ≠ '"') (index : Nat) :
    next? line index (c :: rest) =
      if Text.isBlank c then next? line (index + c.utf8Size) rest
      else .ok (some (⟨String.ofList (readWord [c] rest).1.reverse, false, line.position index⟩,
        index + byteLength (readWord [c] rest).1.reverse, (readWord [c] rest).2)) := by
  rw [next?.eq_def]
  split
  · rename_i heq
    cases heq
  · rename_i heq
    cases heq
    exact absurd rfl (hcomment _ rfl)
  · rename_i heq
    cases heq
    exact absurd rfl hquote
  · rename_i heq
    cases heq
    rfl

theorem next?_append_blanks {blanks : List Char} (h : ∀ c ∈ blanks, Text.isBlank c = true)
    (index : Nat) (rest : List Char) :
    ∃ start, next? line index (blanks ++ rest) = next? line start rest := by
  induction blanks generalizing index with
  | nil => exact ⟨index, rfl⟩
  | cons c blanks ih =>
      rw [List.forall_mem_cons] at h
      obtain ⟨start, hstart⟩ := ih h.2 (index + c.utf8Size)
      refine ⟨start, ?_⟩
      rw [← hstart, List.cons_append, next?_cons, if_pos h.1]
      · rintro tail rfl
        exact absurd h.1 (by decide)
      · rintro rfl
        exact absurd h.1 (by decide)

theorem exists_next?_lexeme (lexeme : Lexeme) {rest : List Char} (h : Stops rest) (index : Nat) :
    ∃ token stop, next? line index (lexeme.chars ++ rest) = .ok (some (token, stop, rest)) ∧
      token.content = lexeme.content := by
  cases lexeme with
  | quoted text =>
      obtain ⟨stop, hstop⟩ := exists_readQuoted line index text.toList rest [] (index + 1)
      refine ⟨⟨text, true, line.position index⟩, stop, ?_, rfl⟩
      rw [Lexeme.chars, List.cons_append, List.cons_append, List.append_assoc,
        List.singleton_append, next?.eq_def]
      simp [hstop, bind, Except.bind, pure, Except.pure]
  | word text isWord =>
      obtain ⟨c, word, hword⟩ := List.exists_cons_of_ne_nil isWord.1
      have hends := isWord
      rw [hword] at hends
      have hgoes := endsWord_eq_false hends h
      obtain ⟨hblank, hquote⟩ := hends.2.1 c List.mem_cons_self
      refine ⟨⟨text, false, line.position index⟩, index + byteLength text.toList, ?_, rfl⟩
      rw [Lexeme.chars, hword, List.cons_append, next?_cons line _ hquote, if_neg (by simp [hblank]),
        readWord_append hends h []]
      · simp [← hword]
      · rintro tail rfl htail
        rw [htail] at hgoes
        cases hgoes

theorem readAll_of_next? {before : List Token} {index stop : Nat} {chars rest : List Char}
    {token : Token} (h : next? line index chars = .ok (some (token, stop, rest))) :
    readAll line before index chars = readAll line (token :: before) stop rest := by
  rw [readAll]
  split
  · rename_i hnext
    rw [h] at hnext
    cases hnext
  · rename_i hnext
    rw [h] at hnext
    cases hnext
  · rename_i hnext
    rw [h] at hnext
    cases hnext
    rfl

theorem readAll_of_next?_eq_none {before : List Token} {index : Nat} {chars : List Char}
    (h : next? line index chars = .ok none) : readAll line before index chars = .ok before.reverse := by
  rw [readAll]
  split
  · rename_i hnext
    rw [h] at hnext
    cases hnext
  · rfl
  · rename_i hnext
    rw [h] at hnext
    cases hnext

/-- Tokens are read as they were printed, up to an ending that has none. -/
theorem exists_readAll (lexemes : List (Blanks × Lexeme)) {ending : List Char}
    (hseparated : ∀ item ∈ lexemes.tail, item.1.chars ≠ []) (hstops : Stops ending)
    (hending : ∀ index, next? line index ending = .ok none) (before : List Token) (index : Nat) :
    ∃ tokens, readAll line before index
        (lexemes.flatMap (fun item => item.1.chars ++ item.2.chars) ++ ending) =
          .ok (before.reverse ++ tokens) ∧
      tokens.map content = lexemes.map fun item => item.2.content := by
  induction lexemes generalizing before index with
  | nil => exact ⟨[], by simpa using readAll_of_next?_eq_none line (hending index), rfl⟩
  | cons item lexemes ih =>
      have hrest : ∀ item ∈ lexemes.tail, item.1.chars ≠ [] :=
        fun item hitem => hseparated item (List.mem_of_mem_tail hitem)
      have hfollows : Stops (lexemes.flatMap (fun item => item.1.chars ++ item.2.chars) ++ ending) := by
        cases lexemes with
        | nil => exact hstops
        | cons next lexemes =>
            obtain ⟨c, blanks, hblanks⟩ :=
              List.exists_cons_of_ne_nil (hseparated next List.mem_cons_self)
            rintro d hd
            rw [List.flatMap_cons, hblanks] at hd
            cases hd
            exact next.1.blank c (by rw [hblanks]; exact List.mem_cons_self)
      obtain ⟨start, hstart⟩ := next?_append_blanks line item.1.blank index
        (item.2.chars ++ (lexemes.flatMap (fun item => item.1.chars ++ item.2.chars) ++ ending))
      obtain ⟨token, stop, hnext, hcontent⟩ := exists_next?_lexeme line item.2 hfollows start
      obtain ⟨tokens, hread, hcontents⟩ := ih hrest (token :: before) stop
      refine ⟨token :: tokens, ?_, by rw [List.map_cons, List.map_cons, hcontent, hcontents]⟩
      rw [List.flatMap_cons, List.append_assoc, List.append_assoc,
        readAll_of_next? line (hstart.trans hnext), hread]
      simp

end Token

namespace PrintedLine

theorem stops_ending (printed : PrintedLine) : Token.Stops printed.ending := by
  unfold ending
  cases htrail : printed.trail.chars with
  | nil =>
      cases hcomment : printed.comment with
      | none => exact fun c hc => by cases hc
      | some text => exact absurd htrail (printed.apart (by rw [hcomment]; rfl))
  | cons c blanks =>
      rintro d ⟨⟩
      exact printed.trail.blank c (by rw [htrail]; exact List.mem_cons_self)

theorem next?_ending (printed : PrintedLine) (line : LineStart) (index : Nat) :
    Token.next? line index printed.ending = .ok none := by
  obtain ⟨start, hstart⟩ := Token.next?_append_blanks line printed.trail.blank index
    ((printed.comment.map fun text => '/' :: '/' :: text).getD [])
  rw [ending, hstart]
  cases printed.comment with
  | none => rfl
  | some text => rfl

end PrintedLine

/-- **The tokens of a line are those that were printed.** Whatever is printed, with blanks of any kind
between and around the tokens and with any comment after them, the line has these tokens, with their
texts and quoted or not, and no others. -/
theorem ofLine_printed (line : LineStart) (printed : PrintedLine) :
    ∃ tokens, Token.ofLine line printed.chars = .ok tokens ∧
      tokens.map Token.content = printed.contents :=
  Token.exists_readAll line printed.lexemes printed.separated printed.stops_ending
    (printed.next?_ending line) [] 0

-- In quotes, two slashes start no comment; after the tokens, a quote starts no text.
example : PrintedLine.chars
    { lexemes := [(⟨[], List.forall_mem_nil _⟩, .word "ldc" (by decide)),
        (⟨[' '], List.forall_mem_singleton.mpr rfl⟩, .quoted "a // \"b\"\n")]
      trail := ⟨[' '], List.forall_mem_singleton.mpr rfl⟩
      comment := some [' ', '"']
      separated := by decide
      apart := by decide } = "ldc \"a // \\\"b\\\"\\n\" // \"".toList := by
  decide

end JvmAssembler
