import JvmAssembler.Listing.Error
import JvmAssembler.Text.Blank

/-! A line is a row of words and quoted texts. Two slashes outside a quoted text start a comment,
which runs to the end of the line. -/

namespace JvmAssembler

structure Token where
  text : String
  quoted : Bool
  position : Position
deriving DecidableEq, Repr

/-- The place of a line in a listing. -/
structure LineStart where
  number : Nat
  /-- Bytes before the line. -/
  offset : Nat

/-- The position after some bytes of a line. -/
def LineStart.position (line : LineStart) (index : Nat) : Position :=
  ⟨line.number, index + 1, line.offset + index⟩

namespace Token

/-- Number of bytes that characters take. -/
def byteLength (chars : List Char) : Nat := chars.foldl (fun n c => n + c.utf8Size) 0

/-- The character that stands after a backslash for another. -/
def unescape? : Char → Option Char
  | 'n' => some '\n'
  | 't' => some '\t'
  | 'r' => some '\r'
  | '0' => some '\x00'
  | '\\' => some '\\'
  | '"' => some '"'
  | _ => none

/-- Reads a quoted text from the character at an index on. Returns the text, what follows the closing
quote, and its index. The characters read before come last first. -/
def readQuoted (line : LineStart) (start : Nat) (taken : List Char) (index : Nat) :
    List Char → Except ListingError (String × Nat × List Char)
  | [] => .error ⟨line.position start, .unterminatedString⟩
  | '"' :: rest => .ok (String.ofList taken.reverse, index + 1, rest)
  | '\\' :: c :: rest =>
    match unescape? c with
    | some escaped => readQuoted line start (escaped :: taken) (index + 2) rest
    | none => .error ⟨line.position index, .unknownEscape⟩
  | ['\\'] => .error ⟨line.position index, .unknownEscape⟩
  | c :: rest => readQuoted line start (c :: taken) (index + c.utf8Size) rest

/-- Does a word end in front of these characters? -/
def endsWord : List Char → Bool
  | [] => true
  | '/' :: '/' :: _ => true
  | c :: _ => Text.isBlank c || c == '"'

/-- The word that goes on with these characters, last character first, and what follows it. -/
def readWord (taken : List Char) : List Char → List Char × List Char
  | [] => (taken, [])
  | c :: rest => if endsWord (c :: rest) then (taken, c :: rest) else readWord (c :: taken) rest

/-- The first token, what follows it, and the index of that. -/
def next? (line : LineStart) (index : Nat) :
    List Char → Except ListingError (Option (Token × Nat × List Char))
  | [] => .ok none
  | '/' :: '/' :: _ => .ok none
  | '"' :: rest => do
    let (text, stop, rest) ← readQuoted line index [] (index + 1) rest
    return some (⟨text, true, line.position index⟩, stop, rest)
  | c :: rest =>
    if Text.isBlank c then next? line (index + c.utf8Size) rest
    else
      let (reversed, rest) := readWord [c] rest
      let word := reversed.reverse
      .ok (some (⟨String.ofList word, false, line.position index⟩, index + byteLength word, rest))

theorem length_le_of_readQuoted {line : LineStart} {start index stop : Nat}
    {taken chars rest : List Char} {text : String}
    (h : readQuoted line start taken index chars = .ok (text, stop, rest)) :
    rest.length ≤ chars.length := by
  fun_induction readQuoted line start taken index chars with
  | case1 => cases h
  | case2 =>
      cases h
      simp
  | case3 _ _ _ _ _ _ ih =>
      have hle := ih h
      simp only [List.length_cons]
      omega
  | case4 => cases h
  | case5 => cases h
  | case6 _ _ _ _ _ _ _ ih =>
      have hle := ih h
      simp only [List.length_cons]
      omega

theorem length_readWord_le (taken chars : List Char) :
    (readWord taken chars).2.length ≤ chars.length := by
  fun_induction readWord taken chars with
  | case1 => simp
  | case2 => simp
  | case3 _ _ _ _ ih =>
      simp only [List.length_cons]
      omega

/-- There is less left after a token. -/
theorem length_lt_of_next? {line : LineStart} {index stop : Nat} {chars rest : List Char}
    {token : Token} (h : next? line index chars = .ok (some (token, stop, rest))) :
    rest.length < chars.length := by
  fun_induction next? line index chars with
  | case1 => simp at h
  | case2 => simp at h
  | case3 index tail =>
      cases hq : readQuoted line index [] (index + 1) tail with
      | error e => simp [hq, bind, Except.bind] at h
      | ok result =>
          obtain ⟨text, stop', rest'⟩ := result
          simp only [hq, bind, Except.bind, pure, Except.pure, Except.ok.injEq, Option.some.injEq,
            Prod.mk.injEq] at h
          have hle := length_le_of_readQuoted hq
          rw [h.2.2] at hle
          simp only [List.length_cons]
          omega
  | case4 _ _ _ _ _ _ ih =>
      have hlt := ih h
      simp only [List.length_cons]
      omega
  | case5 _ c tail _ _ _ reversed rest' hword =>
      cases h
      have hle := length_readWord_le [c] tail
      simp only [hword] at hle
      simp only [List.length_cons]
      omega

/-- The tokens from an index on, after those read before, which come last first. -/
def readAll (line : LineStart) (before : List Token) (index : Nat) (chars : List Char) :
    Except ListingError (List Token) :=
  match _h : next? line index chars with
  | .error e => .error e
  | .ok none => .ok before.reverse
  | .ok (some (token, stop, rest)) => readAll line (token :: before) stop rest
termination_by chars.length
decreasing_by exact length_lt_of_next? _h

/-- The tokens of a line. -/
def ofLine (line : LineStart) (chars : List Char) : Except ListingError (List Token) :=
  readAll line [] 0 chars

end Token

end JvmAssembler
