import JvmAssembler.Proofs.Instruction.Mnemonic
import JvmAssembler.Proofs.Listing.Printing
import JvmAssembler.Proofs.Listing.Reading

/-! A line with a mnemonic and a quoted text is an instruction whose operand is the text. What the
text holds does not matter, with one exception: a text that is an arrow is taken for the arrow in
front of a declaration, and the line is refused. -/

namespace JvmAssembler

/-- The last byte of a character is the character itself, or it is no byte of an ASCII character. -/
theorem exists_mem_utf8EncodeChar (c : Char) :
    ∃ b ∈ String.utf8EncodeChar c, b.toNat = c.toNat ∨ 128 ≤ b.toNat := by
  have hlast : ∀ n : Nat, 128 ≤ (UInt8.ofNat (n % 64 + 128)).toNat := by
    intro n
    rw [UInt8.toNat_ofNat']
    omega
  unfold String.utf8EncodeChar
  dsimp only
  split
  · rename_i hle
    refine ⟨_, List.mem_singleton_self _, .inl ?_⟩
    rw [UInt8.toNat_ofNat']
    exact Nat.mod_eq_of_lt (by omega)
  · split
    · exact ⟨_, by simp, .inr (hlast c.val.toNat)⟩
    · split
      · exact ⟨_, by simp, .inr (hlast c.val.toNat)⟩
      · exact ⟨_, by simp, .inr (hlast c.val.toNat)⟩

theorem mem_toByteArray {s : String} {c : Char} {b : UInt8} (hc : c ∈ s.toList)
    (hb : b ∈ String.utf8EncodeChar c) : b ∈ s.toByteArray.data.toList := by
  rw [← String.utf8Encode_toList, List.utf8Encode, List.toList_data_toByteArray]
  exact List.mem_flatMap.mpr ⟨c, hc, hb⟩

/-- A character from the plus sign to the last small letter, and not a slash. -/
def IsPlain (c : Char) : Prop := 43 ≤ c.toNat ∧ c.toNat ≤ 122 ∧ c ≠ '/'

theorem isWord_of_isPlain {chars : List Char} (hne : chars ≠ []) (h : ∀ c ∈ chars, IsPlain c) :
    IsWord chars := by
  refine ⟨hne, fun c hc => ⟨?_, ?_⟩, fun hslashes => ?_⟩
  · obtain ⟨hlow, hhigh, -⟩ := h c hc
    simp only [Text.isBlank, Bool.or_eq_false_iff, Bool.and_eq_false_iff, decide_eq_false_iff_not,
      beq_eq_false_iff_ne]
    omega
  · rintro rfl
    exact absurd (h _ hc).1 (by decide)
  · have hslash : '/' ∈ chars := hslashes.subset List.mem_cons_self
    exact (h _ hslash).2.2 rfl

namespace Template

variable {m : String}

-- Bytes are tried here and not characters, since a text has its bytes at hand.
theorem bytes_of_mem_mnemonics (f : Family) :
    ∀ m ∈ f.mnemonics, m.toByteArray.data.toList.all fun b => 48 ≤ b.toNat && b.toNat ≤ 122 := by
  cases f <;> decide +kernel

theorem isPlain_of_mem_mnemonics {f : Family} (h : m ∈ f.mnemonics) : ∀ c ∈ m.toList, IsPlain c := by
  intro c hc
  obtain ⟨b, hb, hcode⟩ := exists_mem_utf8EncodeChar c
  have hbyte := List.all_eq_true.mp (bytes_of_mem_mnemonics f m h) b (mem_toByteArray hc hb)
  simp only [Bool.and_eq_true, decide_eq_true_eq] at hbyte
  have hcode : b.toNat = c.toNat := hcode.resolve_right (by omega)
  refine ⟨by omega, by omega, ?_⟩
  rintro rfl
  exact absurd (hcode ▸ hbyte.1) (by decide)

theorem isPlain_of_isSome (h : (ofMnemonic? m).isSome) : ∀ c ∈ m.toList, IsPlain c := by
  rcases isSome_ofMnemonic?_iff.mp h with hsupported | hpadded
  · obtain ⟨f, hf⟩ := supported_iff.mp hsupported
    exact isPlain_of_mem_mnemonics hf
  · obtain ⟨letter, padding, digit, -, ⟨zeros, hpadding⟩, rfl, hmem⟩ := hpadded
    have hplain := isPlain_of_mem_mnemonics hmem
    have hpad : ∀ c ∈ padding, IsPlain c := by
      have hzero : IsPlain '0' := ⟨by decide, by decide, by decide⟩
      have hplus : IsPlain '+' := ⟨by decide, by decide, by decide⟩
      rcases hpadding with rfl | rfl <;> simp_all [List.mem_replicate]
    intro c hc
    simp only [spellConstant, spell, String.toList_ofList, List.mem_cons, List.mem_append] at hplain hc
    grind

/-- A known mnemonic can be written without quotes. -/
theorem isWord_of_isSome (h : (ofMnemonic? m).isSome) : IsWord m.toList := by
  refine isWord_of_isPlain ?_ (isPlain_of_isSome h)
  intro hnil
  obtain rfl : m = "" := String.toList_inj.mp hnil
  exact absurd h (by decide +kernel)

end Template

section

variable {m s : String} {position position' : Position}

/-- The search for an arrow looks at texts only. -/
theorem WrittenInstruction.ofMnemonic_quoted :
    WrittenInstruction.ofMnemonic false ⟨m, false, position⟩ [⟨s, true, position'⟩] =
      if s = "->" then .error ⟨position, .declarationForm⟩
      else .ok ⟨m, #[.text s], false, none, position⟩ := by
  by_cases harrow : s = "->"
  · rw [if_pos harrow]
    simp [ofMnemonic, List.span, List.span.loop, harrow, readDeclaration, bind, Except.bind]
  · have hspan : (s != "->") = true := by simpa using harrow
    rw [if_neg harrow]
    simp [ofMnemonic, List.span, List.span.loop, hspan, readDeclaration, bind, Except.bind, pure,
      Except.pure, Operand.ofToken]

/-- The first of two tokens is no label, and a mnemonic unless it is `wide`. -/
theorem Statement.ofTokens_quoted (hwide : m ≠ "wide") :
    Statement.ofTokens ⟨m, false, position⟩ [⟨s, true, position'⟩] =
      if s = "->" then .error ⟨position, .declarationForm⟩
      else .ok (.instruction ⟨m, #[.text s], false, none, position⟩) := by
  have hinsn : WrittenInstruction.ofTokens ⟨m, false, position⟩ [⟨s, true, position'⟩] =
      WrittenInstruction.ofMnemonic false ⟨m, false, position⟩ [⟨s, true, position'⟩] := by
    simp [WrittenInstruction.ofTokens, hwide]
  have hlabel : labelName? ⟨m, false, position⟩ [⟨s, true, position'⟩] = none := rfl
  simp only [Statement.ofTokens, hlabel, hinsn, WrittenInstruction.ofMnemonic_quoted]
  split <;> rfl

end

theorem Token.eq_of_content {token : Token} {text : String} {quoted : Bool}
    (h : token.content = (text, quoted)) : token = ⟨text, quoted, token.position⟩ := by
  cases token
  cases h
  rfl

namespace PrintedLine

/-- A mnemonic, a blank, and a text in quotes. -/
def ofQuoted (m : String) (isWord : IsWord m.toList) (s : String) : PrintedLine where
  lexemes := [(⟨[], List.forall_mem_nil _⟩, .word m isWord),
    (⟨[' '], List.forall_mem_singleton.mpr rfl⟩, .quoted s)]
  trail := ⟨[], List.forall_mem_nil _⟩
  comment := none
  separated := by simp
  apart := by simp

theorem chars_ofQuoted {m : String} (isWord : IsWord m.toList) (s : String) :
    (ofQuoted m isWord s).chars = m.toList ++ ' ' :: '"' :: s.toList.flatMap escape ++ ['"'] := by
  simp [ofQuoted, chars, ending, Lexeme.chars]

end PrintedLine

namespace Reader

variable {r : Reader} {method : WrittenMethod} {reversed : List Statement} {m : String}

/-- Inside a method, two tokens that start with a mnemonic are a statement. -/
theorem readTokens_quoted (hcurrent : r.current = some (method, reversed))
    (hm : (Template.ofMnemonic? m).isSome) (s : String) (position position' : Position) :
    r.readTokens [⟨m, false, position⟩, ⟨s, true, position'⟩] =
      if s = "->" then .error ⟨position, .declarationForm⟩
      else .ok { r with
        current := some (method, .instruction ⟨m, #[.text s], false, none, position⟩ :: reversed) } := by
  have hne : ∀ word ∈ [".class", ".method", ".end", "wide"], m ≠ word := by
    rintro word hword rfl
    have hnone : ∀ word ∈ [".class", ".method", ".end", "wide"], Template.ofMnemonic? word = none := by
      decide +kernel
    rw [hnone m hword] at hm
    cases hm
  rw [readTokens]
  split
  · rename_i h
    exact absurd h (hne ".class" (by decide))
  · rename_i h
    exact absurd h (hne ".method" (by decide))
  · rename_i h
    exact absurd h (hne ".end" (by decide))
  · simp only [readStatement, hcurrent, Statement.ofTokens_quoted (hne "wide" (by decide))]
    split <;> rfl

theorem readLine_of_contents (hcurrent : r.current = some (method, reversed))
    (hm : (Template.ofMnemonic? m).isSome) {s : String} {line : PrintedLine}
    (hline : line.contents = [(m, false), (s, true)]) :
    ∃ position, r.readLine line.chars =
      if s = "->" then .error ⟨position, .declarationForm⟩
      else .ok { r with
        line := Listing.after r.line line.chars
        current := some (method, .instruction ⟨m, #[.text s], false, none, position⟩ :: reversed) } := by
  obtain ⟨tokens, htokens, hcontents⟩ := Token.exists_readAll r.line line.lexemes line.separated
    line.stops_ending (line.next?_ending r.line) [] 0
  replace hcontents : tokens.map Token.content = [(m, false), (s, true)] := hcontents.trans hline
  obtain ⟨first, rest, rfl, hfirst, hrest⟩ := List.map_eq_cons_iff.mp hcontents
  obtain ⟨operand, rest, rfl, hoperand, hrest⟩ := List.map_eq_cons_iff.mp hrest
  obtain rfl := List.map_eq_nil_iff.mp hrest
  have hread : Token.ofLine r.line line.chars =
      .ok [⟨m, false, first.position⟩, ⟨s, true, operand.position⟩] := by
    rw [← Token.eq_of_content hfirst, ← Token.eq_of_content hoperand]
    exact htokens
  refine ⟨first.position, ?_⟩
  by_cases harrow : s = "->"
  · simp only [readLine, hread, readTokens_quoted hcurrent hm, bind, Except.bind, if_pos harrow]
  · simp only [readLine, hread, readTokens_quoted hcurrent hm, bind, Except.bind, if_neg harrow]
    rfl

/-- **A quoted text is an operand, whatever it holds, unless it is an arrow.** Inside a method, a line
with a known mnemonic and a text in quotes, with blanks of any kind and with any comment, is an
instruction with that mnemonic and that text as its only operand. Only the text `->` is refused. Such a
line can be written for every mnemonic and every text. -/
theorem readLine_quoted (hcurrent : r.current = some (method, reversed))
    (hm : (Template.ofMnemonic? m).isSome) (s : String) :
    (∃ line : PrintedLine, line.contents = [(m, false), (s, true)] ∧
      line.chars = m.toList ++ ' ' :: '"' :: s.toList.flatMap escape ++ ['"']) ∧
    ∀ line : PrintedLine, line.contents = [(m, false), (s, true)] →
      ∃ position, r.readLine line.chars =
        if s = "->" then .error ⟨position, .declarationForm⟩
        else .ok { r with
          line := Listing.after r.line line.chars
          current :=
            some (method, .instruction ⟨m, #[.text s], false, none, position⟩ :: reversed) } := by
  have isWord := Template.isWord_of_isSome hm
  refine ⟨⟨.ofQuoted m isWord s, rfl, PrintedLine.chars_ofQuoted isWord s⟩, ?_⟩
  intro line hline
  exact readLine_of_contents hcurrent hm hline

/-- A text may look like a directive, a comment, a label and a declaration. -/
theorem readLine_quoted_syntax :
    ∃ (line : PrintedLine) (position : Position),
      line.chars = "ldc \".end // wide x: -> y\"".toList ∧
      readLine { current := some (⟨.javaString, .empty, "f", "()V", {}, []⟩, []) } line.chars =
        .ok {
          line := Listing.after ⟨1, 0⟩ line.chars
          current := some (⟨.javaString, .empty, "f", "()V", {}, []⟩,
            [.instruction ⟨"ldc", #[.text ".end // wide x: -> y"], false, none, position⟩]) } := by
  obtain ⟨⟨line, hcontents, hchars⟩, hread⟩ := readLine_quoted (m := "ldc")
    (r := { current := some (⟨.javaString, .empty, "f", "()V", {}, []⟩, []) }) rfl (by decide +kernel)
    ".end // wide x: -> y"
  obtain ⟨position, hposition⟩ := hread line hcontents
  exact ⟨line, position, hchars.trans (by decide +kernel), hposition⟩

end Reader

/-- A text that is an arrow is refused. -/
theorem readListing_quoted_arrow :
    readListing ".class A\n.method static f()V\nldc \"->\"\n.end\n" =
      .error ⟨⟨3, 1, 29⟩, .declarationForm⟩ := by
  have hlength : (readListing ".class A\n.method static f()V\nldc \"->\"\n.end\n").map List.length =
      .error ⟨⟨3, 1, 29⟩, .declarationForm⟩ := by
    decide +kernel
  cases hread : readListing ".class A\n.method static f()V\nldc \"->\"\n.end\n" with
  | ok methods =>
      rw [hread] at hlength
      cases hlength
  | error e =>
      rw [hread] at hlength
      cases hlength
      rfl

end JvmAssembler
