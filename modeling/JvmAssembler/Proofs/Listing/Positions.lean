import JvmAssembler.Proofs.Listing.Printing
import JvmAssembler.Proofs.Listing.Reading
import JvmAssembler.Proofs.Text.Lines

/-! Each method, label and instruction of a listing has the position of a token. The line and the
column are those of the place where the token is written. The offset is too, as long as no line
above ends with a carriage return: it counts one byte for each line end. -/

namespace JvmAssembler

namespace Token

theorem byteLength_eq (chars : List Char) : byteLength chars = Text.bytes chars := by
  have hfold : ∀ (chars : List Char) (n : Nat),
      chars.foldl (fun n c => n + c.utf8Size) n = n + Text.bytes chars := by
    intro chars
    induction chars with
    | nil => intro n; rfl
    | cons c chars ih =>
        intro n
        rw [List.foldl_cons, ih, Text.bytes_cons, Nat.add_assoc]
  rw [byteLength, hfold, Nat.zero_add]

/-- Characters between quotes, and the text that they stand for. -/
inductive Unescapes : List Char → List Char → Prop
  | nil : Unescapes [] []
  | escaped {c d : Char} {source text : List Char} :
      unescape? c = some d → Unescapes source text → Unescapes ('\\' :: c :: source) (d :: text)
  | plain {c : Char} {source text : List Char} :
      c ≠ '\\' → c ≠ '"' → Unescapes source text → Unescapes (c :: source) (c :: text)

/-- A token as it is written in front of other characters. A word goes on up to the first place where
a word ends. -/
inductive Written : String × Bool → List Char → List Char → Prop
  | word {source after : List Char} : source ≠ [] →
      (∀ tail, tail <:+ source → (endsWord (tail ++ after) = true ↔ tail = [])) →
      Written (String.ofList source, false) source after
  | quoted {source text after : List Char} : Unescapes source text →
      Written (String.ofList text, true) ('"' :: source ++ ['"']) after

variable {line : LineStart} {index stop : Nat} {taken chars rest : List Char}

theorem utf8Size_of_unescape? {c d : Char} (h : unescape? c = some d) : c.utf8Size = 1 := by
  unfold unescape? at h
  split at h <;> first | rfl | cases h

theorem of_readQuoted {start : Nat} {text : String}
    (h : readQuoted line start taken index chars = .ok (text, stop, rest)) :
    ∃ source unescaped, Unescapes source unescaped ∧ chars = source ++ '"' :: rest ∧
      text = String.ofList (taken.reverse ++ unescaped) ∧
      stop = index + Text.bytes source + 1 := by
  fun_induction readQuoted line start taken index chars with
  | case1 => cases h
  | case2 =>
      cases h
      exact ⟨[], [], .nil, rfl, by simp, rfl⟩
  | case3 taken index c rest d hd ih =>
      obtain ⟨source, unescaped, hsource, rfl, rfl, rfl⟩ := ih h
      refine ⟨'\\' :: c :: source, d :: unescaped, .escaped hd hsource, rfl, by simp, ?_⟩
      rw [Text.bytes_cons, Text.bytes_cons, utf8Size_of_unescape? hd]
      show _ = index + (1 + (1 + _)) + 1
      omega
  | case4 => cases h
  | case5 => cases h
  | case6 taken index c rest hquote hescape hslash ih =>
      obtain ⟨source, unescaped, hsource, rfl, rfl, rfl⟩ := ih h
      refine ⟨c :: source, c :: unescaped, .plain ?_ hquote hsource, rfl, by simp, ?_⟩
      · rintro rfl
        cases source with
        | nil => exact hescape _ _ rfl rfl
        | cons d source => exact hescape _ _ rfl rfl
      · rw [Text.bytes_cons]
        omega

theorem of_readWord (taken chars : List Char) :
    ∃ more, (readWord taken chars).1 = more.reverse ++ taken ∧
      chars = more ++ (readWord taken chars).2 ∧
      ∀ tail, tail <:+ more → (endsWord (tail ++ (readWord taken chars).2) = true ↔ tail = []) := by
  fun_induction readWord taken chars with
  | case1 =>
      refine ⟨[], rfl, rfl, fun tail htail => ?_⟩
      rw [List.suffix_nil.mp htail]
      exact iff_of_true rfl rfl
  | case2 taken c rest hends =>
      refine ⟨[], rfl, rfl, fun tail htail => ?_⟩
      rw [List.suffix_nil.mp htail]
      exact iff_of_true hends rfl
  | case3 taken c rest hgoes ih =>
      obtain ⟨more, hword, hrest, hmore⟩ := ih
      refine ⟨c :: more, by rw [hword]; simp, by rw [List.cons_append, ← hrest], ?_⟩
      intro tail htail
      rcases List.suffix_cons_iff.mp htail with rfl | htail
      · rw [List.cons_append, ← hrest]
        exact iff_of_false hgoes (List.cons_ne_nil c more)
      · exact hmore tail htail

theorem endsWord_cons (c : Char) (chars : List Char) :
    endsWord (c :: chars) =
      ((c == '/' && chars.head? == some '/') || (Text.isBlank c || c == '"')) := by
  unfold endsWord
  split
  · rename_i heq
    cases heq
  · rename_i heq
    cases heq
    rfl
  · rename_i c rest hcomment heq
    cases heq
    have hslashes : (c == '/' && chars.head? == some '/') = false := by
      rw [Bool.and_eq_false_iff]
      by_contra hboth
      simp only [beq_eq_false_iff_ne, not_or, not_not] at hboth
      obtain ⟨tail, htail⟩ := List.head?_eq_some_iff.mp hboth.2
      exact hcomment tail hboth.1 htail
    rw [hslashes, Bool.false_or]

/-- Blanks and the end of a line are the same to a word. -/
theorem endsWord_append (h : Stops rest) (chars : List Char) :
    endsWord (chars ++ rest) = endsWord chars := by
  cases chars with
  | nil => exact endsWord_of_stops h
  | cons c chars =>
      rw [List.cons_append, endsWord_cons, endsWord_cons]
      cases chars with
      | nil =>
          have hslash : (rest.head? == some '/') = false := by
            rw [beq_eq_false_iff_ne]
            intro hhead
            exact absurd (h '/' hhead) (by decide)
          rw [List.nil_append, hslash]
          rfl
      | cons d chars => rfl

theorem Written.source_eq {content : String × Bool} {source after : List Char}
    (h : Written content source after) (hword : content.2 = false) : source = content.1.toList := by
  cases h with
  | word => exact String.toList_ofList.symm
  | quoted => cases hword

theorem Written.append {content : String × Bool} {source after : List Char}
    (h : Written content source after) (hrest : Stops rest) :
    Written content source (after ++ rest) := by
  cases h with
  | word hne hends =>
      refine .word hne fun tail htail => ?_
      rw [← List.append_assoc, endsWord_append hrest]
      exact hends tail htail
  | quoted htext => exact .quoted htext

/-- The next token stands after blanks, and its position tells where. -/
theorem of_next? {token : Token} (h : next? line index chars = .ok (some (token, stop, rest))) :
    ∃ gap source, (∀ c ∈ gap, Text.isBlank c = true) ∧ chars = gap ++ (source ++ rest) ∧
      Written token.content source rest ∧ token.position = line.position (index + Text.bytes gap) ∧
      stop = index + Text.bytes gap + Text.bytes source := by
  fun_induction next? line index chars with
  | case1 => cases h
  | case2 => cases h
  | case3 index tail =>
      obtain ⟨⟨text, stop', rest'⟩, hquoted, h⟩ := exists_of_bind_eq_ok h
      cases h
      obtain ⟨source, unescaped, hsource, rfl, rfl, rfl⟩ := of_readQuoted hquoted
      refine ⟨[], '"' :: source ++ ['"'], List.forall_mem_nil _, by simp, .quoted hsource, rfl, ?_⟩
      rw [Text.bytes_append, Text.bytes_cons]
      show _ = index + 0 + (1 + Text.bytes source + 1)
      omega
  | case4 index c tail hcomment hquote hblank ih =>
      obtain ⟨gap, source, hgap, rfl, hwritten, hposition, rfl⟩ := ih h
      refine ⟨c :: gap, source, List.forall_mem_cons.mpr ⟨hblank, hgap⟩, rfl, hwritten, ?_, ?_⟩
      · rw [hposition, Text.bytes_cons, Nat.add_assoc]
      · rw [Text.bytes_cons]
        omega
  | case5 index c tail hcomment hquote hblank reversed rest' hword =>
      cases h
      obtain ⟨more, hreversed, htail, hmore⟩ := of_readWord [c] tail
      rw [hword] at hreversed htail hmore
      have hsource : reversed.reverse = c :: more := by
        rw [show reversed = more.reverse ++ [c] from hreversed]
        simp
      have hgoes : endsWord (c :: tail) = false := by
        unfold endsWord
        split <;> simp_all
      have hwritten : Written (String.ofList reversed.reverse, false) reversed.reverse rest := by
        rw [hsource]
        refine .word (List.cons_ne_nil c more) fun suffix hsuffix => ?_
        rcases List.suffix_cons_iff.mp hsuffix with rfl | hsuffix
        · refine iff_of_false ?_ (List.cons_ne_nil c more)
          rw [List.cons_append, ← htail, hgoes]
          exact Bool.false_ne_true
        · exact hmore suffix hsuffix
      refine ⟨[], reversed.reverse, List.forall_mem_nil _, ?_, hwritten, rfl, ?_⟩
      · rw [hsource, htail]
        rfl
      · rw [byteLength_eq]
        rfl

/-- The tokens of characters that start at an index of a line, and their positions. -/
inductive Cut (line : LineStart) : Nat → List Char → List Token → Prop
  | nil {index : Nat} {chars : List Char} : Cut line index chars []
  | cons {index : Nat} {gap source rest : List Char} {token : Token} {tokens : List Token} :
      (∀ c ∈ gap, Text.isBlank c = true) → Written token.content source rest →
      token.position = line.position (index + Text.bytes gap) →
      Cut line (index + Text.bytes gap + Text.bytes source) rest tokens →
      Cut line index (gap ++ (source ++ rest)) (token :: tokens)

theorem of_readAll {before tokens : List Token} (h : readAll line before index chars = .ok tokens) :
    ∃ found, tokens = before.reverse ++ found ∧ Cut line index chars found := by
  fun_induction readAll line before index chars with
  | case1 => cases h
  | case2 =>
      cases h
      exact ⟨[], by simp, .nil⟩
  | case3 before index chars token stop rest hnext ih =>
      obtain ⟨found, rfl, hcut⟩ := ih h
      obtain ⟨gap, source, hgap, rfl, hwritten, hposition, rfl⟩ := of_next? hnext
      exact ⟨token :: found, by simp, .cons hgap hwritten hposition hcut⟩

theorem cut_of_ofLine {tokens : List Token} (h : ofLine line chars = .ok tokens) :
    Cut line 0 chars tokens := by
  obtain ⟨found, rfl, hcut⟩ := of_readAll h
  exact hcut

end Token

/-! ### What has a position -/

/-- A token of a listing that a method, a label or an instruction has its position from. -/
structure Mark where
  /-- Does the word `wide` stand in front? -/
  wide : Bool
  text : String
  position : Position
deriving DecidableEq

/-- A label has the position of its name, and an instruction that of its mnemonic. -/
def Statement.mark : Statement → Mark
  | label name position => ⟨false, name ++ ":", position⟩
  | instruction insn => ⟨insn.wide, insn.mnemonic, insn.position⟩

/-- The marks of a method and of its statements, in order. -/
def WrittenMethod.marks (m : WrittenMethod) : List Mark :=
  ⟨false, ".method", m.position⟩ :: m.body.map Statement.mark

namespace Mark

/-- The token is written in front of some characters, and what stands before it on its line are
blanks, or the word `wide` and blanks. -/
inductive Follows : Mark → List Char → List Char → Prop
  | first {text : String} {quoted : Bool} {position : Position} {lead source rest : List Char} :
      (∀ c ∈ lead, Text.isBlank c = true) → Token.Written (text, quoted) source rest →
      Follows ⟨false, text, position⟩ lead (source ++ rest)
  | afterWide {text : String} {quoted : Bool} {position : Position}
      {gap gap' source rest : List Char} :
      (∀ c ∈ gap, Text.isBlank c = true) → (∀ c ∈ gap', Text.isBlank c = true) →
      Token.Written ("wide", false) "wide".toList (gap' ++ (source ++ rest)) →
      Token.Written (text, quoted) source rest →
      Follows ⟨true, text, position⟩ (gap ++ ("wide".toList ++ gap')) (source ++ rest)

/-- The token is written in a text after some characters. -/
def StandsAfter (mark : Mark) (text before : List Char) : Prop :=
  ∃ after, text = before ++ after ∧ mark.Follows (Text.lastLine before) after

theorem Follows.append {mark : Mark} {lead after rest : List Char} (h : mark.Follows lead after)
    (hrest : Token.Stops rest) : mark.Follows lead (after ++ rest) := by
  cases h with
  | first hlead hwritten =>
      rw [List.append_assoc]
      exact .first hlead (hwritten.append hrest)
  | afterWide hgap hgap' hwide hwritten =>
      have hwide' := hwide.append hrest
      rw [List.append_assoc, List.append_assoc] at hwide'
      rw [List.append_assoc]
      exact .afterWide hgap hgap' hwide' (hwritten.append hrest)

/-- The position is that of the place after some characters, but that its offset counts one byte for
each line end. -/
structure IsAfter (mark : Mark) (before : List Char) : Prop where
  line_eq : mark.position.line = (Text.place before).line
  column_eq : mark.position.column = (Text.place before).column
  offset_eq : mark.position.offset + Text.returns before = (Text.place before).offset

theorem IsAfter.position_eq_iff {mark : Mark} {before : List Char} (h : mark.IsAfter before) :
    mark.position = Text.place before ↔ Text.returns before = 0 := by
  obtain ⟨hline, hcolumn, hoffset⟩ := h
  constructor
  · intro heq
    rw [heq] at hoffset
    omega
  · intro hnone
    rw [hnone, Nat.add_zero] at hoffset
    cases hposition : mark.position
    simp_all [Text.place]

end Mark

/-- A mark that is told from the tokens of a line. -/
inductive Row.Marks : Row → Mark → Prop
  | first {first : Token} {rest : List Token} :
      Marks ⟨first, rest⟩ ⟨false, first.text, first.position⟩
  | afterWide {first mnemonic : Token} {rest : List Token} : first.content = ("wide", false) →
      Marks ⟨first, mnemonic :: rest⟩ ⟨true, mnemonic.text, mnemonic.position⟩

theorem Row.kind_eq_opening_iff (row : Row) : row.kind = .opening ↔ row.first.text = ".method" := by
  unfold Row.kind
  split
  · rename_i h
    simp [h]
  · split
    · rename_i h
      simp [h]
    · rename_i h
      split <;> simp [h]

theorem WrittenInstruction.of_ofMnemonic {wide : Bool} {mnemonic : Token} {rest : List Token}
    {insn : WrittenInstruction} (h : ofMnemonic wide mnemonic rest = .ok insn) :
    insn.wide = wide ∧ insn.mnemonic = mnemonic.text ∧ insn.position = mnemonic.position := by
  obtain ⟨declaration, -, h⟩ := exists_of_bind_eq_ok h
  cases h
  exact ⟨rfl, rfl, rfl⟩

theorem Row.IsStatement.marks {row : Row} {s : Statement} (h : row.IsStatement s) :
    row.Marks s.mark := by
  obtain ⟨first, tokens⟩ := row
  cases s with
  | label name position =>
      obtain ⟨-, -, htext, rfl⟩ := h
      rw [Statement.mark, ← htext]
      exact .first
  | instruction insn =>
      obtain ⟨-, h⟩ := h
      unfold WrittenInstruction.ofTokens at h
      split at h
      · rename_i hwide
        split at h
        · cases h
        · rename_i mnemonic rest hrest
          obtain ⟨hinsn, htext, hposition⟩ := WrittenInstruction.of_ofMnemonic h
          obtain rfl : tokens = mnemonic :: rest := hrest
          rw [Statement.mark, hinsn, htext, hposition]
          exact .afterWide (by simpa [Token.content] using hwide)
      · obtain ⟨hinsn, htext, hposition⟩ := WrittenInstruction.of_ofMnemonic h
        rw [Statement.mark, hinsn, htext, hposition]
        exact .first

/-- What a mark is told from stands where its position says. -/
theorem Row.Marks.exists_follows {row : Row} {mark : Mark} {line : LineStart} {chars : List Char}
    (h : row.Marks mark) (hcut : Token.Cut line 0 chars (row.first :: row.rest)) :
    ∃ lead after, chars = lead ++ after ∧ mark.position = line.position (Text.bytes lead) ∧
      mark.Follows lead after := by
  cases h with
  | @first first rest =>
      cases hcut with
      | @cons _ gap source rest _ _ hgap hwritten hposition =>
          refine ⟨gap, source ++ rest, rfl, ?_, .first hgap hwritten⟩
          rw [← Nat.zero_add (Text.bytes gap)]
          exact hposition
  | @afterWide first mnemonic rest hfirst =>
      cases hcut with
      | @cons _ gap source rest _ _ hgap hwide _ hcut =>
          cases hcut with
          | @cons _ gap' source' rest' _ _ hgap' hwritten hposition =>
              rw [hfirst] at hwide
              have hsource : source = "wide".toList := hwide.source_eq rfl
              subst hsource
              refine ⟨gap ++ ("wide".toList ++ gap'), source' ++ rest', by simp, ?_,
                .afterWide hgap hgap' hwide hwritten⟩
              rw [Text.bytes_append, Text.bytes_append, ← Nat.zero_add (Text.bytes gap), ← Nat.add_assoc]
              exact hposition

/-- A place is that of the line after some characters, but that it counts one byte for each line end. -/
structure LineStart.IsAfter (line : LineStart) (above : List Char) : Prop where
  starts : Text.StartsLine above
  number_eq : line.number = above.count '\n' + 1
  offset_eq : line.offset + Text.returns above = Text.bytes above

/-- A line ends in blanks. -/
theorem Text.LineEnd.stops (ending : Text.LineEnd) (rest : List Char) :
    Token.Stops (ending.chars ++ rest) := by
  cases ending <;>
    · rintro c ⟨⟩
      decide

namespace LineStart.IsAfter

variable {line : LineStart} {above chars lead : List Char}

theorem next (h : line.IsAfter above) {ending : Text.LineEnd} (hchars : '\n' ∉ chars)
    (hends : ending.Ends chars) :
    (Listing.after line chars).IsAfter (above ++ (chars ++ ending.chars)) where
  starts := .append above chars ending
  number_eq := by
    rw [List.count_append, Text.count_append_ending ending hchars, Listing.after, h.number_eq]
  offset_eq := by
    have hending : Text.bytes ending.chars = 1 + ending.returns := by
      cases ending <;> rfl
    have hoffset := h.offset_eq
    rw [Text.returns_append h.starts, Text.returns_append_ending ending hchars hends,
      Text.bytes_append, Text.bytes_append, hending, Listing.after, Token.byteLength_eq]
    dsimp only
    omega

theorem mark (h : line.IsAfter above) (hlead : '\n' ∉ lead) {mark : Mark}
    (hposition : mark.position = line.position (Text.bytes lead)) : mark.IsAfter (above ++ lead) where
  line_eq := by
    rw [hposition, Text.place, List.count_append, List.count_eq_zero.mpr hlead]
    exact h.number_eq
  column_eq := by
    rw [hposition, Text.place, Text.lastLine_append h.starts hlead]
    rfl
  offset_eq := by
    have hoffset := h.offset_eq
    rw [hposition, Text.place, Text.returns_append h.starts, Text.returns_eq_zero hlead,
      Text.bytes_append]
    simp only [LineStart.position]
    omega

end LineStart.IsAfter

namespace Reader

variable {r r' : Reader} {row : Row} {chars above rest : List Char}

/-- The marks of what was read so far. -/
def marks (r : Reader) : List Mark :=
  r.closed.reverse.flatMap WrittenMethod.marks ++
    r.current.elim [] fun current => WrittenMethod.marks { current.1 with body := current.2.reverse }

/-- A line adds one mark at most. -/
theorem marks_of_readRow (h : r.readRow row = .ok r') :
    r'.marks = r.marks ∨ ∃ mark, row.Marks mark ∧ r'.marks = r.marks ++ [mark] := by
  rw [readRow_eq] at h
  cases hkind : row.kind with
  | owner =>
      rw [hkind] at h
      obtain ⟨owner, -, rfl⟩ := readClass_eq_ok_iff.mp h
      exact .inl rfl
  | opening =>
      rw [hkind] at h
      obtain ⟨m, hcurrent, -, hheader, hbody, rfl⟩ := readMethod_eq_ok_iff.mp h
      have htext : row.first.text = ".method" := row.kind_eq_opening_iff.mp hkind
      refine .inr ⟨⟨false, ".method", m.position⟩, ?_, ?_⟩
      · rw [← htext, hheader.position]
        exact .first
      · simp [marks, hcurrent, WrittenMethod.marks]
  | closing =>
      rw [hkind] at h
      obtain ⟨m, reversed, hcurrent, rfl⟩ := readEnd_eq_ok_iff.mp h
      exact .inl (by simp [marks, hcurrent])
  | statement =>
      rw [hkind] at h
      obtain ⟨m, reversed, s, hcurrent, hs, rfl⟩ := readStatement_eq_ok_iff.mp h
      exact .inr ⟨s.mark, hs.marks, by simp [marks, hcurrent, WrittenMethod.marks]⟩

/-- **One line.** A mark that is added stands on the line. -/
theorem marks_of_readLine (h : r.readLine chars = .ok r') (hline : r.line.IsAfter above)
    (hchars : '\n' ∉ chars) (rest : List Char) (hrest : Token.Stops rest) :
    r'.line = Listing.after r.line chars ∧
    ∃ marks befores, r'.marks = r.marks ++ marks ∧
      List.Forall₂ (fun mark before => mark.StandsAfter (above ++ (chars ++ rest)) before ∧
        mark.IsAfter before) marks befores ∧
      (∀ before ∈ befores, before.count '\n' = above.count '\n') ∧
      befores.Pairwise fun a b => a.count '\n' < b.count '\n' := by
  obtain ⟨tokens, found, htokens, hfound, rfl⟩ := readLine_eq_ok_iff.mp h
  cases tokens with
  | nil =>
      cases hfound
      exact ⟨rfl, [], [], by simp [marks], .nil, by simp, .nil⟩
  | cons first tokens =>
      have hrow : r.readRow ⟨first, tokens⟩ = .ok found := hfound
      refine ⟨by rw [line_of_readRow hrow], ?_⟩
      rcases marks_of_readRow hrow with hsame | ⟨mark, hmark, hmarks⟩
      · exact ⟨[], [], by simpa [marks] using hsame, .nil, by simp, .nil⟩
      · obtain ⟨lead, after, rfl, hposition, hfollows⟩ :=
          hmark.exists_follows (Token.cut_of_ofLine htokens)
        have hlead : '\n' ∉ lead := fun hmem => hchars (List.mem_append_left _ hmem)
        refine ⟨[mark], [above ++ lead], hmarks, .cons ⟨⟨after ++ rest, by simp, ?_⟩,
          hline.mark hlead hposition⟩ .nil, ?_, List.pairwise_singleton _ _⟩
        · rw [Text.lastLine_append hline.starts hlead]
          exact hfollows.append hrest
        · simp [List.count_eq_zero.mpr hlead]

/-- **All lines.** The marks that are added stand on lines of their own, from the top down. -/
theorem marks_of_readLines {lines : List (List Char)} (hlined : Text.Lined rest lines)
    (h : lines.foldlM readLine r = .ok r') (hline : r.line.IsAfter above) :
    ∃ marks befores, r'.marks = r.marks ++ marks ∧
      List.Forall₂ (fun mark before => mark.StandsAfter (above ++ rest) before ∧
        mark.IsAfter before) marks befores ∧
      (∀ before ∈ befores, above.count '\n' ≤ before.count '\n') ∧
      befores.Pairwise fun a b => a.count '\n' < b.count '\n' := by
  induction hlined generalizing above r with
  | nil =>
      cases h
      exact ⟨[], [], by simp, .nil, by simp, .nil⟩
  | @last chars hne hchars =>
      obtain ⟨found, hread, h⟩ := exists_of_bind_eq_ok h
      cases h
      obtain ⟨-, marks, befores, hmarks, hstand, hcount, hsorted⟩ :=
        marks_of_readLine hread hline hchars [] (by simp [Token.Stops])
      rw [List.append_nil] at hstand
      exact ⟨marks, befores, hmarks, hstand, fun before hbefore => (hcount before hbefore).ge, hsorted⟩
  | @cons chars rest lines ending hchars hends hlined ih =>
      obtain ⟨found, hread, h⟩ := exists_of_bind_eq_ok h
      obtain ⟨hnext, marks, befores, hmarks, hstand, hcount, hsorted⟩ :=
        marks_of_readLine hread hline hchars (ending.chars ++ rest) (ending.stops rest)
      have hafter := hline.next hchars hends
      rw [← hnext] at hafter
      obtain ⟨more, later, hmore, hlater, hbelow, hsorted'⟩ := ih h hafter
      simp only [List.append_assoc] at hstand hlater ⊢
      have hlines : ∀ before ∈ later, above.count '\n' < before.count '\n' := by
        intro before hbefore
        have hle := hbelow before hbefore
        rw [List.count_append, Text.count_append_ending ending hchars] at hle
        exact hle
      refine ⟨marks ++ more, befores ++ later, ?_, List.rel_append hstand hlater, ?_, ?_⟩
      · rw [hmore, hmarks, List.append_assoc]
      · intro before hbefore
        rcases List.mem_append.mp hbefore with hbefore | hbefore
        · exact (hcount before hbefore).ge
        · exact (hlines before hbefore).le
      · refine List.pairwise_append.mpr ⟨hsorted, hsorted', fun a ha b hb => ?_⟩
        rw [hcount a ha]
        exact hlines b hb

end Reader

/-- **Positions.** Each method, label and instruction of a listing has the position of the token
`.method`, of the label, or of the mnemonic. Taken in order, these tokens stand on lines of their own.
The line and the column are exact. The offset is short by one byte for each line end above that has a
carriage return, so that the position is exact if and only if there is none. -/
theorem positions_of_readListing {text : String} {methods : List WrittenMethod}
    (h : readListing text = .ok methods) :
    ∃ befores : List (List Char),
      List.Forall₂ (fun mark before => mark.StandsAfter text.toList before ∧ mark.IsAfter before ∧
        (mark.position = Text.place before ↔ Text.returns before = 0))
        (methods.flatMap WrittenMethod.marks) befores ∧
      befores.Pairwise fun a b => a.count '\n' < b.count '\n' := by
  obtain ⟨r, hread, hcurrent, rfl⟩ := readListing_eq_ok_iff_exists.mp h
  have hstart : LineStart.IsAfter ⟨1, 0⟩ [] := ⟨.inl rfl, rfl, rfl⟩
  obtain ⟨marks, befores, hmarks, hstand, -, hsorted⟩ :=
    Reader.marks_of_readLines (Text.lined_lines text) hread hstart
  have hall : r.closed.reverse.flatMap WrittenMethod.marks = marks := by
    simpa [Reader.marks, hcurrent] using hmarks
  refine ⟨befores, ?_, hsorted⟩
  rw [hall]
  exact hstand.imp fun _ _ hmark => ⟨hmark.1, hmark.2, hmark.2.position_eq_iff⟩

/-- A listing with line ends of both kinds and a character of two bytes. -/
def mixedListing : String := "// é\r\n.class A\n .method f()V\r\n\nx:\n wide iload 0\n.end"

theorem positions_of_readListing_mixed :
    ∃ befores : List (List Char),
      List.Forall₂ (fun (mark : Mark) before =>
        mark.StandsAfter mixedListing.toList before ∧ mark.IsAfter before ∧
          (mark.position = Text.place before ↔ Text.returns before = 0))
        [⟨false, ".method", ⟨3, 2, 16⟩⟩, ⟨false, "x:", ⟨5, 1, 30⟩⟩, ⟨true, "iload", ⟨6, 7, 39⟩⟩] befores ∧
      befores.Pairwise fun a b => a.count '\n' < b.count '\n' := by
  have hread : (readListing mixedListing).toOption.map (·.flatMap WrittenMethod.marks) =
      some [⟨false, ".method", ⟨3, 2, 16⟩⟩, ⟨false, "x:", ⟨5, 1, 30⟩⟩, ⟨true, "iload", ⟨6, 7, 39⟩⟩] := by
    decide +kernel
  obtain ⟨methods, hmethods, hmarks⟩ := Option.map_eq_some_iff.mp hread
  rw [← hmarks]
  exact positions_of_readListing (eq_ok_of_toOption hmethods)

/-- After lines that end with a carriage return and a line feed, offsets are too small. -/
theorem marks_of_carriage_returns :
    (readListing ".class A\r\n.method static f()V\r\nnop\r\n.end\r\n").toOption.map
        (·.flatMap WrittenMethod.marks) =
      some [⟨false, ".method", ⟨2, 1, 9⟩⟩, ⟨false, "nop", ⟨3, 1, 29⟩⟩] ∧
    Text.place ".class A\r\n".toList = ⟨2, 1, 10⟩ ∧
    Text.place ".class A\r\n.method static f()V\r\n".toList = ⟨3, 1, 31⟩ := by
  decide +kernel

end JvmAssembler
