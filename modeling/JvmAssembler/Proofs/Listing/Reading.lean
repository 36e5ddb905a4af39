import JvmAssembler.Proofs.Listing.Rows

/-! The reader goes through the lines once and keeps the class, the open method and the methods that
are closed. What it has after some lines is what the lines say, so it reads exactly the listings
that are arranged, and no line is lost or put elsewhere. -/

namespace JvmAssembler

theorem Statement.labelName?_eq_some_iff {first : Token} {rest : List Token} {name : String} :
    labelName? first rest = some name ↔
      rest = [] ∧ first.quoted = false ∧ first.text = name ++ ":" := by
  constructor
  · intro h
    unfold labelName? at h
    split at h
    · rename_i reversed hreverse
      split at h
      · cases h
      · rename_i hquoted
        cases h
        refine ⟨rfl, Bool.eq_false_iff.mpr hquoted, String.ext ?_⟩
        have htext := congrArg List.reverse hreverse
        rw [List.reverse_reverse, List.reverse_cons] at htext
        rw [htext, String.toList_append, String.toList_ofList]
        rfl
    · cases h
  · rintro ⟨rfl, hquoted, htext⟩
    have hreverse : first.text.toList.reverse = ':' :: name.toList.reverse := by
      rw [htext, String.toList_append, List.reverse_append]
      rfl
    simp [labelName?, hreverse, hquoted]

theorem Row.isLabel_iff {row : Row} :
    row.IsLabel ↔ (Statement.labelName? row.first row.rest).isSome := by
  rw [Option.isSome_iff_exists]
  simp only [Statement.labelName?_eq_some_iff, Row.IsLabel]
  constructor
  · rintro ⟨hrest, hquoted, name, htext⟩
    exact ⟨name, hrest, hquoted, htext⟩
  · rintro ⟨name, hrest, hquoted, htext⟩
    exact ⟨hrest, hquoted, name, htext⟩

theorem Row.ofTokens_eq_ok_iff {row : Row} {s : Statement} :
    Statement.ofTokens row.first row.rest = .ok s ↔ row.IsStatement s := by
  unfold Statement.ofTokens
  cases hlabel : Statement.labelName? row.first row.rest with
  | some name =>
      obtain ⟨hrest, hquoted, htext⟩ := Statement.labelName?_eq_some_iff.mp hlabel
      have hstatement : row.IsStatement (.label name row.first.position) :=
        ⟨hrest, hquoted, htext, rfl⟩
      constructor
      · rintro ⟨⟩
        exact hstatement
      · intro hs
        rw [hs.eq hstatement]
  | none =>
      have hnot : ¬row.IsLabel := by
        rw [isLabel_iff, hlabel]
        exact Bool.false_ne_true
      cases hinsn : WrittenInstruction.ofTokens row.first row.rest with
      | ok insn =>
          have hstatement : row.IsStatement (.instruction insn) := ⟨hnot, hinsn⟩
          constructor
          · rintro ⟨⟩
            exact hstatement
          · intro hs
            rw [hs.eq hstatement]
            rfl
      | error e =>
          constructor
          · rintro ⟨⟩
          · intro hs
            cases s with
            | label name position =>
                obtain ⟨hrest, hquoted, htext, _⟩ := hs
                exact absurd ⟨hrest, hquoted, name, htext⟩ hnot
            | instruction insn => cases hinsn.symm.trans hs.2

theorem Row.exists_isStatement_iff {row : Row} :
    (∃ s, row.IsStatement s) ↔
      row.IsLabel ∨ ∃ insn, WrittenInstruction.ofTokens row.first row.rest = .ok insn := by
  constructor
  · rintro ⟨⟨name, position⟩ | insn, hs⟩
    · obtain ⟨hrest, hquoted, htext, _⟩ := hs
      exact .inl ⟨hrest, hquoted, name, htext⟩
    · exact .inr ⟨insn, hs.2⟩
  · intro h
    by_cases hlabel : row.IsLabel
    · obtain ⟨hrest, hquoted, name, htext⟩ := hlabel
      exact ⟨.label name row.first.position, hrest, hquoted, htext, rfl⟩
    · obtain ⟨insn, hinsn⟩ := h.resolve_left hlabel
      exact ⟨.instruction insn, hlabel, hinsn⟩

namespace Reader

variable {r r' : Reader} {row : Row}

/-- Reads a line that has tokens. -/
def readRow (r : Reader) (row : Row) : Except ListingError Reader :=
  r.readTokens (row.first :: row.rest)

theorem readRow_eq (r : Reader) (row : Row) :
    r.readRow row =
      match row.kind with
      | .owner => r.readClass row.first row.rest
      | .opening => r.readMethod row.first row.rest
      | .closing => r.readEnd row.first
      | .statement => r.readStatement row.first row.rest := by
  simp only [readRow, readTokens, Row.kind]
  split
  · rename_i h
    simp [h]
  · rename_i h
    simp [h]
  · rename_i h
    simp [h]
  · rename_i hclass hmethod hend
    rw [if_neg hclass, if_neg hmethod, if_neg hend]

theorem readClass_eq_ok_iff :
    r.readClass row.first row.rest = .ok r' ↔
      ∃ owner, row.className? = some owner ∧ r' = { r with owner := some owner } := by
  obtain ⟨first, rest⟩ := row
  unfold readClass Row.className?
  match rest with
  | [] => simp
  | [name] =>
      cases hname : BinaryName.ofString name.text with
      | ok owner => simp [hname, Except.toOption, eq_comm]
      | error e => simp [hname, Except.toOption]
  | _ :: _ :: _ => simp

theorem readFlags_eq_ok_iff {first : Token} {words : List Token} {flags flags' : AccessFlags} :
    readFlags first flags words = .ok flags' ↔
      ∃ found, List.Forall₂ (fun word flag => AccessFlag.ofKeyword? word.text = some flag)
        words found ∧ flags' = found.foldl AccessFlags.insert flags := by
  induction words generalizing flags with
  | nil => simp [readFlags, eq_comm]
  | cons word words ih =>
      rw [readFlags]
      cases hword : AccessFlag.ofKeyword? word.text with
      | none => simp [List.forall₂_cons_left_iff, hword]
      | some flag => simp [List.forall₂_cons_left_iff, hword, ih]

theorem readMethod_eq_ok_iff :
    r.readMethod row.first row.rest = .ok r' ↔
      ∃ m, r.current = none ∧ r.owner = some m.owner ∧ row.IsHeader m ∧ m.body = [] ∧
        r' = { r with current := some (m, []) } := by
  constructor
  · intro h
    unfold readMethod at h
    split at h
    · cases h
    · cases h
    · cases h
    · rename_i owner signature hcurrent howner hlast
      obtain ⟨flags, hflags, h⟩ := exists_of_bind_eq_ok h
      obtain ⟨found, hfound, rfl⟩ := readFlags_eq_ok_iff.mp hflags
      split at h
      · cases h
      · rename_i name descriptor hne hspan
        cases h
        exact ⟨_, hcurrent, howner, Row.isHeader_of_span hfound hlast hspan hne owner, rfl, rfl⟩
  · rintro ⟨m, hcurrent, howner, hheader, hbody, rfl⟩
    obtain ⟨flags, hfound, hflags⟩ := hheader.flags
    obtain ⟨signature, hlast, htext⟩ := hheader.signature
    have hread : readFlags row.first .empty row.rest.dropLast = .ok m.flags :=
      readFlags_eq_ok_iff.mpr ⟨flags, hfound, hflags⟩
    have hspan := span_signature hheader.name hheader.descriptor
    rw [← String.toList_append, ← htext] at hspan
    obtain ⟨rest, hdescriptor⟩ := List.head?_eq_some_iff.mp hheader.descriptor
    simp only [readMethod, hcurrent, howner, hlast, hread, hspan, hdescriptor, bind, Except.bind]
    rw [← hdescriptor, String.ofList_toList, String.ofList_toList, ← hheader.position, ← hbody]
    rfl

theorem readEnd_eq_ok_iff {first : Token} :
    r.readEnd first = .ok r' ↔
      ∃ m reversed, r.current = some (m, reversed) ∧
        r' = { r with
          current := none, closed := { m with body := reversed.reverse } :: r.closed } := by
  unfold readEnd
  cases r.current with
  | none => simp
  | some current => simp [Prod.ext_iff, eq_comm]

theorem readStatement_eq_ok_iff :
    r.readStatement row.first row.rest = .ok r' ↔
      ∃ m reversed s, r.current = some (m, reversed) ∧ row.IsStatement s ∧
        r' = { r with current := some (m, s :: reversed) } := by
  unfold readStatement
  simp only [← Row.ofTokens_eq_ok_iff]
  cases r.current with
  | none => simp
  | some current =>
      cases hs : Statement.ofTokens row.first row.rest with
      | error e => simp [bind, Except.bind]
      | ok s => simp [bind, Except.bind, pure, Except.pure, Prod.ext_iff, eq_comm]

/-! ### What the reader has after some lines -/

/-- A method that is closed. -/
def ClosedAt (rows : List Row) (i : Nat) (m : WrittenMethod) : Prop :=
  Listing.IsMethodAt rows i m ∧ ∃ row ∈ rows.drop (i + 1), row.kind = .closing

/-- The number of the line that opened the method, if one is open. Its statements so far come last
first. -/
def OpenAt (rows : List Row) : Option (WrittenMethod × List Statement) → List Nat → Prop
  | none, opened => opened = []
  | some (m, reversed), opened =>
    ∃ i, opened = [i] ∧ (∀ row ∈ rows.drop (i + 1), row.kind ≠ .closing) ∧
      Listing.IsMethodAt rows i { m with body := reversed.reverse }

/-- The reader has what some lines say. -/
structure Shows (rows : List Row) (r : Reader) : Prop where
  owner_eq : r.owner = Listing.latestOwner? rows
  isSome_owner_iff : r.owner.isSome ↔ ∃ row ∈ rows, row.kind = .owner
  methods : ∃ closed opened, Listing.openings rows = closed ++ opened ∧
    List.Forall₂ (ClosedAt rows) closed r.closed.reverse ∧ OpenAt rows r.current opened

variable {rows : List Row}

theorem Shows.isSome_current_iff (h : Shows rows r) : r.current.isSome ↔ Listing.Open rows := by
  obtain ⟨closed, opened, hopenings, hclosed, hopened⟩ := h.methods
  rw [Listing.Open, hopenings]
  cases hcurrent : r.current with
  | none =>
      rw [hcurrent] at hopened
      obtain rfl : opened = [] := hopened
      constructor
      · rintro ⟨⟩
      · rintro ⟨i, hi, hopen⟩
        rw [List.append_nil] at hi
        obtain ⟨m, _, _, row, hrow, hkind⟩ := exists_of_mem_right (List.Forall₂.flip hclosed) hi
        exact absurd hkind (hopen row hrow)
  | some current =>
      obtain ⟨m, reversed⟩ := current
      rw [hcurrent] at hopened
      obtain ⟨i, rfl, hopen, _⟩ := hopened
      exact ⟨fun _ => ⟨i, List.mem_append_right _ List.mem_cons_self, hopen⟩, fun _ => rfl⟩

theorem shows_empty (line : LineStart) : Shows [] { line := line } where
  owner_eq := rfl
  isSome_owner_iff := by simp
  methods := ⟨[], [], rfl, .nil, rfl⟩

theorem ClosedAt.append {i : Nat} {m : WrittenMethod} (h : ClosedAt rows i m) (row : Row) :
    ClosedAt (rows ++ [row]) i m := by
  obtain ⟨hm, closing, hclosing, hkind⟩ := h
  have hi := hm.lt_length
  refine ⟨hm.append ?_, closing, ?_, hkind⟩
  · rw [Listing.bodyRows_append_of_closed hi ⟨closing, hclosing, hkind⟩]
    exact hm.body
  · rw [List.drop_append_of_le_length hi]
    exact List.mem_append_left _ hclosing

/-- A line that closes nothing leaves the open method open. -/
theorem OpenAt.append {m : WrittenMethod} {reversed : List Statement} {opened : List Nat}
    (h : OpenAt rows (some (m, reversed)) opened) (hkind : row.kind ≠ .closing)
    (more : List Statement)
    (hmore : List.Forall₂ Row.IsStatement (if row.kind = .statement then [row] else []) more) :
    OpenAt (rows ++ [row]) (some (m, more.reverse ++ reversed)) opened := by
  obtain ⟨i, rfl, hopen, hm⟩ := h
  have hi := hm.lt_length
  refine ⟨i, rfl, fun later hlater => ?_, ?_⟩
  · rw [List.drop_append_of_le_length hi, List.mem_append, List.mem_singleton] at hlater
    rcases hlater with hlater | rfl
    · exact hopen later hlater
    · exact hkind
  · apply hm.append
    rw [Listing.bodyRows_append_of_open hi hopen, List.reverse_append, List.reverse_reverse]
    exact List.rel_append hm.body hmore

theorem OpenAt.close {m : WrittenMethod} {reversed : List Statement} {opened : List Nat}
    (h : OpenAt rows (some (m, reversed)) opened) (hkind : row.kind = .closing) :
    List.Forall₂ (ClosedAt (rows ++ [row])) opened [{ m with body := reversed.reverse }] := by
  obtain ⟨i, rfl, hopen, hm⟩ := h
  have hi := hm.lt_length
  refine .cons ⟨hm.append ?_, row, ?_, hkind⟩ .nil
  · rw [Listing.bodyRows_append_of_open hi hopen, hkind, if_neg (by decide), List.append_nil]
    exact hm.body
  · rw [List.drop_append_of_le_length hi]
    exact List.mem_append_right _ List.mem_cons_self

/-- The class stays the same after other lines. -/
theorem Shows.append_of_ne (h : Shows rows r) (hkind : row.kind ≠ .owner)
    (howner : r'.owner = r.owner)
    (hmethods : ∃ closed opened, Listing.openings (rows ++ [row]) = closed ++ opened ∧
      List.Forall₂ (ClosedAt (rows ++ [row])) closed r'.closed.reverse ∧
      OpenAt (rows ++ [row]) r'.current opened) :
    Shows (rows ++ [row]) r' where
  owner_eq := by rw [howner, h.owner_eq, Listing.latestOwner?_append, if_neg hkind]
  isSome_owner_iff := by
    rw [howner, h.isSome_owner_iff]
    simp [or_and_right, exists_or, hkind]
  methods := hmethods

/-- **One line.** The reader has what the lines say after one more line. -/
theorem Shows.append (h : Shows rows r) (hread : r.readRow row = .ok r') :
    Shows (rows ++ [row]) r' := by
  obtain ⟨closed, opened, hopenings, hclosed, hopened⟩ := h.methods
  have hkept : List.Forall₂ (ClosedAt (rows ++ [row])) closed r.closed.reverse :=
    hclosed.imp fun _ _ hm => hm.append row
  rw [readRow_eq] at hread
  cases hkind : row.kind with
  | owner =>
      rw [hkind] at hread
      obtain ⟨owner, hname, rfl⟩ := readClass_eq_ok_iff.mp hread
      refine ⟨?_, ?_, closed, opened, ?_, hkept, ?_⟩
      · rw [Listing.latestOwner?_append, if_pos hkind, hname]
      · exact ⟨fun _ => ⟨row, List.mem_append_right _ List.mem_cons_self, hkind⟩, fun _ => rfl⟩
      · rw [Listing.openings_append, hkind, if_neg (by decide), List.append_nil, hopenings]
      · show OpenAt (rows ++ [row]) r.current opened
        cases hcurrent : r.current with
        | none =>
            rw [hcurrent] at hopened
            exact hopened
        | some current =>
            rw [hcurrent] at hopened
            refine OpenAt.append hopened (by rw [hkind]; decide) [] ?_
            rw [hkind, if_neg (by decide)]
            exact .nil
  | opening =>
      rw [hkind] at hread
      obtain ⟨m, hcurrent, howner, hheader, hbody, rfl⟩ := readMethod_eq_ok_iff.mp hread
      rw [hcurrent] at hopened
      obtain rfl : opened = [] := hopened
      refine h.append_of_ne (by rw [hkind]; decide) rfl
        ⟨closed, [rows.length], ?_, hkept, rows.length, rfl, ?_, ?_⟩
      · rw [Listing.openings_append, hkind, if_pos rfl, hopenings, List.append_nil]
      · simp
      · refine ⟨⟨row, List.getElem?_concat_length, hheader.withBody _⟩, ?_, ?_⟩
        · rw [List.take_left, ← h.owner_eq, howner]
        · simp [Listing.bodyRows]
  | closing =>
      rw [hkind] at hread
      obtain ⟨m, reversed, hcurrent, rfl⟩ := readEnd_eq_ok_iff.mp hread
      rw [hcurrent] at hopened
      refine h.append_of_ne (by rw [hkind]; decide) rfl ⟨closed ++ opened, [], ?_, ?_, rfl⟩
      · rw [Listing.openings_append, hkind, if_neg (by decide), List.append_nil, List.append_nil,
          hopenings]
      · rw [List.reverse_cons]
        exact List.rel_append hkept (hopened.close hkind)
  | statement =>
      rw [hkind] at hread
      obtain ⟨m, reversed, s, hcurrent, hstatement, rfl⟩ := readStatement_eq_ok_iff.mp hread
      rw [hcurrent] at hopened
      refine h.append_of_ne (by rw [hkind]; decide) rfl ⟨closed, opened, ?_, hkept, ?_⟩
      · rw [Listing.openings_append, hkind, if_neg (by decide), List.append_nil, hopenings]
      · refine hopened.append (by rw [hkind]; decide) [s] ?_
        rw [hkind, if_pos rfl]
        exact .cons hstatement .nil

theorem Shows.exists_readRow_iff (h : Shows rows r) (row : Row) :
    (∃ r', r.readRow row = .ok r') ↔ Listing.Follows rows row := by
  have hopen : Listing.Open rows ↔ ∃ m reversed, r.current = some (m, reversed) := by
    rw [← h.isSome_current_iff, Option.isSome_iff_exists, Prod.exists]
  rw [readRow_eq, Listing.Follows]
  cases hkind : row.kind with
  | owner => simp [readClass_eq_ok_iff, Option.isSome_iff_exists]
  | opening =>
      simp only [readMethod_eq_ok_iff]
      constructor
      · rintro ⟨_, m, hcurrent, howner, hheader, _, _⟩
        refine ⟨?_, ?_, hheader.hasHeader⟩
        · rw [← h.isSome_owner_iff, howner]
          rfl
        · rw [← h.isSome_current_iff, hcurrent]
          exact Bool.false_ne_true
      · rintro ⟨hnamed, hnone, hheader⟩
        obtain ⟨owner, howner⟩ := Option.isSome_iff_exists.mp (h.isSome_owner_iff.mpr hnamed)
        obtain ⟨m, hm, rfl, hbody⟩ := hheader.exists_isHeader owner
        rw [← h.isSome_current_iff, Option.not_isSome_iff_eq_none] at hnone
        exact ⟨_, m, hnone, howner, hm, hbody, rfl⟩
  | closing =>
      rw [hopen]
      simp [readEnd_eq_ok_iff]
  | statement =>
      rw [hopen, ← Row.exists_isStatement_iff]
      simp only [readStatement_eq_ok_iff]
      constructor
      · rintro ⟨_, m, reversed, s, hcurrent, hs, _⟩
        exact ⟨⟨m, reversed, hcurrent⟩, s, hs⟩
      · rintro ⟨⟨m, reversed, hcurrent⟩, s, hs⟩
        exact ⟨_, m, reversed, s, hcurrent, hs, rfl⟩

theorem line_of_readRow (h : r.readRow row = .ok r') : r'.line = r.line := by
  rw [readRow_eq] at h
  cases hkind : row.kind with
  | owner =>
      rw [hkind] at h
      obtain ⟨_, _, rfl⟩ := readClass_eq_ok_iff.mp h
      rfl
  | opening =>
      rw [hkind] at h
      obtain ⟨_, _, _, _, _, rfl⟩ := readMethod_eq_ok_iff.mp h
      rfl
  | closing =>
      rw [hkind] at h
      obtain ⟨_, _, _, rfl⟩ := readEnd_eq_ok_iff.mp h
      rfl
  | statement =>
      rw [hkind] at h
      obtain ⟨_, _, _, _, _, rfl⟩ := readStatement_eq_ok_iff.mp h
      rfl

theorem readLine_eq_ok_iff {chars : List Char} :
    r.readLine chars = .ok r' ↔
      ∃ tokens found, Token.ofLine r.line chars = .ok tokens ∧ r.readTokens tokens = .ok found ∧
        r' = { found with line := Listing.after found.line chars } := by
  constructor
  · intro h
    obtain ⟨tokens, htokens, h⟩ := exists_of_bind_eq_ok h
    obtain ⟨found, hfound, h⟩ := exists_of_bind_eq_ok h
    cases h
    exact ⟨tokens, found, htokens, hfound, rfl⟩
  · rintro ⟨tokens, found, htokens, hfound, rfl⟩
    simp only [readLine, htokens, hfound, bind, Except.bind]
    rfl

theorem Shows.withLine (h : Shows rows r) (line : LineStart) :
    Shows rows { r with line := line } :=
  ⟨h.owner_eq, h.isSome_owner_iff, h.methods⟩

/-- A line that is empty says nothing. -/
theorem Shows.appendLine (h : Shows rows r) {chars : List Char}
    (hread : r.readLine chars = .ok r') :
    Shows (rows ++ (Listing.row? (r.line, chars)).toList) r' ∧
      r'.line = Listing.after r.line chars := by
  obtain ⟨tokens, found, htokens, hfound, rfl⟩ := readLine_eq_ok_iff.mp hread
  rw [Listing.row?, htokens]
  cases tokens with
  | nil =>
      cases hfound
      exact ⟨by simpa using h.withLine _, rfl⟩
  | cons first rest =>
      have hrow : r.readRow ⟨first, rest⟩ = .ok found := hfound
      exact ⟨(h.append hrow).withLine _, by rw [← line_of_readRow hrow]⟩

theorem Shows.exists_readLine_iff (h : Shows rows r) (chars : List Char) :
    (∃ r', r.readLine chars = .ok r') ↔
      (∃ tokens, Token.ofLine r.line chars = .ok tokens) ∧
        ∀ row, Listing.row? (r.line, chars) = some row → Listing.Follows rows row := by
  simp only [readLine_eq_ok_iff, Listing.row?]
  cases htokens : Token.ofLine r.line chars with
  | error e => simp
  | ok tokens =>
      cases tokens with
      | nil => simp [readTokens]
      | cons first rest =>
          have hread := h.exists_readRow_iff ⟨first, rest⟩
          constructor
          · rintro ⟨_, _, found, ⟨⟩, hfound, _⟩
            refine ⟨⟨_, rfl⟩, ?_⟩
            rintro row ⟨⟩
            exact hread.mp ⟨found, hfound⟩
          · rintro ⟨_, hfollows⟩
            obtain ⟨found, hfound⟩ := hread.mpr (hfollows _ rfl)
            exact ⟨_, _, found, rfl, hfound, rfl⟩

theorem Shows.appendLines {lines : List (List Char)} (h : Shows rows r)
    (hread : lines.foldlM readLine r = .ok r') :
    Shows (rows ++ (Listing.placed r.line lines).filterMap Listing.row?) r' := by
  induction lines generalizing rows r with
  | nil =>
      cases hread
      simpa [Listing.placed] using h
  | cons chars lines ih =>
      rw [List.foldlM_cons] at hread
      obtain ⟨r₁, hfirst, hrest⟩ := exists_of_bind_eq_ok hread
      obtain ⟨hshows, hline⟩ := h.appendLine hfirst
      have hall := ih hshows hrest
      rw [hline, List.append_assoc] at hall
      rw [Listing.filterMap_placed]
      exact hall

/-- **All lines.** Lines are read if they have tokens and follow each other. -/
theorem Shows.exists_readLines_iff (h : Shows rows r) (lines : List (List Char)) :
    (∃ r', lines.foldlM readLine r = .ok r') ↔
      (∀ line ∈ Listing.placed r.line lines, ∃ tokens, Token.ofLine line.1 line.2 = .ok tokens) ∧
        Listing.Continues rows ((Listing.placed r.line lines).filterMap Listing.row?) := by
  induction lines generalizing rows r with
  | nil =>
      refine ⟨fun _ => ⟨?_, ?_⟩, fun _ => ⟨r, rfl⟩⟩
      · rintro _ ⟨⟩
      · rintro i row ⟨⟩
  | cons chars lines ih =>
      rw [Listing.filterMap_placed, Listing.continues_toList_append, Listing.placed,
        List.forall_mem_cons]
      constructor
      · rintro ⟨r', hread⟩
        obtain ⟨r₁, hfirst, hrest⟩ := exists_of_bind_eq_ok hread
        obtain ⟨hshows, hline⟩ := h.appendLine hfirst
        obtain ⟨htokens, hfollows⟩ := (h.exists_readLine_iff chars).mp ⟨r₁, hfirst⟩
        obtain ⟨htokens', hcontinues⟩ := (ih hshows).mp ⟨r', hrest⟩
        rw [hline] at htokens' hcontinues
        exact ⟨⟨htokens, htokens'⟩, hfollows, hcontinues⟩
      · rintro ⟨⟨htokens, htokens'⟩, hfollows, hcontinues⟩
        obtain ⟨r₁, hfirst⟩ := (h.exists_readLine_iff chars).mpr ⟨htokens, hfollows⟩
        obtain ⟨hshows, hline⟩ := h.appendLine hfirst
        rw [← hline] at htokens' hcontinues
        obtain ⟨r', hrest⟩ := (ih hshows).mpr ⟨htokens', hcontinues⟩
        refine ⟨r', ?_⟩
        rw [List.foldlM_cons, hfirst]
        exact hrest

end Reader

theorem readListing_eq_ok_iff_exists {text : String} {methods : List WrittenMethod} :
    readListing text = .ok methods ↔
      ∃ r, (Text.lines text).foldlM Reader.readLine {} = .ok r ∧ r.current = none ∧
        methods = r.closed.reverse := by
  constructor
  · intro h
    obtain ⟨r, hr, h⟩ := exists_of_bind_eq_ok h
    split at h
    · cases h
    · rename_i hcurrent
      cases h
      exact ⟨r, hr, hcurrent, rfl⟩
  · rintro ⟨r, hr, hcurrent, rfl⟩
    simp only [readListing, hr, bind, Except.bind, hcurrent]
    rfl

/-- What is read of a text is told by its lines. -/
theorem isMethodAt_of_readListing {text : String} {methods : List WrittenMethod}
    (h : readListing text = .ok methods) :
    List.Forall₂ (Listing.IsMethodAt (Listing.rows text)) (Listing.openings (Listing.rows text))
      methods := by
  obtain ⟨r, hread, hcurrent, rfl⟩ := readListing_eq_ok_iff_exists.mp h
  have hshows : Reader.Shows (Listing.rows text) r := (Reader.shows_empty ⟨1, 0⟩).appendLines hread
  obtain ⟨closed, opened, hopenings, hclosed, hopened⟩ := hshows.methods
  rw [hcurrent] at hopened
  obtain rfl : opened = [] := hopened
  rw [hopenings, List.append_nil]
  exact hclosed.imp fun _ _ hm => hm.1

theorem exists_readListing_iff (text : String) :
    (∃ methods, readListing text = .ok methods) ↔
      Listing.Tokenizes text ∧ Listing.Arranged (Listing.rows text) := by
  have hlines := (Reader.shows_empty ⟨1, 0⟩).exists_readLines_iff (Text.lines text)
  have hshows : ∀ {r : Reader}, (Text.lines text).foldlM Reader.readLine {} = .ok r →
      (r.current.isSome ↔ Listing.Open (Listing.rows text)) :=
    fun hread => ((Reader.shows_empty ⟨1, 0⟩).appendLines hread).isSome_current_iff
  simp only [readListing_eq_ok_iff_exists]
  constructor
  · rintro ⟨_, r, hread, hcurrent, _⟩
    obtain ⟨htokens, hcontinues⟩ := hlines.mp ⟨r, hread⟩
    refine ⟨htokens, hcontinues, ?_⟩
    rw [← hshows hread, hcurrent]
    exact Bool.false_ne_true
  · rintro ⟨htokens, hfollows, hopen⟩
    obtain ⟨r, hread⟩ := hlines.mpr ⟨htokens, hfollows⟩
    rw [← hshows hread, Option.not_isSome_iff_eq_none] at hopen
    exact ⟨_, r, hread, hopen, rfl⟩

/-- **Listings.** A text is read as a listing exactly if each line can be cut into tokens and the
lines are arranged. There is one method for each line that opens one, in their order, and it has one
statement for each label and instruction up to the line that closes it. -/
theorem readListing_eq_ok_iff (text : String) :
    ((∃ methods, readListing text = .ok methods) ↔
      Listing.Tokenizes text ∧ Listing.Arranged (Listing.rows text)) ∧
    ∀ methods, readListing text = .ok methods ↔
      Listing.Tokenizes text ∧ Listing.Arranged (Listing.rows text) ∧
        List.Forall₂ (Listing.IsMethodAt (Listing.rows text))
          (Listing.openings (Listing.rows text)) methods := by
  refine ⟨exists_readListing_iff text, fun methods => ⟨fun h => ?_, ?_⟩⟩
  · obtain ⟨htokens, harranged⟩ := (exists_readListing_iff text).mp ⟨methods, h⟩
    exact ⟨htokens, harranged, isMethodAt_of_readListing h⟩
  · rintro ⟨htokens, harranged, hmethods⟩
    obtain ⟨found, hfound⟩ := (exists_readListing_iff text).mpr ⟨htokens, harranged⟩
    obtain rfl : found = methods := List.right_unique_forall₂' (fun _ _ _ hm hn => hm.eq hn)
      (isMethodAt_of_readListing hfound) hmethods
    exact hfound

end JvmAssembler
