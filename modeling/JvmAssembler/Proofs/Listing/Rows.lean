import JvmAssembler.Listing.Read
import JvmAssembler.Proofs.Success
import Mathlib.Data.List.Basic
import Mathlib.Data.List.Forall2
import Mathlib.Data.List.TakeDrop
import Mathlib.Data.List.TakeWhile

/-! A listing is a row of lines, of which those without tokens do not count. What each line may be
is told from the lines before it, and the methods of the listing are told from its lines too.
Nothing here depends on how a listing is read. -/

namespace JvmAssembler

/-- A line that has tokens. -/
structure Row where
  first : Token
  rest : List Token

/-- What a line is for. -/
inductive RowKind where
  /-- It names the class of the methods that follow. -/
  | owner
  /-- It opens a method. -/
  | opening
  /-- It closes the open method. -/
  | closing
  /-- It is a label or an instruction. -/
  | statement
deriving DecidableEq

namespace Row

/-- The first token tells what a line is for, quoted or not. -/
def kind (row : Row) : RowKind :=
  if row.first.text = ".class" then .owner
  else if row.first.text = ".method" then .opening
  else if row.first.text = ".end" then .closing
  else .statement

/-- The class that a line names. -/
def className? (row : Row) : Option BinaryName :=
  match row.rest with
  | [name] => (BinaryName.ofString name.text).toOption
  | _ => none

/-- Flags that are known, and a signature with an opening parenthesis after them. -/
def HasHeader (row : Row) : Prop :=
  (∀ word ∈ row.rest.dropLast, (AccessFlag.ofKeyword? word.text).isSome) ∧
    ∃ signature, row.rest.getLast? = some signature ∧ '(' ∈ signature.text.toList

/-- A label is one token that is not quoted and ends in a colon. -/
def IsLabel (row : Row) : Prop :=
  row.rest = [] ∧ row.first.quoted = false ∧ ∃ name, row.first.text = name ++ ":"

/-- The method that a line opens, but for its class and its body. -/
structure IsHeader (row : Row) (m : WrittenMethod) : Prop where
  flags : ∃ flags, List.Forall₂ (fun word flag => AccessFlag.ofKeyword? word.text = some flag)
    row.rest.dropLast flags ∧ m.flags = .ofList flags
  signature : ∃ signature, row.rest.getLast? = some signature ∧
    signature.text = m.name ++ m.descriptor
  /-- The descriptor starts with the first parenthesis. -/
  name : '(' ∉ m.name.toList
  descriptor : m.descriptor.toList.head? = some '('
  position : m.position = row.first.position

/-- The statement that a line is. -/
def IsStatement (row : Row) : Statement → Prop
  | .label name position =>
    row.rest = [] ∧ row.first.quoted = false ∧ row.first.text = name ++ ":" ∧
      position = row.first.position
  | .instruction insn =>
    ¬row.IsLabel ∧ WrittenInstruction.ofTokens row.first row.rest = .ok insn

end Row

namespace Listing

/-- The place after a line. A line end counts as one byte. -/
def after (start : LineStart) (chars : List Char) : LineStart :=
  ⟨start.number + 1, start.offset + Token.byteLength chars + 1⟩

/-- Lines with their places, from a place on. -/
def placed (start : LineStart) : List (List Char) → List (LineStart × List Char)
  | [] => []
  | chars :: lines => (start, chars) :: placed (after start chars) lines

/-- The line, if it has tokens. -/
def row? (line : LineStart × List Char) : Option Row :=
  match Token.ofLine line.1 line.2 with
  | .ok (first :: rest) => some ⟨first, rest⟩
  | _ => none

/-- The lines of a text that have tokens. -/
def rows (text : String) : List Row := (placed ⟨1, 0⟩ (Text.lines text)).filterMap row?

/-- Each line of a text can be cut into tokens. -/
def Tokenizes (text : String) : Prop :=
  ∀ line ∈ placed ⟨1, 0⟩ (Text.lines text), ∃ tokens, Token.ofLine line.1 line.2 = .ok tokens

/-- The lines that open a method, by their numbers. -/
def openings (rows : List Row) : List Nat :=
  (List.range rows.length).filter fun i => rows[i]?.any fun row => row.kind = .opening

/-- A method is open after some lines: no line closes it. -/
def Open (rows : List Row) : Prop :=
  ∃ i ∈ openings rows, ∀ row ∈ rows.drop (i + 1), row.kind ≠ .closing

/-- May a line follow some others? -/
def Follows (before : List Row) (row : Row) : Prop :=
  match row.kind with
  | .owner => row.className?.isSome
  | .opening => (∃ earlier ∈ before, earlier.kind = .owner) ∧ ¬Open before ∧ row.HasHeader
  | .closing => Open before
  | .statement =>
    Open before ∧
      (row.IsLabel ∨ ∃ insn, WrittenInstruction.ofTokens row.first row.rest = .ok insn)

/-- Each line follows those before it, and no method is left open. -/
def Arranged (rows : List Row) : Prop :=
  (∀ i row, rows[i]? = some row → Follows (rows.take i) row) ∧ ¬Open rows

/-- The class of the last line that names one. -/
def latestOwner? (rows : List Row) : Option BinaryName :=
  (rows.filter fun row => row.kind = .owner).getLast?.bind Row.className?

/-- The labels and instructions after a line, up to the next line that closes a method. -/
def bodyRows (rows : List Row) (i : Nat) : List Row :=
  ((rows.drop (i + 1)).takeWhile fun row => row.kind ≠ .closing).filter
    fun row => row.kind = .statement

/-- The method that a line opens. -/
structure IsMethodAt (rows : List Row) (i : Nat) (m : WrittenMethod) : Prop where
  header : ∃ row, rows[i]? = some row ∧ row.IsHeader m
  owner : latestOwner? (rows.take i) = some m.owner
  body : List.Forall₂ Row.IsStatement (bodyRows rows i) m.body

end Listing

/-- A signature is cut in front of its first parenthesis. -/
theorem span_signature {name descriptor : List Char} (hname : '(' ∉ name)
    (hdescriptor : descriptor.head? = some '(') :
    (name ++ descriptor).span (· != '(') = (name, descriptor) := by
  have hbefore : ∀ c ∈ name, (c != '(') = true := by
    intro c hc
    exact bne_iff_ne.mpr fun heq => hname (heq ▸ hc)
  obtain ⟨rest, rfl⟩ := List.head?_eq_some_iff.mp hdescriptor
  rw [List.span_eq_takeWhile_dropWhile, List.takeWhile_append_of_pos hbefore,
    List.dropWhile_append_of_pos hbefore]
  simp

theorem signature_of_span {text name descriptor : List Char}
    (h : text.span (· != '(') = (name, descriptor)) (hne : descriptor ≠ []) :
    text = name ++ descriptor ∧ '(' ∉ name ∧ descriptor.head? = some '(' := by
  rw [List.span_eq_takeWhile_dropWhile, Prod.mk.injEq] at h
  obtain ⟨rfl, rfl⟩ := h
  refine ⟨List.takeWhile_append_dropWhile.symm, fun hmem => ?_, ?_⟩
  · have hnot := List.mem_takeWhile_imp hmem
    simp at hnot
  · have hhead := List.head_dropWhile_not (· != '(') hne
    rw [List.head?_eq_some_head hne]
    simpa using hhead

namespace Row

variable {row : Row}

theorem IsHeader.eq {m n : WrittenMethod} (hm : row.IsHeader m) (hn : row.IsHeader n) :
    m.flags = n.flags ∧ m.name = n.name ∧ m.descriptor = n.descriptor ∧
      m.position = n.position := by
  obtain ⟨flags, hflags, hmflags⟩ := hm.flags
  obtain ⟨flags', hflags', hnflags⟩ := hn.flags
  have hunique : Relator.RightUnique fun (word : Token) flag =>
      AccessFlag.ofKeyword? word.text = some flag :=
    fun _ _ _ hflag hflag' => Option.some.inj (hflag.symm.trans hflag')
  obtain rfl := List.right_unique_forall₂' hunique hflags hflags'
  obtain ⟨signature, hlast, hm'⟩ := hm.signature
  obtain ⟨signature', hlast', hn'⟩ := hn.signature
  obtain rfl : signature = signature' := Option.some.inj (hlast.symm.trans hlast')
  have hsplit : (m.name.toList, m.descriptor.toList) = (n.name.toList, n.descriptor.toList) := by
    rw [← span_signature hm.name hm.descriptor, ← span_signature hn.name hn.descriptor,
      ← String.toList_append, ← String.toList_append, ← hm', ← hn']
  obtain ⟨hname, hdescriptor⟩ := Prod.mk.inj hsplit
  exact ⟨hmflags.trans hnflags.symm, String.ext hname, String.ext hdescriptor,
    hm.position.trans hn.position.symm⟩

theorem IsHeader.hasHeader {m : WrittenMethod} (h : row.IsHeader m) : row.HasHeader := by
  obtain ⟨flags, hflags, _⟩ := h.flags
  obtain ⟨signature, hlast, htext⟩ := h.signature
  refine ⟨fun word hword => ?_, signature, hlast, ?_⟩
  · obtain ⟨flag, _, hflag⟩ := exists_of_mem_right (List.Forall₂.flip hflags) hword
    exact Option.isSome_iff_exists.mpr ⟨flag, hflag⟩
  · obtain ⟨rest, hdescriptor⟩ := List.head?_eq_some_iff.mp h.descriptor
    rw [htext, String.toList_append, hdescriptor]
    exact List.mem_append_right _ List.mem_cons_self

/-- A signature that is cut in front of its first parenthesis. -/
theorem isHeader_of_span {flags : List AccessFlag} {signature : Token} {name descriptor : List Char}
    (hflags : List.Forall₂ (fun word flag => AccessFlag.ofKeyword? word.text = some flag)
      row.rest.dropLast flags)
    (hlast : row.rest.getLast? = some signature)
    (hspan : signature.text.toList.span (· != '(') = (name, descriptor)) (hne : descriptor ≠ [])
    (owner : BinaryName) :
    row.IsHeader
      ⟨owner, .ofList flags, .ofList name, .ofList descriptor, row.first.position, []⟩ := by
  obtain ⟨htext, hname, hdescriptor⟩ := signature_of_span hspan hne
  refine ⟨⟨flags, hflags, rfl⟩, ⟨signature, hlast, ?_⟩, ?_, ?_, rfl⟩
  · rw [← String.ofList_append, ← htext, String.ofList_toList]
  · rwa [String.toList_ofList]
  · rwa [String.toList_ofList]

theorem HasHeader.exists_isHeader (h : row.HasHeader) (owner : BinaryName) :
    ∃ m, row.IsHeader m ∧ m.owner = owner ∧ m.body = [] := by
  obtain ⟨hwords, signature, hlast, hmem⟩ := h
  have hflags : ∃ flags, List.Forall₂
      (fun word flag => AccessFlag.ofKeyword? word.text = some flag) row.rest.dropLast flags := by
    generalize row.rest.dropLast = words at hwords
    induction words with
    | nil => exact ⟨[], .nil⟩
    | cons word words ih =>
        obtain ⟨flag, hflag⟩ := Option.isSome_iff_exists.mp (hwords word List.mem_cons_self)
        obtain ⟨flags, hrest⟩ := ih fun other hother => hwords other (List.mem_cons_of_mem _ hother)
        exact ⟨flag :: flags, .cons hflag hrest⟩
  obtain ⟨flags, hflags⟩ := hflags
  obtain ⟨name, descriptor, hspan⟩ :
      ∃ name descriptor, signature.text.toList.span (· != '(') = (name, descriptor) := ⟨_, _, rfl⟩
  have hne : descriptor ≠ [] := by
    rintro rfl
    rw [List.span_eq_takeWhile_dropWhile, Prod.mk.injEq, List.dropWhile_eq_nil_iff] at hspan
    have hnot := hspan.2 '(' hmem
    simp at hnot
  exact ⟨_, isHeader_of_span hflags hlast hspan hne owner, rfl, rfl⟩

theorem IsHeader.withBody {m : WrittenMethod} (h : row.IsHeader m) (body : List Statement) :
    row.IsHeader { m with body := body } :=
  ⟨h.flags, h.signature, h.name, h.descriptor, h.position⟩

theorem IsStatement.eq {s t : Statement} (hs : row.IsStatement s) (ht : row.IsStatement t) :
    s = t := by
  cases s with
  | label name position =>
      obtain ⟨hrest, hquoted, htext, rfl⟩ := hs
      cases t with
      | label name' position' =>
          obtain ⟨_, _, htext', rfl⟩ := ht
          have hname : name = name' := by
            have happend := congrArg String.toList (htext.symm.trans htext')
            rw [String.toList_append, String.toList_append] at happend
            exact String.ext (List.append_cancel_right happend)
          rw [hname]
      | instruction insn => exact absurd ⟨hrest, hquoted, name, htext⟩ ht.1
  | instruction insn =>
      obtain ⟨hlabel, hinsn⟩ := hs
      cases t with
      | label name position =>
          obtain ⟨hrest, hquoted, htext, _⟩ := ht
          exact absurd ⟨hrest, hquoted, name, htext⟩ hlabel
      | instruction insn' =>
          obtain rfl : insn = insn' := Except.ok.inj (hinsn.symm.trans ht.2)
          rfl

end Row

namespace Listing

variable {rows : List Row}

theorem IsMethodAt.eq {i : Nat} {m n : WrittenMethod} (hm : IsMethodAt rows i m)
    (hn : IsMethodAt rows i n) : m = n := by
  obtain ⟨row, hrow, hheader⟩ := hm.header
  obtain ⟨row', hrow', hheader'⟩ := hn.header
  obtain rfl : row = row' := Option.some.inj (hrow.symm.trans hrow')
  obtain ⟨hflags, hname, hdescriptor, hposition⟩ := hheader.eq hheader'
  have howner : m.owner = n.owner := Option.some.inj (hm.owner.symm.trans hn.owner)
  have hbody : m.body = n.body :=
    List.right_unique_forall₂' (fun _ _ _ hs ht => hs.eq ht) hm.body hn.body
  cases m
  cases n
  cases howner
  cases hflags
  cases hname
  cases hdescriptor
  cases hposition
  cases hbody
  rfl

variable {row : Row} {i : Nat}

theorem openings_append (rows : List Row) (row : Row) :
    openings (rows ++ [row]) =
      openings rows ++ if row.kind = .opening then [rows.length] else [] := by
  have hold : ∀ i ∈ List.range rows.length,
      ((rows ++ [row])[i]?.any fun row => row.kind = .opening) =
        rows[i]?.any fun row => row.kind = .opening := by
    intro i hi
    rw [List.getElem?_append_left (List.mem_range.mp hi)]
  rw [openings, List.length_append, List.length_singleton, List.range_succ, List.filter_append,
    List.filter_congr hold, ← openings]
  by_cases h : row.kind = .opening <;> simp [h]

theorem latestOwner?_append (rows : List Row) (row : Row) :
    latestOwner? (rows ++ [row]) =
      if row.kind = .owner then row.className? else latestOwner? rows := by
  rw [latestOwner?, List.filter_append, List.getLast?_append]
  by_cases h : row.kind = .owner <;> simp [h, latestOwner?]

/-- Nothing is added behind the line that closes a method. -/
theorem bodyRows_append_of_closed (hi : i < rows.length)
    (h : ∃ closing ∈ rows.drop (i + 1), closing.kind = .closing) :
    bodyRows (rows ++ [row]) i = bodyRows rows i := by
  obtain ⟨closing, hclosing, hkind⟩ := h
  rw [bodyRows, List.drop_append_of_le_length hi, List.takeWhile_append, if_neg, ← bodyRows]
  intro hlength
  have hall := List.takeWhile_prefix _ |>.eq_of_length hlength
  have hmem : closing ∈ (rows.drop (i + 1)).takeWhile fun row => row.kind ≠ .closing := by
    rw [hall]
    exact hclosing
  have hnot := List.mem_takeWhile_imp hmem
  simp [hkind] at hnot

theorem bodyRows_append_of_open (hi : i < rows.length)
    (h : ∀ row ∈ rows.drop (i + 1), row.kind ≠ .closing) :
    bodyRows (rows ++ [row]) i =
      bodyRows rows i ++ if row.kind = .statement then [row] else [] := by
  have hopen : ∀ row ∈ rows.drop (i + 1), decide (row.kind ≠ .closing) = true := by
    simpa using h
  have hall : (rows.drop (i + 1)).takeWhile (fun row => row.kind ≠ .closing) =
      rows.drop (i + 1) := by
    exact List.takeWhile_eq_self_iff.mpr hopen
  rw [bodyRows, List.drop_append_of_le_length hi, List.takeWhile_append_of_pos hopen,
    List.filter_append, bodyRows, hall]
  cases hkind : row.kind <;> simp [hkind]

theorem IsMethodAt.lt_length {m : WrittenMethod} (h : IsMethodAt rows i m) : i < rows.length := by
  obtain ⟨_, hrow, _⟩ := h.header
  exact (List.getElem?_eq_some_iff.mp hrow).1

/-- Each of some lines follows those before it, of which there may be others. -/
def Continues (before rows : List Row) : Prop :=
  ∀ i row, rows[i]? = some row → Follows (before ++ rows.take i) row

theorem continues_cons {before : List Row} :
    Continues before (row :: rows) ↔ Follows before row ∧ Continues (before ++ [row]) rows := by
  constructor
  · intro h
    refine ⟨by simpa using h 0 row rfl, fun i later hlater => ?_⟩
    simpa using h (i + 1) later hlater
  · rintro ⟨hfirst, hrest⟩ i later hlater
    cases i with
    | zero =>
        cases hlater
        simpa using hfirst
    | succ i => simpa using hrest i later hlater

theorem continues_toList_append {before : List Row} {found : Option Row} :
    Continues before (found.toList ++ rows) ↔
      (∀ row, found = some row → Follows before row) ∧
        Continues (before ++ found.toList) rows := by
  cases found with
  | none => simp
  | some row =>
      rw [Option.toList_some, List.singleton_append, continues_cons]
      simp

theorem filterMap_placed (start : LineStart) (chars : List Char) (lines : List (List Char)) :
    (placed start (chars :: lines)).filterMap row? =
      (row? (start, chars)).toList ++ (placed (after start chars) lines).filterMap row? := by
  rw [placed, List.filterMap_cons]
  cases row? (start, chars) <;> rfl

/-- Only the body of a method can change with a line after it. -/
theorem IsMethodAt.append {m : WrittenMethod} (h : IsMethodAt rows i m) {body : List Statement}
    (hbody : List.Forall₂ Row.IsStatement (bodyRows (rows ++ [row]) i) body) :
    IsMethodAt (rows ++ [row]) i { m with body := body } := by
  have hi := h.lt_length
  obtain ⟨opening, hopening, hheader⟩ := h.header
  refine ⟨⟨opening, ?_, hheader.withBody body⟩, ?_, hbody⟩
  · rw [List.getElem?_append_left hi, hopening]
  · rw [List.take_append_of_le_length (Nat.le_of_lt hi), h.owner]

end Listing

end JvmAssembler
