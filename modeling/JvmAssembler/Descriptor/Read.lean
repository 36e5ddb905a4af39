import JvmAssembler.Descriptor.Basic

/-! Each reader takes a descriptor off the front of a text and returns the rest. A whole text is a
descriptor if nothing is left. -/

namespace JvmAssembler

/-- Why a text is no descriptor. -/
inductive DescriptorError where
  | leftover (c : Char)
  | badBase (c : Char)
  | missingBase
  | unterminated (name : String)
  | notObject
  | badReference (c : Char)
  | missingReference
  | missingField
  | badField (c : Char)
  | notMethod
  | badName (cause : NameError)
deriving DecidableEq, Repr

namespace DescriptorError

def message : DescriptorError → String
  | leftover c => s!"Unexpected leftover input '{c}'"
  | badBase c => s!"Invalid base type character '{c}'"
  | missingBase => "Missing base type character"
  | unterminated name => s!"Missing terminator for 'L{name}'"
  | notObject => "Expected object type to start with `L`"
  | badReference c => s!"Invalid reference type character '{c}'"
  | missingReference => "Missing reference type"
  | missingField => "Missing field type"
  | badField c => s!"Invalid field type character '{c}'"
  | notMethod => "Expected '(' for method"
  | badName cause => cause.message

/-- Did the text end too early? -/
def isTruncation : DescriptorError → Bool
  | missingBase | unterminated _ | missingReference | missingField => true
  | _ => false

end DescriptorError

/-- A reader takes a value off the front of a text. -/
abbrev DescriptorReader (α : Type) := List Char → Except DescriptorError (α × List Char)

/-- The value of a whole text. -/
def DescriptorReader.whole {α : Type} (read : DescriptorReader α) (text : String) :
    Except DescriptorError α :=
  match read text.toList with
  | .error e => .error e
  | .ok (value, []) => .ok value
  | .ok (_, c :: _) => .error (.leftover c)

def BaseType.read : DescriptorReader BaseType
  | [] => .error .missingBase
  | c :: rest =>
    match BaseType.ofLetter? c with
    | some type => .ok (type, rest)
    | none => .error (.badBase c)

/-- A binary name between `L` and a semicolon. -/
def BinaryName.read : DescriptorReader BinaryName
  | 'L' :: rest =>
    let name := String.ofList (rest.takeWhile (· != ';'))
    match rest.dropWhile (· != ';') with
    | [] => .error (.unterminated name)
    | _ :: after =>
      match BinaryName.ofString name with
      | .ok name => .ok (name, after)
      | .error cause => .error (.badName cause)
  | _ => .error .notObject

def ElementType.read : DescriptorReader ElementType
  | 'L' :: rest => (BinaryName.read ('L' :: rest)).map fun (name, after) => (.object name, after)
  | text => (BaseType.read text).map fun (type, after) => (.base type, after)

def RefType.read : DescriptorReader RefType
  | [] => .error .missingReference
  | 'L' :: rest => (BinaryName.read ('L' :: rest)).map fun (name, after) => (.object name, after)
  | '[' :: rest =>
    let extra := (rest.takeWhile (· == '[')).length
    (ElementType.read (rest.dropWhile (· == '['))).map fun (element, after) =>
      (.array element extra, after)
  | c :: _ => .error (.badReference c)

def FieldType.read : DescriptorReader FieldType
  | [] => .error .missingField
  | c :: rest =>
    if c = 'L' ∨ c = '[' then
      (RefType.read (c :: rest)).map fun (type, after) => (.ref type, after)
    else
      match BaseType.ofLetter? c with
      | some type => .ok (.base type, rest)
      | none => .error (.badField c)

theorem length_dropWhile_le {α : Type} (p : α → Bool) (l : List α) :
    (l.dropWhile p).length ≤ l.length :=
  (List.dropWhile_suffix p).length_le

theorem BaseType.length_lt_of_read {text after : List Char} {type : BaseType}
    (h : BaseType.read text = .ok (type, after)) : after.length < text.length := by
  unfold BaseType.read at h
  split at h
  · cases h
  · split at h <;> cases h
    simp

theorem BinaryName.length_lt_of_read {text after : List Char} {name : BinaryName}
    (h : BinaryName.read text = .ok (name, after)) : after.length < text.length := by
  unfold BinaryName.read at h
  split at h
  · rename_i rest
    dsimp only at h
    have hle := length_dropWhile_le (· != ';') rest
    split at h
    · cases h
    · rename_i heq
      split at h
      · simp only [Except.ok.injEq, Prod.mk.injEq] at h
        rw [heq] at hle
        simp only [List.length_cons] at hle ⊢
        rw [← h.2]
        omega
      · cases h
  · cases h

theorem exists_of_map_eq_ok {ε α β : Type} {f : α → β} {x : Except ε α} {b : β}
    (h : x.map f = .ok b) : ∃ a, x = .ok a ∧ f a = b := by
  cases x with
  | error e => cases h
  | ok a => exact ⟨a, rfl, by simpa [Except.map] using h⟩

theorem ElementType.length_lt_of_read {text after : List Char} {type : ElementType}
    (h : ElementType.read text = .ok (type, after)) : after.length < text.length := by
  unfold ElementType.read at h
  split at h
  · obtain ⟨⟨name, rest⟩, hread, heq⟩ := exists_of_map_eq_ok h
    simp only [Prod.mk.injEq] at heq
    exact heq.2 ▸ BinaryName.length_lt_of_read hread
  · obtain ⟨⟨base, rest⟩, hread, heq⟩ := exists_of_map_eq_ok h
    simp only [Prod.mk.injEq] at heq
    exact heq.2 ▸ BaseType.length_lt_of_read hread

theorem RefType.length_lt_of_read {text after : List Char} {type : RefType}
    (h : RefType.read text = .ok (type, after)) : after.length < text.length := by
  unfold RefType.read at h
  split at h
  · cases h
  · obtain ⟨⟨name, rest⟩, hread, heq⟩ := exists_of_map_eq_ok h
    simp only [Prod.mk.injEq] at heq
    exact heq.2 ▸ BinaryName.length_lt_of_read hread
  · rename_i rest
    obtain ⟨⟨element, left⟩, hread, heq⟩ := exists_of_map_eq_ok h
    simp only [Prod.mk.injEq] at heq
    have hlt := ElementType.length_lt_of_read hread
    have hle := length_dropWhile_le (· == '[') rest
    rw [← heq.2]
    simp only [List.length_cons]
    omega
  · cases h

/-- A field type takes one character at least. -/
theorem FieldType.length_lt_of_read {text after : List Char} {type : FieldType}
    (h : FieldType.read text = .ok (type, after)) : after.length < text.length := by
  unfold FieldType.read at h
  split at h
  · cases h
  · split at h
    · obtain ⟨⟨ref, rest⟩, hread, heq⟩ := exists_of_map_eq_ok h
      simp only [Prod.mk.injEq] at heq
      exact heq.2 ▸ RefType.length_lt_of_read hread
    · split at h <;> cases h
      simp

/-- Parameter types up to the closing parenthesis, after those already read, which are listed last
first. -/
def MethodDescriptor.readParameters (before : List FieldType) (text : List Char) :
    Except DescriptorError (List FieldType × List Char) :=
  match text with
  | ')' :: rest => .ok (before.reverse, rest)
  | text =>
    match _h : FieldType.read text with
    | .ok (type, rest) => readParameters (type :: before) rest
    | .error e => .error e
termination_by text.length
decreasing_by exact FieldType.length_lt_of_read _h

def MethodDescriptor.read : DescriptorReader MethodDescriptor
  | '(' :: rest =>
    match MethodDescriptor.readParameters [] rest with
    | .error e => .error e
    | .ok (parameters, 'V' :: after) => .ok (⟨parameters, none⟩, after)
    | .ok (parameters, after) =>
      (FieldType.read after).map fun (type, rest) => (⟨parameters, some type⟩, rest)
  | _ => .error .notMethod

def BaseType.ofString : String → Except DescriptorError BaseType :=
  DescriptorReader.whole BaseType.read

/-- The class whose descriptor is the text. -/
def BinaryName.ofDescriptor : String → Except DescriptorError BinaryName :=
  DescriptorReader.whole BinaryName.read

def RefType.ofString : String → Except DescriptorError RefType :=
  DescriptorReader.whole RefType.read

def FieldType.ofString : String → Except DescriptorError FieldType :=
  DescriptorReader.whole FieldType.read

def MethodDescriptor.ofString : String → Except DescriptorError MethodDescriptor :=
  DescriptorReader.whole MethodDescriptor.read

/-- The type that a class constant names. -/
def RefType.ofClassName (name : String) : Except DescriptorError RefType :=
  match name.toList with
  | '[' :: _ => RefType.ofString name
  | _ =>
    match BinaryName.ofString name with
    | .ok name => .ok (.object name)
    | .error cause => .error (.badName cause)

end JvmAssembler
