import JvmAssembler.Proofs.Descriptor.RoundTrip
import Mathlib.Logic.Function.Basic

/-! Class names and descriptors as languages, told by their productions alone: neither types nor
readers occur in them. The texts of these languages are the spellings of types, and each reader
accepts exactly the texts of its language, as the type that spells them. So reading and writing are
inverse to each other in both directions. -/

namespace JvmAssembler

/-- What stands between the slashes of a class name. -/
def IsNamePart (part : List Char) : Prop :=
  part ≠ [] ∧ ∀ c ∈ part, c ∉ ['.', ';', '[', '/', '<', '>']

inductive IsClassName : List Char → Prop where
  | part {name : List Char} (h : IsNamePart name) : IsClassName name
  | package {name rest : List Char} (h : IsNamePart name) (hrest : IsClassName rest) :
    IsClassName (name ++ '/' :: rest)

inductive IsFieldDescriptor : List Char → Prop where
  | base {c : Char} (h : c ∈ ['B', 'C', 'D', 'F', 'I', 'J', 'S', 'Z']) : IsFieldDescriptor [c]
  | object {name : List Char} (h : IsClassName name) : IsFieldDescriptor ('L' :: name ++ [';'])
  | array {element : List Char} (h : IsFieldDescriptor element) : IsFieldDescriptor ('[' :: element)

/-- Field descriptors with nothing between them. -/
inductive AreParameters : List Char → Prop where
  | nil : AreParameters []
  | cons {first rest : List Char} (h : IsFieldDescriptor first) (hrest : AreParameters rest) :
    AreParameters (first ++ rest)

inductive IsMethodDescriptor : List Char → Prop where
  | void {parameters : List Char} (h : AreParameters parameters) :
    IsMethodDescriptor ('(' :: parameters ++ [')', 'V'])
  | value {parameters type : List Char} (h : AreParameters parameters)
    (htype : IsFieldDescriptor type) : IsMethodDescriptor ('(' :: parameters ++ ')' :: type)

/-- What a class constant may name: a class, or an array by its descriptor. -/
inductive IsClassConstant : List Char → Prop where
  | object {name : List Char} (h : IsClassName name) : IsClassConstant name
  | array {element : List Char} (h : IsFieldDescriptor element) : IsClassConstant ('[' :: element)

theorem parts_of_not_mem {separator : Char} {text : List Char} (h : separator ∉ text) :
    parts separator text = [text] := by
  induction text with
  | nil => rfl
  | cons c text ih =>
      rw [List.mem_cons, not_or] at h
      rw [parts_cons, if_neg (Ne.symm h.1), ih h.2]

theorem parts_append {separator : Char} {part : List Char} (h : separator ∉ part)
    (rest : List Char) :
    parts separator (part ++ separator :: rest) = part :: parts separator rest := by
  induction part with
  | nil => rw [List.nil_append, parts_cons, if_pos rfl]
  | cons c part ih =>
      rw [List.mem_cons, not_or] at h
      rw [List.cons_append, parts_cons, if_neg (Ne.symm h.1), ih h.2]

theorem IsNamePart.not_mem {part : List Char} (h : IsNamePart part) {c : Char}
    (hc : c ∈ ['.', ';', '[', '/', '<', '>']) : c ∉ part := fun hmem => h.2 c hmem hc

/-- Without angle brackets, an unqualified name is a part of a class name. -/
theorem UnqualifiedName.fault?_eq_none_iff {part : List Char}
    (hangle : ∀ c ∈ part, isAngleBracket c = false) : fault? part = none ↔ IsNamePart part := by
  have hany : part.any isAngleBracket = false := List.any_eq_false.mpr fun c hc => by
    simp [hangle c hc]
  have hchars : part.any isNameDelimiter = false ↔
      ∀ c ∈ part, c ∉ ['.', ';', '[', '/', '<', '>'] := by
    rw [List.any_eq_false]
    refine forall₂_congr fun c hc => ?_
    have hc := hangle c hc
    simp only [isAngleBracket, Bool.or_eq_false_iff, beq_eq_false_iff_ne] at hc
    simp [isNameDelimiter, hc, and_assoc]
  unfold fault? IsNamePart
  rw [← hchars, hany]
  cases part <;> simp

theorem IsNamePart.isAngleBracket_eq_false {part : List Char} (h : IsNamePart part) :
    ∀ c ∈ part, isAngleBracket c = false := by
  intro c hc
  have hc := h.2 c hc
  simp only [List.mem_cons, not_or] at hc
  simp [isAngleBracket, hc]

namespace BinaryName

theorem fault?_eq_none_iff_parts {text : List Char} :
    fault? text = none ↔ text ≠ [] ∧ (∀ c ∈ text, isAngleBracket c = false) ∧
      ∀ part ∈ parts '/' text, UnqualifiedName.fault? part = none := by
  unfold fault?
  by_cases hempty : text = []
  · simp [hempty]
  · by_cases hangle : text.any isAngleBracket = true
    · have hsome : ∃ c ∈ text, isAngleBracket c = true := List.any_eq_true.mp hangle
      simpa [hempty, hangle] using fun h => absurd hsome (by simpa using h)
    · rw [if_neg (by simpa using hempty), if_neg hangle, List.findSome?_eq_none_iff]
      rw [Bool.not_eq_true, List.any_eq_false] at hangle
      simp only [Bool.not_eq_true] at hangle
      exact ⟨fun h => ⟨hempty, hangle, h⟩, fun h => h.2.2⟩

/-- A name without a fault is taken apart at its first slash. -/
theorem isClassName_of_fault? {text : List Char} (h : fault? text = none) : IsClassName text := by
  obtain ⟨-, hangle, hparts⟩ := fault?_eq_none_iff_parts.mp h
  clear h
  induction hlength : text.length using Nat.strongRecOn generalizing text with
  | ind n ih =>
      by_cases hslash : '/' ∈ text
      · obtain ⟨name, rest, rfl, hname⟩ := List.eq_append_cons_of_mem hslash
        simp only [List.mem_append, List.mem_cons] at hangle
        rw [parts_append hname, List.forall_mem_cons] at hparts
        have hfirst : IsNamePart name :=
          (UnqualifiedName.fault?_eq_none_iff fun c hc => hangle c (.inl hc)).mp hparts.1
        refine .package hfirst (ih rest.length ?_ ?_ hparts.2 rfl)
        · simp only [← hlength, List.length_append, List.length_cons]
          omega
        · exact fun c hc => hangle c (.inr (.inr hc))
      · rw [parts_of_not_mem hslash, List.forall_mem_singleton] at hparts
        exact .part ((UnqualifiedName.fault?_eq_none_iff hangle).mp hparts)

/-- Valid binary names are the class names of the grammar. -/
theorem fault?_eq_none_iff {text : List Char} : fault? text = none ↔ IsClassName text := by
  refine ⟨isClassName_of_fault?, fun h => fault?_eq_none_iff_parts.mpr ?_⟩
  induction h with
  | part h =>
      have hangle := h.isAngleBracket_eq_false
      rw [parts_of_not_mem (h.not_mem (by simp)), List.forall_mem_singleton]
      exact ⟨h.1, hangle, (UnqualifiedName.fault?_eq_none_iff hangle).mpr h⟩
  | @package name rest h _ ih =>
      have hangle := h.isAngleBracket_eq_false
      obtain ⟨-, hrest, hparts⟩ := ih
      rw [parts_append (h.not_mem (by simp)), List.forall_mem_cons]
      refine ⟨by simp, fun c hc => ?_, (UnqualifiedName.fault?_eq_none_iff hangle).mpr h, hparts⟩
      rcases List.mem_append.mp hc with hc | hc
      · exact hangle c hc
      · rcases List.mem_cons.mp hc with rfl | hc
        · decide
        · exact hrest c hc

theorem ofString_eq_ok_iff {text : String} {name : BinaryName} :
    ofString text = .ok name ↔ name.text = text := by
  constructor
  · intro h
    unfold ofString at h
    split at h
    · cases h
      rfl
    · cases h
  · rintro rfl
    exact ofString_text name

end BinaryName

theorem BinaryName.eq_of_read {text after : List Char} {name : BinaryName}
    (h : BinaryName.read text = .ok (name, after)) : text = name.descriptor ++ after := by
  unfold BinaryName.read at h
  split at h
  · rename_i rest
    dsimp only at h
    split at h
    · cases h
    · rename_i c tail hdrop
      split at h
      · rename_i found hfound
        simp only [Except.ok.injEq, Prod.mk.injEq] at h
        obtain ⟨rfl, rfl⟩ := h
        have hc : c = ';' := by
          have hhead := List.head?_dropWhile_not (· != ';') rest
          rw [hdrop] at hhead
          simpa using hhead
        calc 'L' :: rest
            = 'L' :: (rest.takeWhile (· != ';') ++ rest.dropWhile (· != ';')) := by
              rw [List.takeWhile_append_dropWhile]
          _ = found.descriptor ++ tail := by
              rw [hdrop, hc, descriptor, ofString_eq_ok_iff.mp hfound, String.toList_ofList]
              simp
      · cases h
  · cases h

theorem BaseType.eq_of_read {text after : List Char} {type : BaseType}
    (h : BaseType.read text = .ok (type, after)) : text = type.letter :: after := by
  unfold BaseType.read at h
  split at h
  · cases h
  · split at h
    · rename_i hletter
      simp only [Except.ok.injEq, Prod.mk.injEq] at h
      obtain ⟨rfl, rfl⟩ := h
      rw [letter_of_ofLetter? hletter]
    · cases h

theorem ElementType.eq_of_read {text after : List Char} {type : ElementType}
    (h : ElementType.read text = .ok (type, after)) : text = type.descriptor ++ after := by
  unfold ElementType.read at h
  split at h
  · obtain ⟨⟨name, rest⟩, hread, heq⟩ := exists_of_map_eq_ok h
    cases heq
    exact BinaryName.eq_of_read hread
  · obtain ⟨⟨base, rest⟩, hread, heq⟩ := exists_of_map_eq_ok h
    cases heq
    exact BaseType.eq_of_read hread

theorem RefType.eq_of_read {text after : List Char} {type : RefType}
    (h : RefType.read text = .ok (type, after)) : text = type.descriptor ++ after := by
  unfold RefType.read at h
  split at h
  · cases h
  · obtain ⟨⟨name, rest⟩, hread, heq⟩ := exists_of_map_eq_ok h
    cases heq
    exact BinaryName.eq_of_read hread
  · rename_i rest
    obtain ⟨⟨element, left⟩, hread, heq⟩ := exists_of_map_eq_ok h
    cases heq
    have hbrackets : rest.takeWhile (· == '[') =
        List.replicate (rest.takeWhile (· == '[')).length '[' :=
      List.eq_replicate_iff.mpr ⟨rfl, fun c hc => by
        simpa using List.all_eq_true.mp List.all_takeWhile c hc⟩
    calc '[' :: rest
        = '[' :: (rest.takeWhile (· == '[') ++ rest.dropWhile (· == '[')) := by
          rw [List.takeWhile_append_dropWhile]
      _ = '[' :: (rest.takeWhile (· == '[') ++ (element.descriptor ++ after)) := by
          rw [ElementType.eq_of_read hread]
      _ = (array element (rest.takeWhile (· == '[')).length).descriptor ++ after := by
          rw [descriptor, List.replicate_succ, ← hbrackets, List.cons_append, List.cons_append,
            List.append_assoc]
  · cases h

theorem FieldType.eq_of_read {text after : List Char} {type : FieldType}
    (h : FieldType.read text = .ok (type, after)) : text = type.descriptor ++ after := by
  unfold FieldType.read at h
  split at h
  · cases h
  · split at h
    · obtain ⟨⟨ref, rest⟩, hread, heq⟩ := exists_of_map_eq_ok h
      cases heq
      exact RefType.eq_of_read hread
    · split at h
      · rename_i hletter
        cases h
        rw [descriptor, BaseType.letter_of_ofLetter? hletter]
        rfl
      · cases h

namespace MethodDescriptor

theorem eq_of_readParameters {before parameters : List FieldType} {text after : List Char}
    (h : readParameters before text = .ok (parameters, after)) :
    ∃ types, parameters = before.reverse ++ types ∧
      text = types.flatMap FieldType.descriptor ++ ')' :: after := by
  fun_induction readParameters before text with
  | case1 before rest =>
      cases h
      exact ⟨[], by simp, rfl⟩
  | case2 before text _ type rest hread ih =>
      obtain ⟨types, hparameters, hrest⟩ := ih h
      refine ⟨type :: types, by simp [hparameters], ?_⟩
      rw [FieldType.eq_of_read hread, hrest, List.flatMap_cons, List.append_assoc]
  | case3 => cases h

theorem eq_of_read {text after : List Char} {d : MethodDescriptor}
    (h : MethodDescriptor.read text = .ok (d, after)) : text = d.descriptor ++ after := by
  unfold MethodDescriptor.read at h
  split at h
  · split at h
    · cases h
    · rename_i parameters rest hparameters
      cases h
      obtain ⟨types, rfl, htext⟩ := eq_of_readParameters hparameters
      simp [htext, descriptor]
    · rename_i parameters rest _ hparameters
      obtain ⟨⟨type, left⟩, hread, heq⟩ := exists_of_map_eq_ok h
      cases heq
      obtain ⟨types, rfl, htext⟩ := eq_of_readParameters hparameters
      rw [htext, FieldType.eq_of_read hread]
      simp [descriptor]
  · cases h

end MethodDescriptor

/-! ### Whole texts -/

theorem DescriptorReader.read_of_whole {α : Type} {read : DescriptorReader α} {text : String}
    {value : α} (h : DescriptorReader.whole read text = .ok value) :
    read text.toList = .ok (value, []) := by
  unfold whole at h
  split at h
  · cases h
  · rename_i hread
    cases h
    exact hread
  · cases h

theorem FieldType.ofString_eq_ok_iff {text : String} {type : FieldType} :
    FieldType.ofString text = .ok type ↔ type.text = text := by
  constructor
  · intro h
    have htext := FieldType.eq_of_read (DescriptorReader.read_of_whole h)
    rw [FieldType.text, ← List.append_nil type.descriptor, ← htext, String.ofList_toList]
  · rintro rfl
    exact ofString_text type

theorem MethodDescriptor.ofString_eq_ok_iff {text : String} {d : MethodDescriptor} :
    MethodDescriptor.ofString text = .ok d ↔ d.text = text := by
  constructor
  · intro h
    have htext := MethodDescriptor.eq_of_read (DescriptorReader.read_of_whole h)
    rw [MethodDescriptor.text, ← List.append_nil d.descriptor, ← htext, String.ofList_toList]
  · rintro rfl
    exact ofString_text d

theorem RefType.ofClassName_eq_ok_iff {name : String} {type : RefType} :
    RefType.ofClassName name = .ok type ↔ type.className = name := by
  constructor
  · intro h
    unfold ofClassName at h
    split at h
    · rename_i rest hname
      have htext := RefType.eq_of_read (DescriptorReader.read_of_whole h)
      rw [List.append_nil] at htext
      cases type with
      | object owner =>
          rw [htext] at hname
          cases hname
      | array element extra => rw [className, text, ← htext, String.ofList_toList]
    · split at h
      · rename_i found hfound
        cases h
        exact BinaryName.ofString_eq_ok_iff.mp hfound
      · cases h
  · rintro rfl
    exact ofClassName_className type

theorem isClassName_text (name : BinaryName) : IsClassName name.text.toList :=
  BinaryName.fault?_eq_none_iff.mp name.valid

theorem IsClassName.exists_name {name : List Char} (h : IsClassName name) :
    ∃ owner : BinaryName, owner.text.toList = name := by
  have hvalid : BinaryName.fault? (String.ofList name).toList = none := by
    rw [String.toList_ofList]
    exact BinaryName.fault?_eq_none_iff.mpr h
  exact ⟨⟨String.ofList name, hvalid⟩, String.toList_ofList⟩

theorem BaseType.isFieldDescriptor (type : BaseType) : IsFieldDescriptor [type.letter] :=
  .base (by cases type <;> decide)

theorem ElementType.isFieldDescriptor (type : ElementType) : IsFieldDescriptor type.descriptor := by
  cases type with
  | base type => exact type.isFieldDescriptor
  | object name => exact .object (isClassName_text name)

theorem RefType.isFieldDescriptor (type : RefType) : IsFieldDescriptor type.descriptor := by
  cases type with
  | object name => exact .object (isClassName_text name)
  | array element extra =>
      rw [descriptor]
      induction extra with
      | zero => exact .array element.isFieldDescriptor
      | succ extra ih => exact .array ih

theorem FieldType.isFieldDescriptor (type : FieldType) : IsFieldDescriptor type.descriptor := by
  cases type with
  | base type => exact type.isFieldDescriptor
  | ref type => exact type.isFieldDescriptor

theorem RefType.descriptor_arrayOf (type : FieldType) :
    (RefType.arrayOf type).descriptor = '[' :: type.descriptor := by
  rcases type with base | name | ⟨element, extra⟩ <;> rfl

theorem IsFieldDescriptor.exists_type {text : List Char} (h : IsFieldDescriptor text) :
    ∃ type : FieldType, type.descriptor = text := by
  induction h with
  | @base c hc =>
      have hletter : ∃ type : BaseType, type.letter = c := by
        simp only [List.mem_cons, List.not_mem_nil, or_false] at hc
        rcases hc with rfl | rfl | rfl | rfl | rfl | rfl | rfl | rfl
        exacts [⟨.byte, rfl⟩, ⟨.char, rfl⟩, ⟨.double, rfl⟩, ⟨.float, rfl⟩, ⟨.int, rfl⟩, ⟨.long, rfl⟩,
          ⟨.short, rfl⟩, ⟨.boolean, rfl⟩]
      obtain ⟨type, rfl⟩ := hletter
      exact ⟨.base type, rfl⟩
  | object hname =>
      obtain ⟨owner, rfl⟩ := hname.exists_name
      exact ⟨.object owner, rfl⟩
  | array _ ih =>
      obtain ⟨element, rfl⟩ := ih
      exact ⟨.ref (.arrayOf element), RefType.descriptor_arrayOf element⟩

theorem areParameters_flatMap (types : List FieldType) :
    AreParameters (types.flatMap FieldType.descriptor) := by
  induction types with
  | nil => exact .nil
  | cons type types ih => exact .cons type.isFieldDescriptor ih

theorem AreParameters.exists_types {text : List Char} (h : AreParameters text) :
    ∃ types : List FieldType, types.flatMap FieldType.descriptor = text := by
  induction h with
  | nil => exact ⟨[], rfl⟩
  | cons h _ ih =>
      obtain ⟨type, rfl⟩ := h.exists_type
      obtain ⟨types, rfl⟩ := ih
      exact ⟨type :: types, rfl⟩

theorem MethodDescriptor.isMethodDescriptor (d : MethodDescriptor) :
    IsMethodDescriptor d.descriptor := by
  obtain ⟨parameters, returns⟩ := d
  cases returns with
  | none => exact .void (areParameters_flatMap parameters)
  | some type => exact .value (areParameters_flatMap parameters) type.isFieldDescriptor

theorem IsMethodDescriptor.exists_descriptor {text : List Char} (h : IsMethodDescriptor text) :
    ∃ d : MethodDescriptor, d.descriptor = text := by
  cases h with
  | void h =>
      obtain ⟨types, rfl⟩ := h.exists_types
      exact ⟨⟨types, none⟩, rfl⟩
  | value h htype =>
      obtain ⟨types, rfl⟩ := h.exists_types
      obtain ⟨type, rfl⟩ := htype.exists_type
      exact ⟨⟨types, some type⟩, rfl⟩

theorem RefType.isClassConstant (type : RefType) : IsClassConstant type.className.toList := by
  cases type with
  | object name => exact .object (isClassName_text name)
  | array element extra =>
      rw [className, text, String.toList_ofList]
      cases extra with
      | zero => exact .array element.isFieldDescriptor
      | succ extra => exact .array (array element extra).isFieldDescriptor

theorem IsClassConstant.exists_type {text : List Char} (h : IsClassConstant text) :
    ∃ type : RefType, type.className.toList = text := by
  cases h with
  | object h =>
      obtain ⟨owner, rfl⟩ := h.exists_name
      exact ⟨.object owner, rfl⟩
  | array h =>
      obtain ⟨element, rfl⟩ := h.exists_type
      refine ⟨.arrayOf element, ?_⟩
      have hname : (RefType.arrayOf element).className = (RefType.arrayOf element).text := by
        rcases element with base | name | ⟨element, extra⟩ <;> rfl
      rw [hname, RefType.text, String.toList_ofList, RefType.descriptor_arrayOf]

/-- Values are written as the texts of a language, each in one way, and read back from exactly these
texts. -/
structure Spells {α : Type} (write : α → String) (read : String → Except DescriptorError α)
    (language : List Char → Prop) : Prop where
  read_write : ∀ a, read (write a) = .ok a
  write_read : ∀ {text a}, read text = .ok a → write a = text
  accepts_iff : ∀ text, (∃ a, read text = .ok a) ↔ language text.toList
  injective : Function.Injective write

theorem spells_of_iff {α : Type} {write : α → String} {read : String → Except DescriptorError α}
    {language : List Char → Prop} (h : ∀ {text a}, read text = .ok a ↔ write a = text)
    (hwritten : ∀ a, language (write a).toList)
    (hexists : ∀ {text}, language text → ∃ a, (write a).toList = text) :
    Spells write read language where
  read_write := fun _ => h.mpr rfl
  write_read := h.mp
  accepts_iff := by
    intro text
    constructor
    · rintro ⟨a, ha⟩
      rw [← h.mp ha]
      exact hwritten a
    · intro htext
      obtain ⟨a, ha⟩ := hexists htext
      exact ⟨a, h.mpr (String.toList_inj.mp ha)⟩
  injective := by
    intro a b heq
    have hread := h.mpr heq
    rw [h.mpr rfl, Except.ok.injEq] at hread
    exact hread.symm

/-- **Descriptors read back.** Field types and method descriptors are read from the texts of the
grammar and from no others, each from the one text that it is written as, and so are the types that
class constants name. -/
theorem descriptors_spell_types :
    Spells FieldType.text FieldType.ofString IsFieldDescriptor ∧
      Spells MethodDescriptor.text MethodDescriptor.ofString IsMethodDescriptor ∧
      Spells RefType.className RefType.ofClassName IsClassConstant := by
  refine ⟨spells_of_iff FieldType.ofString_eq_ok_iff (fun type => ?_) fun h => ?_,
    spells_of_iff MethodDescriptor.ofString_eq_ok_iff (fun d => ?_) fun h => ?_,
    spells_of_iff RefType.ofClassName_eq_ok_iff RefType.isClassConstant
      IsClassConstant.exists_type⟩
  · rw [FieldType.text, String.toList_ofList]
    exact type.isFieldDescriptor
  · obtain ⟨type, rfl⟩ := h.exists_type
    exact ⟨type, String.toList_ofList⟩
  · rw [MethodDescriptor.text, String.toList_ofList]
    exact d.isMethodDescriptor
  · obtain ⟨d, rfl⟩ := h.exists_descriptor
    exact ⟨d, String.toList_ofList⟩

-- A class name may have parentheses and letters of primitive types in it.
example : (MethodDescriptor.ofString "([L)V;I)V").toOption.map (·.parameters.length) = some 2 := by
  decide +kernel

end JvmAssembler
