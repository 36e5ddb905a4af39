import JvmAssembler.Descriptor.Read

/-! Every type, method descriptor and name is what its text reads as: reading the descriptor of a
type off the front of a text gives the type and leaves the rest, and a class name gives the type it
names. -/

namespace JvmAssembler

theorem exists_mem_parts {separator c : Char} {text : List Char} (hmem : c ∈ text)
    (hne : c ≠ separator) : ∃ part ∈ parts separator text, c ∈ part := by
  induction text with
  | nil => cases hmem
  | cons d text ih =>
      rw [parts_cons]
      rcases List.mem_cons.mp hmem with rfl | htail
      · rw [if_neg hne]
        cases parts separator text with
        | nil => exact ⟨[c], by simp, by simp⟩
        | cons part others => exact ⟨c :: part, by simp, by simp⟩
      · obtain ⟨part, hpart, hc⟩ := ih htail
        by_cases hd : d = separator
        · rw [if_pos hd]
          exact ⟨part, List.mem_cons_of_mem _ hpart, hc⟩
        · rw [if_neg hd]
          cases hparts : parts separator text with
          | nil =>
              rw [hparts] at hpart
              cases hpart
          | cons first others =>
              rw [hparts] at hpart
              rcases List.mem_cons.mp hpart with rfl | hothers
              · exact ⟨d :: part, by simp, by simp [hc]⟩
              · exact ⟨part, by simp [hothers], hc⟩

namespace UnqualifiedName

theorem ofString_text (name : UnqualifiedName) : ofString name.text = .ok name := by
  unfold ofString
  split
  · rfl
  · rename_i fault h
    rw [name.valid] at h
    cases h

end UnqualifiedName

namespace BinaryName

theorem ofString_text (name : BinaryName) : ofString name.text = .ok name := by
  unfold ofString
  split
  · rfl
  · rename_i fault h
    rw [name.valid] at h
    cases h

/-- The only delimiter in a binary name is the slash. -/
theorem not_isNameDelimiter_of_mem (name : BinaryName) {c : Char} (hmem : c ∈ name.text.toList)
    (hne : c ≠ '/') : isNameDelimiter c = false := by
  have hvalid := name.valid
  unfold fault? at hvalid
  split at hvalid
  · cases hvalid
  · split at hvalid
    · cases hvalid
    · obtain ⟨part, hpart, hc⟩ := exists_mem_parts hmem hne
      have hfault := List.findSome?_eq_none_iff.mp hvalid part hpart
      unfold UnqualifiedName.fault? at hfault
      split at hfault
      · cases hfault
      · rename_i hany
        rw [Bool.not_eq_true, List.any_eq_false] at hany
        simpa using hany c hc

theorem ne_of_mem (name : BinaryName) {c d : Char} (hmem : c ∈ name.text.toList)
    (hdelimiter : isNameDelimiter d = true) (hslash : d ≠ '/') : c ≠ d := by
  rintro rfl
  rw [name.not_isNameDelimiter_of_mem hmem hslash] at hdelimiter
  cases hdelimiter

theorem read_descriptor (name : BinaryName) (rest : List Char) :
    BinaryName.read (name.descriptor ++ rest) = .ok (name, rest) := by
  have hname : ∀ c ∈ name.text.toList, (c != ';') = true := fun c hc =>
    bne_iff_ne.mpr (name.ne_of_mem hc (by decide) (by decide))
  have htext : name.descriptor ++ rest = 'L' :: (name.text.toList ++ ';' :: rest) := by
    simp [descriptor]
  have htake : (name.text.toList ++ ';' :: rest).takeWhile (· != ';') = name.text.toList := by
    rw [List.takeWhile_append_of_pos hname]
    simp
  have hdrop : (name.text.toList ++ ';' :: rest).dropWhile (· != ';') = ';' :: rest := by
    rw [List.dropWhile_append_of_pos hname]
    simp
  rw [htext]
  simp only [BinaryName.read, htake, hdrop, String.ofList_toList, ofString_text]

end BinaryName

theorem ElementType.read_descriptor (type : ElementType) (rest : List Char) :
    ElementType.read (type.descriptor ++ rest) = .ok (type, rest) := by
  cases type with
  | base type => cases type <;> rfl
  | object name =>
      show ElementType.read (name.descriptor ++ rest) = _
      have hread := name.read_descriptor rest
      simp only [BinaryName.descriptor, List.cons_append] at hread ⊢
      rw [ElementType.read, hread]
      rfl

/-- No element type is spelled with a bracket in front. -/
theorem ElementType.head_descriptor (type : ElementType) :
    ∃ c rest, type.descriptor = c :: rest ∧ (c == '[') = false := by
  cases type with
  | base type => cases type <;> exact ⟨_, _, rfl, by decide⟩
  | object name => exact ⟨'L', _, rfl, by decide⟩

namespace RefType

theorem read_descriptor (type : RefType) (rest : List Char) :
    RefType.read (type.descriptor ++ rest) = .ok (type, rest) := by
  cases type with
  | object name =>
      show RefType.read (name.descriptor ++ rest) = _
      have hread := name.read_descriptor rest
      simp only [BinaryName.descriptor, List.cons_append] at hread ⊢
      rw [RefType.read, hread]
      rfl
  | array element extra =>
      obtain ⟨c, spelled, hspelled, hc⟩ := element.head_descriptor
      have hbrackets : ∀ d ∈ List.replicate extra '[', (d == '[') = true := fun d hd =>
        beq_iff_eq.mpr (List.eq_of_mem_replicate hd)
      have hread := element.read_descriptor rest
      rw [hspelled, List.cons_append] at hread
      have htext : (array element extra).descriptor ++ rest
          = '[' :: (List.replicate extra '[' ++ c :: (spelled ++ rest)) := by
        simp [descriptor, List.replicate_succ, hspelled]
      rw [htext, RefType.read, List.takeWhile_append_of_pos hbrackets,
        List.dropWhile_append_of_pos hbrackets]
      simp [hc, hread, Except.map]

theorem head_descriptor (type : RefType) :
    ∃ c rest, type.descriptor = c :: rest ∧ (c = 'L' ∨ c = '[') := by
  cases type with
  | object name => exact ⟨'L', _, rfl, .inl rfl⟩
  | array element extra => exact ⟨'[', _, rfl, .inr rfl⟩

end RefType

namespace FieldType

theorem read_descriptor (type : FieldType) (rest : List Char) :
    FieldType.read (type.descriptor ++ rest) = .ok (type, rest) := by
  cases type with
  | base type => cases type <;> rfl
  | ref type =>
      obtain ⟨c, spelled, hspelled, hc⟩ := type.head_descriptor
      have hread := type.read_descriptor rest
      show FieldType.read (type.descriptor ++ rest) = _
      rw [hspelled, List.cons_append] at hread ⊢
      rw [FieldType.read, if_pos hc, hread]
      rfl

/-- No field type is spelled as the end of a parameter list or as the return of nothing. -/
theorem head_descriptor (type : FieldType) :
    ∃ c rest, type.descriptor = c :: rest ∧ c ≠ ')' ∧ c ≠ 'V' := by
  cases type with
  | base type => cases type <;> exact ⟨_, _, rfl, by decide, by decide⟩
  | ref type =>
      obtain ⟨c, rest, hspelled, rfl | rfl⟩ := type.head_descriptor
      · exact ⟨'L', rest, hspelled, by decide, by decide⟩
      · exact ⟨'[', rest, hspelled, by decide, by decide⟩

end FieldType

namespace MethodDescriptor

theorem readParameters_descriptors (parameters before : List FieldType) (rest : List Char) :
    readParameters before (parameters.flatMap FieldType.descriptor ++ ')' :: rest)
      = .ok (before.reverse ++ parameters, rest) := by
  induction parameters generalizing before with
  | nil =>
      rw [List.flatMap_nil, List.nil_append, readParameters.eq_def]
      simp
  | cons type parameters ih =>
      have hread := type.read_descriptor (parameters.flatMap FieldType.descriptor ++ ')' :: rest)
      obtain ⟨c, spelled, hspelled, hc, -⟩ := type.head_descriptor
      rw [List.flatMap_cons, List.append_assoc, readParameters.eq_def]
      split
      · rename_i heq
        rw [hspelled] at heq
        cases heq
        exact absurd rfl hc
      · split
        · rename_i type' rest' heq
          rw [hread] at heq
          cases heq
          rw [ih, List.reverse_cons, List.append_assoc, List.singleton_append]
        · rename_i e heq
          rw [hread] at heq
          cases heq

theorem read_descriptor (d : MethodDescriptor) (rest : List Char) :
    MethodDescriptor.read (d.descriptor ++ rest) = .ok (d, rest) := by
  obtain ⟨parameters, returns⟩ := d
  have hparameters := readParameters_descriptors parameters []
  cases returns with
  | none =>
      simp [descriptor, MethodDescriptor.read, hparameters]
  | some type =>
      obtain ⟨c, spelled, hspelled, -, hc⟩ := type.head_descriptor
      have hread := type.read_descriptor rest
      rw [hspelled, List.cons_append] at hread
      simp only [descriptor, Option.map_some, Option.getD_some, List.cons_append, List.append_assoc,
        MethodDescriptor.read, hparameters, hspelled, List.reverse_nil, List.nil_append]
      split
      · rename_i heq
        cases heq
      · rename_i heq
        cases heq
        exact absurd rfl hc
      · rename_i heq
        cases heq
        rw [hread]
        rfl

end MethodDescriptor

theorem DescriptorReader.whole_ofList {α : Type} {read : DescriptorReader α} {text : List Char}
    {value : α} (h : read (text ++ []) = .ok (value, [])) :
    DescriptorReader.whole read (String.ofList text) = .ok value := by
  rw [List.append_nil] at h
  simp only [whole, String.toList_ofList, h]

theorem FieldType.ofString_text (type : FieldType) : FieldType.ofString type.text = .ok type :=
  DescriptorReader.whole_ofList (type.read_descriptor [])

theorem MethodDescriptor.ofString_text (d : MethodDescriptor) : ofString d.text = .ok d :=
  DescriptorReader.whole_ofList (d.read_descriptor [])

/-- A class constant names one type only. -/
theorem RefType.ofClassName_className (type : RefType) : ofClassName type.className = .ok type := by
  cases type with
  | object name =>
      show ofClassName name.text = _
      unfold ofClassName
      split
      · rename_i rest heq
        have hmem : '[' ∈ name.text.toList := by
          rw [heq]
          exact List.mem_cons_self
        exact absurd rfl (name.ne_of_mem hmem (by decide) (by decide))
      · rw [name.ofString_text]
  | array element extra =>
      have hwhole : RefType.ofString (array element extra).text = .ok (array element extra) :=
        DescriptorReader.whole_ofList ((array element extra).read_descriptor [])
      have htext : (array element extra).text.toList
          = '[' :: (List.replicate extra '[' ++ element.descriptor) := by
        simp [text, descriptor, List.replicate_succ]
      simp only [ofClassName, className, htext, hwhole]

end JvmAssembler
