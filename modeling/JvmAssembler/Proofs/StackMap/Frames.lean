import JvmAssembler.Proofs.Frame.Contents
import JvmAssembler.StackMap.Table
import Mathlib.Data.List.TakeWhile

/-! The types of an entry make up a frame again. It is the frame that was listed, but for producers,
for unusable slots at the end, and for references of unspecified class, which become references to
an object. A frame can stand for another if its verification types are assignable, slot by slot. -/

namespace JvmAssembler

/-- Can a value of the first type stand where the second is expected? -/
def SymbolicType.assignable (s t : SymbolicType) : Bool :=
  s == t ||
    match s, t with
    | .null, .object _ => true
    | .object _, .object type => type == .object .javaObject
    | _, _ => false

namespace ValueType

/-- The verification type of a value. -/
abbrev verification (t : ValueType) : SymbolicType := .ofValueType t

/-- Types of one shape, where the first can stand for the second. -/
def Assignable (s t : ValueType) : Prop :=
  s.sameShape t = true ∧ s.verification.assignable t.verification = true

theorem assignable_refl (t : ValueType) : t.Assignable t := by
  refine ⟨sameShape_refl t, ?_⟩
  simp [SymbolicType.assignable]

theorem shapeRelation_assignable : ShapeRelation Assignable := ⟨assignable_refl, And.left⟩

/-- A type that can stand for another can stand for every wider type. -/
theorem Assignable.trans_le {s t u : ValueType} (hst : s.Assignable t) (htu : t ≤ u) :
    s.Assignable u := by
  cases htu with
  | refl => exact hst
  | nullReference type | nullAny =>
      cases s with
      | null => exact ⟨rfl, rfl⟩
      | _ => simp [Assignable, sameShape, isInitialized, SymbolicType.assignable, verification,
          VerificationType.ofValueType] at hst
  | referenceAny type =>
      cases s with
      | null | anyObject => exact ⟨rfl, rfl⟩
      | reference type =>
          refine ⟨rfl, ?_⟩
          simp [SymbolicType.assignable, verification, VerificationType.ofValueType]
      | _ => simp [Assignable, sameShape, isInitialized] at hst

/-- What is left of a type in the stack map. -/
def verified : ValueType → ValueType
  | anyObject => reference (.object .javaObject)
  | t => t

theorem verification_verified (t : ValueType) : t.verified.verification = t.verification := by
  cases t <;> rfl

theorem verified_assignable (t : ValueType) : t.verified.Assignable t := by
  cases t with
  | anyObject => exact ⟨rfl, rfl⟩
  | _ => exact assignable_refl _

theorem eq_top_of_verification {t : ValueType} (h : t.verification = .top) : t = .top := by
  cases t with
  | top => rfl
  | _ => cases h

theorem width_verification (t : ValueType) : t.verification.width = t.width := by
  cases t <;> rfl

theorem width_eq_one_or_two (t : ValueType) : t.width = 1 ∨ t.width = 2 := by
  cases t with
  | numeric kind => cases kind <;> decide
  | _ => exact .inl rfl

/-- The type of a value with a verification type, where the owner of an allocation is looked up. -/
def ofVerification? (owner? : Nat → Option BinaryName) : SymbolicType → Option ValueType
  | .top => some .top
  | .numeric kind => some (.numeric kind)
  | .null => some .null
  | .uninitializedThis => some .uninitializedThis
  | .object type => some (.reference type)
  | .uninitialized site => (owner? site).map fun owner => .uninitialized owner site

theorem ofVerification?_verification {S : BinaryName → Nat → Prop}
    {owner? : Nat → Option BinaryName} (howner : ∀ owner site, S owner site → owner? site = some owner)
    {t : ValueType} (ht : t.SitesIn S) : ofVerification? owner? t.verification = some t.verified := by
  cases t with
  | uninitialized owner site =>
      simp [ofVerification?, verification, VerificationType.ofValueType, howner owner site ht,
        verified]
  | _ => rfl

end ValueType

namespace StackMap

/-- Locals one per slot: a value of two slots is followed by an unusable one. -/
def slots (types : List SymbolicType) : List SymbolicType :=
  types.flatMap fun type => type :: List.replicate (type.width - 1) .top

theorem slots_append (types types' : List SymbolicType) :
    slots (types ++ types') = slots types ++ slots types' := List.flatMap_append

/-- Locals one per slot, where a value of two slots is followed by an unusable one. -/
def PairedSlots (locals : List Value) : Prop :=
  ∀ (i : Nat) (v : Value), locals[i]? = some v → v.width = 2 →
    ∃ w : Value, locals[i + 1]? = some w ∧ w.type = .top

theorem slots_reversedTypes {before : List SymbolicType} {locals : List Value}
    (hpaired : PairedSlots locals) :
    slots (reversedTypes before locals).reverse =
      slots before.reverse ++ locals.map fun v => v.type.verification := by
  fun_induction reversedTypes before locals with
  | case1 before => simp
  | case2 before value rest ih =>
      have hrest := ih fun i v hv => by
        rw [List.getElem?_drop] at hv ⊢
        exact hpaired (value.width - 1 + i + 1) v hv
      rw [hrest, List.reverse_cons, slots_append, List.append_assoc]
      congr 1
      rcases value.type.width_eq_one_or_two with hone | htwo
      · simp [slots, Value.width, ValueType.width_verification, hone]
      · obtain ⟨w, hw, htop⟩ := hpaired 0 value rfl htwo
        cases rest with
        | nil => cases hw
        | cons second rest =>
            have hsecond : second = w := Option.some.inj hw
            have hverification : second.type.verification = .top := by
              rw [hsecond, htop]
              rfl
            simp [slots, Value.width, ValueType.width_verification, htwo, hverification]

theorem exists_of_mem_reversedTypes {before : List SymbolicType} {locals : List Value}
    {type : SymbolicType} (h : type ∈ reversedTypes before locals) :
    type ∈ before ∨ ∃ v ∈ locals, type = v.type.verification := by
  fun_induction reversedTypes before locals with
  | case1 before => exact .inl h
  | case2 before value rest ih =>
      rcases ih h with hbefore | ⟨v, hv, htype⟩
      · rcases List.mem_cons.mp hbefore with rfl | hbefore
        · exact .inr ⟨value, List.mem_cons_self, rfl⟩
        · exact .inl hbefore
      · exact .inr ⟨v, List.mem_cons_of_mem _ (List.mem_of_mem_drop hv), htype⟩

theorem exists_of_mem_localTypes {locals : List Value} {type : SymbolicType}
    (h : type ∈ localTypes locals) : ∃ v ∈ locals, type = v.type.verification := by
  have hmem := (List.dropWhile_sublist _).mem (List.mem_reverse.mp h)
  rcases exists_of_mem_reversedTypes hmem with hnil | hlocal
  · cases hnil
  · exact hlocal

theorem slots_of_top {types : List SymbolicType} (h : ∀ type ∈ types, type = .top) :
    slots types = types := by
  induction types with
  | nil => rfl
  | cons type types ih =>
      have htop : type = .top := h type List.mem_cons_self
      have hrest := ih fun type htype => h type (List.mem_cons_of_mem _ htype)
      rw [slots, List.flatMap_cons, htop]
      exact congrArg (.top :: ·) hrest

/-- The listed locals stand for all slots but for unusable ones at the end. -/
theorem exists_slots_localTypes {locals : List Value} (hpaired : PairedSlots locals) :
    ∃ unusable, locals.map (fun v => v.type.verification) = slots (localTypes locals) ++ unusable ∧
      ∀ type ∈ unusable, type = .top := by
  have hall : slots (reversedTypes [] locals).reverse = locals.map fun v => v.type.verification :=
    slots_reversedTypes hpaired
  have hsplit := congrArg List.reverse
    (List.takeWhile_append_dropWhile (p := (· == .top)) (l := reversedTypes [] locals))
  have htop : ∀ type ∈ ((reversedTypes [] locals).takeWhile (· == .top)).reverse, type = .top := by
    intro type htype
    have hbeq := List.mem_takeWhile_imp (List.mem_reverse.mp htype)
    exact eq_of_beq hbeq
  rw [List.reverse_append] at hsplit
  rw [← hsplit, slots_append, slots_of_top htop] at hall
  exact ⟨_, hall.symm, htop⟩

end StackMap

namespace Frame

/-- Can the first frame stand for the second? A local of the second that is unusable stands for
anything. -/
def assignable (f g : Frame) : Bool :=
  let fits (v w : Value) : Bool := v.type.verification.assignable w.type.verification
  f.stack.toList.length == g.stack.toList.length
    && (f.stack.toList.zip g.stack.toList).all (fun (v, w) => fits v w)
    && g.locals.toList.zipIdx.all fun (w, i) =>
      w.type == .top || f.locals[i]?.any fun v => fits v w

/-- The first frame holds what the stack map says of the second. -/
structure Listed (g f : Frame) : Prop where
  start : g.stack.start = 0
  stack : ValuesRelated (fun s t => s = t.verified) g.stack.toList f.stack.toList
  locals : ∀ (i : Nat) (w : Value), g.locals[i]? = some w →
    ∃ v : Value, f.locals[i]? = some v ∧ w.type = v.type.verified
  usable : ∀ (i : Nat) (v : Value), f.locals[i]? = some v → v.type ≠ .top →
    ∃ w : Value, g.locals[i]? = some w ∧ w.type = v.type.verified

end Frame

namespace StackMap

/-- The frame of an entry, where the owner of an allocation is looked up. -/
def frame? (owner? : Nat → Option BinaryName) (locals stack : List SymbolicType) : Option Frame := do
  let locals ← (slots locals).mapM (ValueType.ofVerification? owner?)
  let stack ← stack.mapM (ValueType.ofVerification? owner?)
  return ⟨(locals.map fun type => ⟨type, none⟩).toArray, .ofList (stack.map fun type => ⟨type, none⟩)⟩

theorem mapM_ofVerification? {S : BinaryName → Nat → Prop} {owner? : Nat → Option BinaryName}
    (howner : ∀ owner site, S owner site → owner? site = some owner) {values : List Value}
    (hvalues : ∀ v ∈ values, v.type.SitesIn S) :
    (values.map fun v => v.type.verification).mapM (ValueType.ofVerification? owner?) =
      some (values.map fun v => v.type.verified) := by
  induction values with
  | nil => rfl
  | cons v values ih =>
      have hfirst := ValueType.ofVerification?_verification howner (hvalues v List.mem_cons_self)
      have hrest := ih fun w hw => hvalues w (List.mem_cons_of_mem _ hw)
      simp [List.mapM_cons, hfirst, hrest]

theorem pairedSlots_toList {f : Frame} (h : f.Paired) : PairedSlots f.locals.toList := by
  intro i v hv hwidth
  rw [Array.getElem?_toList] at hv ⊢
  exact h i v hv hwidth

/-- The types that are listed for a frame make up a frame again. -/
theorem exists_frame? {S : BinaryName → Nat → Prop} {owner? : Nat → Option BinaryName}
    (howner : ∀ owner site, S owner site → owner? site = some owner) {f : Frame} (hpaired : f.Paired)
    (hsites : f.SitesIn S) :
    ∃ g, frame? owner? (localTypes f.locals.toList) (stackTypes f) = some g ∧ g.Listed f := by
  have hlocal : ∀ i : Nat, f.locals.toList[i]? = f.locals[i]? := fun i => Array.getElem?_toList
  obtain ⟨unusable, hsplit, htop⟩ := exists_slots_localTypes (pairedSlots_toList hpaired)
  obtain ⟨kept, dropped, hlocals, hkeptTypes, hdropped⟩ := List.map_eq_append_iff.mp hsplit
  have hkept : ∀ v ∈ kept, v.type.SitesIn S := by
    intro v hv
    obtain ⟨i, hi⟩ := List.mem_iff_getElem?.mp (hlocals ▸ List.mem_append_left _ hv)
    exact hsites.locals i v ((hlocal i).symm.trans hi)
  refine ⟨⟨(kept.map fun v => ⟨v.type.verified, none⟩).toArray,
    .ofList (f.stack.toList.map fun v => ⟨v.type.verified, none⟩)⟩, ?_, ?_, ?_, ?_, ?_⟩
  · rw [frame?, ← hkeptTypes, mapM_ofVerification? howner hkept, stackTypes,
      mapM_ofVerification? howner hsites.stack]
    simp only [Option.bind_eq_bind, Option.bind_some, List.map_map]
    rfl
  · exact SlotVec.start_ofList _
  · rw [SlotVec.toList_ofList, ValuesRelated, List.forall₂_map_left_iff]
    exact List.forall₂_same.mpr fun _ _ => rfl
  · intro i w hw
    simp only [List.getElem?_toArray, List.getElem?_map, Option.map_eq_some_iff] at hw
    obtain ⟨v, hv, rfl⟩ := hw
    refine ⟨v, ?_, rfl⟩
    rw [← hlocal, hlocals, List.getElem?_append_left (List.getElem?_eq_some_iff.mp hv).1]
    exact hv
  · intro i v hv hne
    rw [← hlocal, hlocals, List.getElem?_append] at hv
    split at hv
    · exact ⟨⟨v.type.verified, none⟩, by simp [hv], rfl⟩
    · exfalso
      apply hne
      apply ValueType.eq_top_of_verification
      apply htop
      rw [← hdropped]
      exact List.mem_map_of_mem (List.mem_of_getElem? hv)

end StackMap

namespace Frame

theorem Listed.related {f g : Frame} (h : g.Listed f) (hstart : f.stack.start = 0) :
    g.Related ValueType.Assignable f where
  stack := ⟨h.start, hstart, h.stack.imp fun _ v hw => hw ▸ v.type.verified_assignable⟩
  locals := by
    intro i v hv
    by_cases htop : v.type = .top
    · exact .inl htop
    · obtain ⟨w, hw, htype⟩ := h.usable i v hv htop
      exact .inr ⟨w, hw, htype ▸ v.type.verified_assignable⟩

/-- What can stand for a frame can stand for what is listed of it. -/
theorem Listed.assignable {c f g : Frame} (h : g.Listed f)
    (hrelated : c.Related ValueType.Assignable f) : c.assignable g = true := by
  have hverified : ∀ s t u : ValueType, s.Assignable t → u = t.verified →
      s.verification.assignable u.verification = true := by
    rintro s t u hst rfl
    rw [ValueType.verification_verified]
    exact hst.2
  have hstack : ValuesRelated (fun s t => s.verification.assignable t.verification = true)
      c.stack.toList g.stack.toList :=
    ValuesRelated.trans (q := fun s t => t = s.verified) hverified hrelated.stack.values h.stack.flip
  simp only [Frame.assignable, Bool.and_eq_true, beq_iff_eq, List.all_eq_true]
  refine ⟨⟨hstack.length_eq, ?_⟩, ?_⟩
  · rintro ⟨v, w⟩ hmem
    exact List.forall₂_zip hstack hmem
  · rintro ⟨w, i⟩ hmem
    have hw : g.locals[i]? = some w := by simpa using List.mem_zipIdx_iff_getElem?.mp hmem
    obtain ⟨u, hu, htype⟩ := h.locals i w hw
    rcases hrelated.locals i u hu with htop | ⟨v, hv, hvu⟩
    · rw [htype, htop]
      rfl
    · have hfits := hverified v.type u.type w.type hvu htype
      simp [hv, hfits]

end Frame

end JvmAssembler
