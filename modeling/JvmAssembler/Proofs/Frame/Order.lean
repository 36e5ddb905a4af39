import JvmAssembler.Frame.Slack
import JvmAssembler.Proofs.SlotVec
import Mathlib.Data.List.Forall2
import Mathlib.Data.List.Zip
import Mathlib.Order.Defs.PartialOrder

/-! Null is below every class, and every class is below the reference of unspecified class. A frame
is below another if its values are, slot by slot, where an unusable local of the other stands for
anything. Two frames that meet without a mismatch have the same shape, and both are below their
join. -/

namespace JvmAssembler

namespace ValueType

/-- The second type is equal to the first or wider. -/
inductive Below : ValueType → ValueType → Prop
  | refl (t : ValueType) : Below t t
  | nullReference (type : RefType) : Below null (reference type)
  | nullAny : Below null anyObject
  | referenceAny (type : RefType) : Below (reference type) anyObject

instance : PartialOrder ValueType where
  le := Below
  le_refl := Below.refl
  le_trans := by
    intro s t u hst htu
    cases hst with
    | refl => exact htu
    | nullReference type =>
        cases htu with
        | refl => exact .nullReference type
        | referenceAny => exact .nullAny
    | nullAny =>
        cases htu
        exact .nullAny
    | referenceAny type =>
        cases htu
        exact .referenceAny type
  le_antisymm := by
    intro s t hst hts
    cases hst with
    | refl => rfl
    | _ => cases hts

abbrev SameShape (s t : ValueType) : Prop := s.sameShape t = true

theorem sameShape_refl (t : ValueType) : t.sameShape t = true := by
  simp [sameShape]

theorem sameShape_comm (s t : ValueType) : s.sameShape t = t.sameShape s := by
  rw [sameShape, sameShape, Bool.and_comm, Bool.beq_comm]

theorem sameShape_of_le {s t : ValueType} (h : s ≤ t) : s.sameShape t = true := by
  cases h with
  | refl => exact sameShape_refl s
  | _ => rfl

theorem eq_of_sameShape {s t : ValueType} (h : s.sameShape t = true) :
    s = t ∨ s.isInitialized = true ∧ t.isInitialized = true := by
  simp only [sameShape, Bool.or_eq_true, Bool.and_eq_true, beq_iff_eq] at h
  exact h.symm

theorem width_eq_of_sameShape {s t : ValueType} (h : s.sameShape t = true) : s.width = t.width := by
  rcases eq_of_sameShape h with rfl | ⟨hs, ht⟩
  · rfl
  · cases s <;> cases ht' : t <;> simp_all [isInitialized, width]

theorem eq_top_of_sameShape {t : ValueType} (h : top.sameShape t = true) : t = top := by
  rcases eq_of_sameShape h with rfl | ⟨hs, _⟩
  · rfl
  · cases hs

theorem le_join_left (s t : ValueType) : s ≤ s.join t := by
  unfold join
  split
  case h_1 type => exact .nullReference type
  case h_2 a b =>
    split
    · exact le_refl _
    · exact .referenceAny a
  case h_3 => exact .nullAny
  case h_4 type => exact .referenceAny type
  case h_5 => exact le_refl _

theorem le_join_right {s t : ValueType} (h : s.sameShape t = true) : t ≤ s.join t := by
  rcases eq_of_sameShape h with rfl | ⟨hs, ht⟩
  · exact le_join_left s s
  · cases s with
    | null =>
        cases t with
        | null | anyObject | reference => exact le_refl _
        | _ => cases ht
    | anyObject =>
        cases t with
        | null => exact .nullAny
        | anyObject => exact le_refl _
        | reference type => exact .referenceAny type
        | _ => cases ht
    | reference a =>
        cases t with
        | null => exact .nullReference a
        | anyObject => exact le_refl _
        | reference b =>
            simp only [join]
            split
            · rename_i heq
              rw [heq]
            · exact .referenceAny b
        | _ => cases ht
    | _ => cases hs

end ValueType

section Slots

variable {α β : Type} {R : α → β → Prop} {xs : Array α} {ys : Array β}

/-- Arrays are related one by one if they have one size and what stands at each index is related. -/
theorem forall₂_toList_iff :
    List.Forall₂ R xs.toList ys.toList ↔ xs.size = ys.size ∧
      ∀ (i : Nat) (a : α) (b : β), xs[i]? = some a → ys[i]? = some b → R a b := by
  rw [List.forall₂_iff_get]
  refine and_congr_right fun _ => ⟨?_, ?_⟩
  · intro h i a b ha hb
    obtain ⟨hlt, rfl⟩ := Array.getElem?_eq_some_iff.mp ha
    obtain ⟨hlt', rfl⟩ := Array.getElem?_eq_some_iff.mp hb
    exact h i hlt hlt'
  · intro h i hi hi'
    exact h i _ _ (by simp) (by simp)

theorem exists_of_forall₂_toList (h : List.Forall₂ R xs.toList ys.toList) {i : Nat} {b : β}
    (hb : ys[i]? = some b) : ∃ a, xs[i]? = some a ∧ R a b := by
  obtain ⟨hsize, hslots⟩ := forall₂_toList_iff.mp h
  have hlt : i < xs.size := hsize ▸ (Array.getElem?_eq_some_iff.mp hb).1
  have ha : xs[i]? = some xs[i] := Array.getElem?_eq_getElem hlt
  exact ⟨xs[i], ha, hslots i _ b ha hb⟩

end Slots

/-- Types that are related have one shape. -/
structure ShapeRelation (r : ValueType → ValueType → Prop) : Prop where
  refl : ∀ t, r t t
  shape : ∀ {s t}, r s t → s.sameShape t = true

theorem ShapeRelation.le : ShapeRelation (· ≤ ·) := ⟨le_refl, ValueType.sameShape_of_le⟩

theorem ShapeRelation.sameShape : ShapeRelation ValueType.SameShape :=
  ⟨ValueType.sameShape_refl, id⟩

/-- Lists of values whose types are related one by one. -/
abbrev ValuesRelated (r : ValueType → ValueType → Prop) : List Value → List Value → Prop :=
  List.Forall₂ fun v w => r v.type w.type

/-- Operand stacks, which start at the offset 0, with values that are related. -/
structure StackRelated (r : ValueType → ValueType → Prop) (s t : SlotVec Value) : Prop where
  start_left : s.start = 0
  start_right : t.start = 0
  values : ValuesRelated r s.toList t.toList

namespace Frame

/-- The values of the first frame are related to those of the second, slot by slot. An unusable
local of the second stands for anything. -/
structure Related (r : ValueType → ValueType → Prop) (f g : Frame) : Prop where
  stack : StackRelated r f.stack g.stack
  locals : ∀ (i : Nat) (w : Value), g.locals[i]? = some w →
    w.type = .top ∨ ∃ v : Value, f.locals[i]? = some v ∧ r v.type w.type

/-- The types in the second frame are equal to those in the first or wider. -/
abbrev Below : Frame → Frame → Prop := Related (· ≤ ·)

end Frame

variable {r q : ValueType → ValueType → Prop}

theorem ValuesRelated.totalWidth_eq (hr : ShapeRelation r) {xs ys : List Value}
    (h : ValuesRelated r xs ys) : totalWidth xs = totalWidth ys := by
  induction h with
  | nil => rfl
  | cons hhead _ ih =>
      rw [totalWidth_cons, totalWidth_cons, ih]
      exact congrArg (· + _) (ValueType.width_eq_of_sameShape (hr.shape hhead))

theorem ValuesRelated.trans {p : ValueType → ValueType → Prop}
    (hcomp : ∀ s t u, r s t → q t u → p s u) {xs ys zs : List Value}
    (hxy : ValuesRelated r xs ys) (hyz : ValuesRelated q ys zs) : ValuesRelated p xs zs := by
  induction hxy generalizing zs with
  | nil =>
      cases hyz
      exact .nil
  | cons hhead _ ih =>
      cases hyz with
      | cons hhead' htail' => exact .cons (hcomp _ _ _ hhead hhead') (ih htail')

namespace Frame.Related

theorem refl (hr : ShapeRelation r) {f : Frame} (h : f.stack.start = 0) : f.Related r f where
  stack := ⟨h, h, List.forall₂_same.mpr fun v _ => hr.refl v.type⟩
  locals := fun _ w hw => Or.inr ⟨w, hw, hr.refl w.type⟩

theorem imp {f g : Frame} (h : f.Related r g) (himp : ∀ s t, r s t → q s t) : f.Related q g where
  stack := ⟨h.stack.start_left, h.stack.start_right, h.stack.values.imp fun _ _ => himp _ _⟩
  locals := by
    intro i w hw
    rcases h.locals i w hw with htop | ⟨v, hv, hvw⟩
    · exact Or.inl htop
    · exact Or.inr ⟨v, hv, himp _ _ hvw⟩

theorem trans {p : ValueType → ValueType → Prop} (hq : ShapeRelation q)
    (hcomp : ∀ s t u, r s t → q t u → p s u) {f g h : Frame} (hfg : f.Related r g)
    (hgh : g.Related q h) : f.Related p h where
  stack := ⟨hfg.stack.start_left, hgh.stack.start_right,
    ValuesRelated.trans hcomp hfg.stack.values hgh.stack.values⟩
  locals := by
    intro i w hw
    rcases hgh.locals i w hw with htop | ⟨v, hv, hvw⟩
    · exact Or.inl htop
    · rcases hfg.locals i v hv with htop | ⟨u, hu, huv⟩
      · have hshape := hq.shape hvw
        rw [htop] at hshape
        exact Or.inl (ValueType.eq_top_of_sameShape hshape)
      · exact Or.inr ⟨u, hu, hcomp _ _ _ huv hvw⟩

theorem depth_eq (hr : ShapeRelation r) {f g : Frame} (h : f.Related r g) : f.depth = g.depth := by
  rw [Frame.depth, Frame.depth, SlotVec.next_eq_toList, SlotVec.next_eq_toList,
    h.stack.start_left, h.stack.start_right, h.stack.values.totalWidth_eq hr]

end Frame.Related

theorem Frame.Below.trans {f g h : Frame} (hfg : f.Below g) (hgh : g.Below h) : f.Below h :=
  Related.trans .le (fun _ _ _ => le_trans) hfg hgh

namespace Frame

theorem getElem?_join_locals (f g : Frame) (i : Nat) :
    (f.join g).locals[i]? = f.locals[i]?.map fun v =>
      match g.locals[i]? with
      | some w => v.join w
      | none => v := by
  exact Array.getElem?_mapIdx

/-- Values of one shape at offsets that end together are equally many. -/
theorem length_eq_of_zip {xs ys : List Value}
    (hshape : ∀ v w, (v, w) ∈ xs.zip ys → v.type.sameShape w.type = true)
    (hwidth : totalWidth xs = totalWidth ys) : xs.length = ys.length := by
  induction xs generalizing ys with
  | nil =>
      cases ys with
      | nil => rfl
      | cons w ys =>
          have hpos : 0 < w.width := w.type.width_pos
          rw [totalWidth_nil, totalWidth_cons] at hwidth
          change 0 = w.width + _ at hwidth
          omega
  | cons v xs ih =>
      cases ys with
      | nil =>
          have hpos : 0 < v.width := v.type.width_pos
          rw [totalWidth_nil, totalWidth_cons] at hwidth
          change v.width + _ = 0 at hwidth
          omega
      | cons w ys =>
          have hhead : v.width = w.width :=
            ValueType.width_eq_of_sameShape (hshape v w List.mem_cons_self)
          rw [totalWidth_cons, totalWidth_cons] at hwidth
          change v.width + _ = w.width + _ at hwidth
          rw [List.length_cons, List.length_cons,
            ih (fun v' w' hmem => hshape v' w' (List.mem_cons_of_mem _ hmem)) (by omega)]

theorem related_of_mismatch? {expected actual : Frame} (he : expected.stack.start = 0)
    (ha : actual.stack.start = 0) (h : expected.mismatch? actual = none) :
    actual.Related ValueType.SameShape expected := by
  rw [mismatch?] at h
  split at h
  · cases h
  rename_i hdepth
  rw [not_not, depth, depth, SlotVec.next_eq_toList, SlotVec.next_eq_toList, he, ha,
    Nat.zero_add, Nat.zero_add] at hdepth
  split at h
  · cases h
  rename_i hstack
  rw [Option.map_eq_none_iff, List.find?_eq_none] at h
  rw [List.findIdx?_eq_none_iff] at hstack
  have hshape : ∀ v w, (v, w) ∈ expected.stack.toList.zip actual.stack.toList →
      v.type.sameShape w.type = true := by
    intro v w hmem
    simpa [Value.sameShape] using hstack (v, w) hmem
  have hvalues : ValuesRelated ValueType.SameShape expected.stack.toList actual.stack.toList :=
    List.forall₂_iff_zip.mpr ⟨length_eq_of_zip hshape hdepth, fun hmem => hshape _ _ hmem⟩
  refine ⟨⟨ha, he, ?_⟩, ?_⟩
  · refine hvalues.flip.imp fun v w hvw => ?_
    rw [ValueType.SameShape, ValueType.sameShape_comm]
    exact hvw
  · intro i w hw
    have hlocal := h (w, i) (List.mem_zipIdx_iff_getElem?.mpr (by simpa using hw))
    simp only [Bool.and_eq_true, bne_iff_ne, Bool.not_eq_true', not_and, Bool.not_eq_false]
      at hlocal
    by_cases htop : w.type = .top
    · exact Or.inl htop
    · have hvw := hlocal htop
      rw [Value.sameShape, ValueType.sameShape_comm] at hvw
      cases hv : actual.locals[i]? with
      | some v =>
          rw [Array.getD_eq_getD_getElem?, hv, Option.getD_some] at hvw
          exact Or.inr ⟨v, rfl, hvw⟩
      | none =>
          rw [Array.getD_eq_getD_getElem?, hv, Option.getD_none] at hvw
          exact Or.inl (ValueType.eq_top_of_sameShape hvw)

theorem mismatch?_of_related {expected actual : Frame}
    (h : actual.Related ValueType.SameShape expected) : expected.mismatch? actual = none := by
  have hdepth : expected.depth = actual.depth := (h.depth_eq .sameShape).symm
  rw [mismatch?, if_neg (not_not.mpr hdepth), List.findIdx?_eq_none_iff.mpr]
  swap
  · rintro ⟨v, w⟩ hmem
    have hwv : w.type.sameShape v.type = true := List.forall₂_zip h.stack.values.flip hmem
    rw [ValueType.sameShape_comm] at hwv
    simp [Value.sameShape, hwv]
  simp only [Option.map_eq_none_iff, List.find?_eq_none]
  rintro ⟨w, i⟩ hmem
  have hw : expected.locals[i]? = some w := by simpa using List.mem_zipIdx_iff_getElem?.mp hmem
  rcases h.locals i w hw with htop | ⟨v, hv, hvw⟩
  · simp [htop]
  · rw [ValueType.SameShape, ValueType.sameShape_comm] at hvw
    simp [Value.sameShape, Array.getD_eq_getD_getElem?, hv, hvw]

/-- A frame arrives without a mismatch exactly if it has the shape of the expected frame. -/
theorem mismatch?_eq_none_iff {expected actual : Frame} (he : expected.stack.start = 0)
    (ha : actual.stack.start = 0) :
    expected.mismatch? actual = none ↔ actual.Related ValueType.SameShape expected :=
  ⟨related_of_mismatch? he ha, mismatch?_of_related⟩

theorem values_below_join {xs ys : List Value} (h : ValuesRelated ValueType.SameShape ys xs) :
    ValuesRelated (· ≤ ·) xs (List.zipWith Value.join xs ys) ∧
      ValuesRelated (· ≤ ·) ys (List.zipWith Value.join xs ys) := by
  induction h with
  | nil => exact ⟨.nil, .nil⟩
  | @cons w v ys xs hwv _ ih =>
      rw [ValueType.SameShape, ValueType.sameShape_comm] at hwv
      exact ⟨.cons (v.type.le_join_left w.type) ih.1, .cons (ValueType.le_join_right hwv) ih.2⟩

/-- The recorded frame is below its join with one that arrives. -/
theorem below_join_left {mine theirs : Frame} (h : theirs.Related ValueType.SameShape mine) :
    mine.Below (mine.join theirs) where
  stack := by
    refine ⟨h.stack.start_right, SlotVec.start_ofList _, ?_⟩
    rw [toList_join_stack]
    exact (values_below_join h.stack.values).1
  locals := by
    intro i w hw
    rw [getElem?_join_locals, Option.map_eq_some_iff] at hw
    obtain ⟨v, hv, rfl⟩ := hw
    refine Or.inr ⟨v, hv, ?_⟩
    split
    · exact ValueType.le_join_left _ _
    · exact le_refl _

/-- A frame that arrives without a mismatch is below its join with the recorded one. -/
theorem below_join_right {mine theirs : Frame} (h : theirs.Related ValueType.SameShape mine) :
    theirs.Below (mine.join theirs) where
  stack := by
    refine ⟨h.stack.start_left, SlotVec.start_ofList _, ?_⟩
    rw [toList_join_stack]
    exact (values_below_join h.stack.values).2
  locals := by
    intro i w hw
    rw [getElem?_join_locals, Option.map_eq_some_iff] at hw
    obtain ⟨m, hm, rfl⟩ := hw
    rcases h.locals i m hm with htop | ⟨t, ht, hshape⟩
    · left
      split
      · rw [Value.join, htop]
        rfl
      · exact htop
    · rw [ht]
      rw [ValueType.SameShape, ValueType.sameShape_comm] at hshape
      exact Or.inr ⟨t, rfl, ValueType.le_join_right hshape⟩

/-- If a join would not change the recorded frame, what arrives is below it already. -/
theorem below_of_not_widens {mine theirs : Frame} (h : theirs.Related ValueType.SameShape mine)
    (hw : mine.widens theirs = false) : theirs.Below mine := by
  have hsame : ∀ m t, (m, t) ∈ mine.paired theirs → m.type.join t.type = m.type := by
    intro m t hmem
    simpa using List.any_eq_false.mp hw (m, t) hmem
  have hle : ∀ m t, (m, t) ∈ mine.paired theirs → t.type.sameShape m.type = true →
      t.type ≤ m.type := by
    intro m t hmem hshape
    rw [ValueType.sameShape_comm] at hshape
    have hjoin := ValueType.le_join_right hshape
    rwa [hsame m t hmem] at hjoin
  refine ⟨⟨h.stack.start_left, h.stack.start_right, ?_⟩, ?_⟩
  · refine List.forall₂_iff_zip.mpr ⟨h.stack.values.length_eq, fun {t m} hmem => ?_⟩
    refine hle m t (List.mem_append_left _ ?_) (List.forall₂_zip h.stack.values hmem)
    rw [← List.zip_swap]
    exact List.mem_map_of_mem (f := Prod.swap) hmem
  · intro i m hm
    rcases h.locals i m hm with htop | ⟨t, ht, hshape⟩
    · exact Or.inl htop
    · refine Or.inr ⟨t, ht, hle m t (List.mem_append_right _ ?_) hshape⟩
      refine List.mem_iff_getElem?.mpr ⟨i, ?_⟩
      rw [List.getElem?_zip_eq_some]
      exact ⟨by simpa using hm, by simpa using ht⟩

end Frame

end JvmAssembler
