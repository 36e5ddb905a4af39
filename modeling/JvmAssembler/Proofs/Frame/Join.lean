import JvmAssembler.Proofs.Frame.Origin

/-! Frames agree if the second can arrive where the first is recorded. Agreement is reflexive and
transitive. The join of frames that agree is the least frame above both, where an unusable slot of
the first stands for anything. That a join with the same frame changes nothing more, and that the
order of joins does not matter, follows from this. -/

namespace JvmAssembler

namespace ValueType

theorem join_le {s t u : ValueType} (hs : s ≤ u) (ht : t ≤ u) : s.join t ≤ u := by
  cases hs with
  | refl =>
      cases ht with
      | refl => cases s <;> simp [join]
      | _ => exact le_refl _
  | nullReference type =>
      cases ht with
      | refl => exact le_refl _
      | nullReference => exact .nullReference type
  | nullAny =>
      cases ht with
      | refl => exact le_refl _
      | nullAny => exact .nullAny
      | referenceAny type => exact .referenceAny type
  | referenceAny type =>
      cases ht with
      | refl => exact le_refl _
      | nullAny => exact .referenceAny type
      | referenceAny other =>
          simp only [join]
          split
          · exact .referenceAny type
          · exact le_refl _

theorem eq_top_of_top_le {t : ValueType} (h : top ≤ t) : t = top :=
  eq_top_of_sameShape (sameShape_of_le h)

theorem eq_top_of_le_top {t : ValueType} (h : t ≤ top) : t = top :=
  eq_top_of_sameShape (SameShape.symm (sameShape_of_le h))

theorem join_le_of_fits {s t u : ValueType} (hs : s ≤ u) (ht : u = .top ∨ t ≤ u) :
    s.join t ≤ u := by
  rcases ht with rfl | ht
  · rw [eq_top_of_le_top hs]
    exact le_refl _
  · exact join_le hs ht

/-- Does a type give way to another where paths meet? Null gives way to every class, and a class to
every other one. -/
def givesWay : (mine theirs : ValueType) → Bool
  | null, reference _ => true
  | reference a, reference b => a != b
  | null, anyObject => true
  | reference _, anyObject => true
  | _, _ => false

theorem join_bne_eq (s t : ValueType) : (s.join t != s) = s.givesWay t := by
  cases s with
  | null => cases t <;> rfl
  | reference a =>
      cases t with
      | reference b =>
          rw [join, givesWay]
          by_cases h : a = b
          · rw [if_pos h, bne_self_eq_false, h, bne_self_eq_false]
          · rw [if_neg h, bne_iff_ne.mpr h]
            rfl
      | anyObject => rfl
      | _ => exact bne_self_eq_false _
  | _ => exact bne_self_eq_false _

end ValueType

namespace Frame

variable {f g h : Frame}

theorem values_join_le {xs ys zs : List Value} (hx : ValuesRelated (· ≤ ·) xs zs)
    (hy : ValuesRelated (fun s t => t = .top ∨ s ≤ t) ys zs) :
    ValuesRelated (· ≤ ·) (List.zipWith Value.join xs ys) zs := by
  induction hx generalizing ys with
  | nil =>
      cases hy
      exact .nil
  | cons hhead _ ih =>
      cases hy with
      | cons hhead' htail' => exact .cons (ValueType.join_le_of_fits hhead hhead') (ih htail')

/-- What is above two frames is above their join. -/
theorem join_below (hf : f.Below h) (hg : g.Below h) : (f.join g).Below h where
  stack := by
    refine ⟨SlotVec.start_ofList _, hf.stack.start_right, ?_⟩
    rw [toList_join_stack]
    exact values_join_le hf.stack.values (hg.stack.values.imp fun _ _ => .inr)
  locals := by
    intro i w hw
    rcases hf.locals i w hw with htop | ⟨v, hv, hvw⟩
    · exact .inl htop
    · rcases hg.locals i w hw with htop | ⟨v', hv', hvw'⟩
      · exact .inl htop
      · refine .inr ⟨v.join v', ?_, ValueType.join_le hvw hvw'⟩
        rw [getElem?_join_locals, hv, hv', Option.map_some]

/-- Frames with as many slots, and with unusable ones in the same places. -/
structure SameOutline (f g : Frame) : Prop where
  start : f.stack.start = g.stack.start
  stack : List.Forall₂ (fun v w => v.type = .top ↔ w.type = .top) f.stack.toList g.stack.toList
  locals : List.Forall₂ (fun v w => v.type = .top ↔ w.type = .top) f.locals.toList g.locals.toList

/-- The first frame is below the second in every slot that is usable there. -/
structure FitsInto (f g : Frame) : Prop where
  stack : List.Forall₂ (fun v w => w.type = .top ∨ v.type ≤ w.type) f.stack.toList g.stack.toList
  locals : ∀ (i : Nat) (w : Value), g.locals[i]? = some w →
    w.type = .top ∨ ∃ v : Value, f.locals[i]? = some v ∧ v.type ≤ w.type

/-- The first frame is below the second in every slot. -/
structure Under (f g : Frame) : Prop where
  stack : ValuesRelated (· ≤ ·) f.stack.toList g.stack.toList
  locals : ValuesRelated (· ≤ ·) f.locals.toList g.locals.toList

/-- The types in the locals and on the stack. -/
def types (f : Frame) : List ValueType × List ValueType :=
  (f.locals.toList.map Value.type, f.stack.toList.map Value.type)

theorem SameOutline.refl (f : Frame) : f.SameOutline f :=
  ⟨rfl, List.forall₂_same.mpr fun _ _ => .rfl, List.forall₂_same.mpr fun _ _ => .rfl⟩

theorem SameOutline.symm (h : f.SameOutline g) : g.SameOutline f :=
  ⟨h.start.symm, h.stack.flip.imp fun _ _ => .symm, h.locals.flip.imp fun _ _ => .symm⟩

theorem SameShape.sameOutline (h : f.SameShape g) : f.SameOutline g where
  start := h.stack.start_left.trans h.stack.start_right.symm
  stack := h.stack.values.imp fun _ _ => ValueType.eq_top_congr
  locals := h.locals.imp fun _ _ => ValueType.eq_top_congr

theorem Below.fitsInto (h : f.Below g) : f.FitsInto g :=
  ⟨h.stack.values.imp fun _ _ => .inr, h.locals⟩

theorem Below.under (h : f.Below g) (houtline : f.SameOutline g) : f.Under g where
  stack := h.stack.values
  locals := by
    obtain ⟨hsize, htops⟩ := forall₂_toList_iff.mp houtline.locals
    refine forall₂_toList_iff.mpr ⟨hsize, ?_⟩
    intro i v w hv hw
    rcases h.locals i w hw with htop | ⟨v', hv', hvw⟩
    · rw [htop, (htops i v w hv hw).mpr htop]
    · rw [hv, Option.some.injEq] at hv'
      rw [hv']
      exact hvw

theorem Under.refl (f : Frame) : f.Under f :=
  ⟨List.forall₂_same.mpr fun _ _ => le_refl _, List.forall₂_same.mpr fun _ _ => le_refl _⟩

theorem Under.trans (hfg : f.Under g) (hgh : g.Under h) : f.Under h := by
  have hle : ∀ s t u : ValueType, s ≤ t → t ≤ u → s ≤ u := fun _ _ _ => le_trans
  exact ⟨.trans hle hfg.stack hgh.stack, .trans hle hfg.locals hgh.locals⟩

theorem FitsInto.trans_under (hfg : f.FitsInto g) (hgh : g.Under h) : f.FitsInto h := by
  have hfits : ∀ s t u : ValueType, t = .top ∨ s ≤ t → t ≤ u → u = .top ∨ s ≤ u := by
    intro s t u hst htu
    refine hst.imp ?_ fun hle => le_trans hle htu
    rintro rfl
    exact ValueType.eq_top_of_top_le htu
  refine ⟨ValuesRelated.trans hfits hfg.stack hgh.stack, ?_⟩
  intro i w hw
  obtain ⟨v, hv, hvw⟩ := exists_of_forall₂_toList hgh.locals hw
  rcases hfg.locals i v hv with htop | ⟨u, hu, huv⟩
  · rw [htop] at hvw
    exact .inl (ValueType.eq_top_of_top_le hvw)
  · exact .inr ⟨u, hu, le_trans huv hvw⟩

theorem types_eq_of_values {xs ys : List Value} (hxy : ValuesRelated (· ≤ ·) xs ys)
    (hyx : ValuesRelated (· ≤ ·) ys xs) : xs.map Value.type = ys.map Value.type := by
  induction hxy with
  | nil => rfl
  | cons hhead _ ih =>
      cases hyx with
      | cons hhead' htail' => exact congrArg₂ List.cons (le_antisymm hhead hhead') (ih htail')

theorem Under.types_eq (hfg : f.Under g) (hgf : g.Under f) : f.types = g.types :=
  Prod.ext (types_eq_of_values hfg.locals hgf.locals) (types_eq_of_values hfg.stack hgf.stack)

theorem under_join (h : g.Related ValueType.SameShape f) : f.Under (f.join g) :=
  (below_join_left h).under (SameShape.join h).symm.sameOutline

theorem fitsInto_join (h : g.Related ValueType.SameShape f) : g.FitsInto (f.join g) :=
  (below_join_right h).fitsInto

/-- What is above the first frame, and above the second where it is usable, is above their join. -/
theorem join_under {u : Frame} (hf : f.Under u) (hg : g.FitsInto u) : (f.join g).Under u where
  stack := by
    rw [toList_join_stack]
    exact values_join_le hf.stack hg.stack
  locals := by
    obtain ⟨hsize, hslots⟩ := forall₂_toList_iff.mp hf.locals
    refine forall₂_toList_iff.mpr ⟨by simpa [Frame.join] using hsize, ?_⟩
    intro i v' w hv' hw
    rw [getElem?_join_locals] at hv'
    obtain ⟨v, hv, rfl⟩ := Option.map_eq_some_iff.mp hv'
    have hle : v.type ≤ w.type := hslots i v w hv hw
    cases ht : g.locals[i]? with
    | none => exact hle
    | some t =>
        refine ValueType.join_le_of_fits hle ((hg.locals i w hw).imp_right ?_)
        rintro ⟨t', ht', htw⟩
        rw [ht, Option.some.injEq] at ht'
        exact ht' ▸ htw

theorem map_type_join (xs ys : List Value) :
    (List.zipWith Value.join xs ys ++ xs.drop ys.length).map Value.type = xs.map Value.type ↔
      ∀ p ∈ xs.zip ys, p.1.type.join p.2.type = p.1.type := by
  induction xs generalizing ys with
  | nil => simp
  | cons x xs ih =>
      cases ys with
      | nil => simp
      | cons y ys =>
          simp only [List.zipWith_cons_cons, List.length_cons, List.drop_succ_cons,
            List.cons_append, List.map_cons, List.cons.injEq, List.zip_cons_cons,
            List.forall_mem_cons, ih]
          exact Iff.rfl

/-- A join changes a frame exactly if the type of one of its values gives way. -/
theorem widens_eq_any_givesWay (f g : Frame) :
    f.widens g = (f.paired g).any fun pair => pair.1.type.givesWay pair.2.type := by
  simp only [widens, ValueType.join_bne_eq]

/-- A join changes a frame exactly if it changes a type, where no stack entry is left over. -/
theorem widens_eq_false_iff (hlength : f.stack.toList.length = g.stack.toList.length) :
    f.widens g = false ↔ (f.join g).types = f.types := by
  have hstack := map_type_join f.stack.toList g.stack.toList
  have hlocals := map_type_join f.locals.toList g.locals.toList
  rw [← hlength, List.drop_length, List.append_nil, ← toList_join_stack] at hstack
  rw [Array.length_toList, ← toList_join_locals] at hlocals
  rw [widens, paired, List.any_eq_false, List.forall_mem_append, types, types, Prod.mk.injEq,
    hstack, hlocals, and_comm]
  simp

theorem producers_join_locals (f g : Frame) :
    producers (f.join g).locals.toList = producers f.locals.toList := by
  refine List.ext_getElem? fun i => ?_
  simp only [producers, List.getElem?_map, Array.getElem?_toList, getElem?_join_locals,
    Option.map_map]
  congr 1
  funext v
  simp only [Function.comp]
  cases g.locals[i]? <;> rfl

theorem values_eq_of_types {xs ys : List Value} (htypes : xs.map Value.type = ys.map Value.type)
    (hproducers : producers xs = producers ys) : xs = ys := by
  induction xs generalizing ys with
  | nil =>
      cases ys with
      | nil => rfl
      | cons => cases htypes
  | cons v xs ih =>
      cases ys with
      | nil => cases htypes
      | cons w ys =>
          obtain ⟨htype, htypes⟩ := List.cons.inj htypes
          obtain ⟨hproducer, hproducers⟩ := List.cons.inj hproducers
          have hvalue : v = w := by
            cases v
            cases w
            exact congrArg₂ Value.mk htype hproducer
          rw [hvalue, ih htypes hproducers]

/-- A frame is its types and the instructions that produced its values. -/
theorem eq_of_types (hstart : f.stack.start = g.stack.start) (htypes : f.types = g.types)
    (hstack : producers f.stack.toList = producers g.stack.toList)
    (hlocals : producers f.locals.toList = producers g.locals.toList) : f = g := by
  obtain ⟨hlocalTypes, hstackTypes⟩ := Prod.mk.inj htypes
  have hlocalsEq : f.locals = g.locals :=
    Array.toList_inj.mp (values_eq_of_types hlocalTypes hlocals)
  have hstackEq : f.stack = g.stack :=
    SlotVec.eq_of_toList hstart (values_eq_of_types hstackTypes hstack)
  cases f
  cases g
  exact congrArg₂ Frame.mk hlocalsEq hstackEq

/-- What arrives at a frame still arrives once that was joined with another. -/
theorem related_join (hg : g.Related ValueType.SameShape f) (hh : h.Related ValueType.SameShape f) :
    g.Related ValueType.SameShape (f.join h) :=
  Related.trans .sameShape (fun _ _ _ => .trans) hg (SameShape.join hh).symm.related

/-- A join with a frame that was joined already changes nothing. -/
theorem widens_join_self (hg : g.Related ValueType.SameShape f) : (f.join g).widens g = false := by
  have hagain := related_join hg hg
  rw [widens_eq_false_iff hagain.stack.values.length_eq.symm]
  exact (join_under (.refl _) (fitsInto_join hg)).types_eq (under_join hagain)

theorem join_join_under (hg : g.Related ValueType.SameShape f)
    (hh : h.Related ValueType.SameShape f) :
    ((f.join g).join h).Under ((f.join h).join g) := by
  have hgh : g.Related ValueType.SameShape (f.join h) := related_join hg hh
  have hstep : (f.join h).Under ((f.join h).join g) := under_join hgh
  have hfirst : (f.join g).Under ((f.join h).join g) :=
    join_under ((under_join hh).trans hstep) (fitsInto_join hgh)
  exact join_under hfirst ((fitsInto_join hh).trans_under hstep)

/-- The order of joins does not matter: either way the result is least above the same frames. -/
theorem join_right_comm (hg : g.Related ValueType.SameShape f)
    (hh : h.Related ValueType.SameShape f) : (f.join g).join h = (f.join h).join g := by
  have htypes := (join_join_under hg hh).types_eq (join_join_under hh hg)
  refine eq_of_types ?_ htypes ?_ ?_
  · exact (SlotVec.start_ofList _).trans (SlotVec.start_ofList _).symm
  · calc producers ((f.join g).join h).stack.toList
      _ = producers (f.join g).stack.toList := (SameOrigin.join (related_join hh hg)).producers_eq
      _ = producers f.stack.toList := (SameOrigin.join hg).producers_eq
      _ = producers (f.join h).stack.toList := (SameOrigin.join hh).producers_eq.symm
      _ = producers ((f.join h).join g).stack.toList :=
        (SameOrigin.join (related_join hg hh)).producers_eq.symm
  · simp only [producers_join_locals]

end Frame

/-- Frames with an operand stack, which starts at slot 0. -/
abbrev OperandFrame := {f : Frame // f.stack.start = 0}

namespace Frame

theorem mismatch?_trans {f g h : OperandFrame} (hfg : f.1.mismatch? g.1 = none)
    (hgh : g.1.mismatch? h.1 = none) : f.1.mismatch? h.1 = none := by
  have hgf := related_of_mismatch? f.2 g.2 hfg
  have hhg := related_of_mismatch? g.2 h.2 hgh
  exact mismatch?_of_related (Related.trans .sameShape (fun _ _ _ => .trans) hhg hgf)

/-- What a join makes of the first of two frames that agree. -/
structure JoinsLeast (f g : Frame) : Prop where
  /-- No stack entry is left over where the entries are paired. -/
  size_eq : f.stack.size = g.stack.size
  /-- There are as many slots as before, of the same shapes. -/
  shape : (f.join g).SameShape f
  stackProducers : producers (f.join g).stack.toList = producers f.stack.toList
  localProducers : producers (f.join g).locals.toList = producers f.locals.toList
  above_left : f.Under (f.join g)
  above_right : g.FitsInto (f.join g)
  least : ∀ u : Frame, f.Under u → g.FitsInto u → (f.join g).Under u
  widens_iff : f.widens g = true ↔ (f.join g).types ≠ f.types
  /-- A second join with the same frame changes nothing. -/
  settled : (f.join g).widens g = false
  /-- Two frames can be joined in either order. -/
  comm : ∀ h : OperandFrame, f.mismatch? h.1 = none → (f.join g).join h.1 = (f.join h.1).join g

/-- Agreement is a preorder, and a join of frames that agree is their least upper bound. -/
theorem agreement_preorder_join_least :
    (∀ f : Frame, f.mismatch? f = none) ∧
    (∀ f g h : OperandFrame, f.1.mismatch? g.1 = none → g.1.mismatch? h.1 = none →
      f.1.mismatch? h.1 = none) ∧
    ∀ f g : OperandFrame, f.1.mismatch? g.1 = none → f.1.JoinsLeast g.1 := by
  refine ⟨mismatch?_self, fun f g h => mismatch?_trans, ?_⟩
  intro f g hfg
  have hg := related_of_mismatch? f.2 g.2 hfg
  have hlength := hg.stack.values.length_eq.symm
  refine ⟨?_, .join hg, (SameOrigin.join hg).producers_eq, producers_join_locals f.1 g.1,
    under_join hg, fitsInto_join hg, fun u => join_under, ?_, widens_join_self hg, ?_⟩
  · rwa [SlotVec.length_toList, SlotVec.length_toList] at hlength
  · rw [← Bool.not_eq_false, widens_eq_false_iff hlength]
  · intro h hfh
    exact join_right_comm hg (related_of_mismatch? f.2 h.2 hfh)

/-- Null and a class, two classes, an unusable local and one that is not reached. -/
theorem agreement_preorder_join_least_classes :
    ∃ f g h : OperandFrame,
      f.1.mismatch? g.1 = none ∧ g.1.mismatch? h.1 = none ∧ f.1.mismatch? h.1 = none ∧
      g.1.mismatch? f.1 = some (.localSlot 2) ∧
      (f.1.join g.1).types =
        ([.reference (.object .javaString), .reference (.object .javaString), .top],
          [.numeric .long, .anyObject]) ∧
      f.1.widens g.1 = true ∧ (f.1.join g.1).widens g.1 = false ∧
      (f.1.join g.1).join h.1 = (f.1.join h.1).join g.1 ∧ f.1.JoinsLeast g.1 := by
  let string : Value := ⟨.reference (.object .javaString), none⟩
  let throwable : Value := ⟨.reference (.object .javaThrowable), some 1⟩
  let long : Value := ⟨.numeric .long, some 0⟩
  let f : OperandFrame :=
    ⟨⟨#[⟨.null, some 2⟩, string, .unusable], .ofList [long, string]⟩, rfl⟩
  let g : OperandFrame :=
    ⟨⟨#[string, string, ⟨.numeric .int, none⟩, .unusable], .ofList [long, throwable]⟩, rfl⟩
  let h : OperandFrame :=
    ⟨⟨#[⟨.anyObject, none⟩, string, ⟨.numeric .int, none⟩], .ofList [long, ⟨.null, none⟩]⟩, rfl⟩
  have hfg : f.1.mismatch? g.1 = none := by decide +kernel
  have hgh : g.1.mismatch? h.1 = none := by decide +kernel
  obtain ⟨_, htrans, hjoin⟩ := agreement_preorder_join_least
  have hfh := htrans f g h hfg hgh
  have hleast := hjoin f g hfg
  exact ⟨f, g, h, hfg, hgh, hfh, by decide +kernel, by decide +kernel, by decide +kernel,
    hleast.settled, hleast.comm h hfh, hleast⟩

end Frame

end JvmAssembler
