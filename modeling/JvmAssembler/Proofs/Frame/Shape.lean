import JvmAssembler.Proofs.Frame.Monotone

/-! Two frames have one shape if they have as many locals and stack entries and the types in them
have one shape each. An instruction cannot tell such frames apart: it goes through on both, and the
results have one shape again, or it fails on both, and the errors differ at most in the classes of
references that they show. -/

namespace JvmAssembler

namespace ValueType

theorem SameShape.symm {s t : ValueType} (h : s.SameShape t) : t.SameShape s := by
  rw [SameShape, sameShape_comm]
  exact h

theorem SameShape.trans {s t u : ValueType} (hst : s.SameShape t) (htu : t.SameShape u) :
    s.SameShape u := by
  rcases eq_of_sameShape hst with rfl | ⟨hs, ht⟩
  · exact htu
  · rcases eq_of_sameShape htu with rfl | ⟨_, hu⟩
    · exact hst
    · simp [SameShape, sameShape, hs, hu]

/-- What a type has the shape of does not change with the type, as long as its shape stays. -/
theorem sameShape_congr {s s' t t' : ValueType} (hs : s.SameShape s') (ht : t.SameShape t') :
    s.sameShape t = s'.sameShape t' := by
  rw [Bool.eq_iff_iff]
  constructor
  · exact fun h => hs.symm.trans (SameShape.trans h ht)
  · exact fun h => hs.trans (SameShape.trans h ht.symm)

theorem eq_top_congr {s t : ValueType} (h : s.SameShape t) : s = top ↔ t = top := by
  constructor
  · rintro rfl
    exact eq_top_of_sameShape h
  · rintro rfl
    exact eq_top_of_sameShape h.symm

end ValueType

/-- Values of the same shapes, one by one. -/
abbrev SameShapes : List Value → List Value → Prop := ValuesRelated ValueType.SameShape

theorem SameShapes.symm {xs ys : List Value} (h : SameShapes xs ys) : SameShapes ys xs :=
  h.flip.imp fun _ _ => ValueType.SameShape.symm

theorem StackRelated.symm {s t : SlotVec Value} (h : StackRelated ValueType.SameShape s t) :
    StackRelated ValueType.SameShape t s :=
  ⟨h.start_right, h.start_left, SameShapes.symm h.values⟩

/-- Frames of the same size with the same shapes in all slots of stack and locals. A slot that is
unusable in one of them is so in the other. -/
structure Frame.SameShape (f g : Frame) : Prop where
  stack : StackRelated ValueType.SameShape f.stack g.stack
  locals : SameShapes f.locals.toList g.locals.toList

namespace Frame.SameShape

variable {f g h : Frame}

theorem refl (hf : f.stack.start = 0) : f.SameShape f where
  stack := ⟨hf, hf, List.forall₂_same.mpr fun v _ => v.type.sameShape_refl⟩
  locals := List.forall₂_same.mpr fun v _ => v.type.sameShape_refl

theorem symm (hfg : f.SameShape g) : g.SameShape f where
  stack := hfg.stack.symm
  locals := SameShapes.symm hfg.locals

theorem trans (hfg : f.SameShape g) (hgh : g.SameShape h) : f.SameShape h where
  stack := ⟨hfg.stack.start_left, hgh.stack.start_right,
    ValuesRelated.trans (fun _ _ _ => .trans) hfg.stack.values hgh.stack.values⟩
  locals := ValuesRelated.trans (fun _ _ _ => .trans) hfg.locals hgh.locals

theorem size_eq (hfg : f.SameShape g) : f.locals.size = g.locals.size := by
  simpa using hfg.locals.length_eq

theorem getElem?_locals (hfg : f.SameShape g) {i : Nat} {v : Value}
    (hv : f.locals[i]? = some v) : ∃ w, g.locals[i]? = some w ∧ v.type.SameShape w.type :=
  exists_of_forall₂_toList hfg.locals.flip hv

theorem related (hfg : f.SameShape g) : f.Related ValueType.SameShape g where
  stack := hfg.stack
  locals := by
    intro i w hw
    obtain ⟨v, hv, hwv⟩ := hfg.symm.getElem?_locals hw
    exact Or.inr ⟨v, hv, hwv.symm⟩

/-- Frames of the same number of locals that stand for each other have one shape. -/
theorem of_related (hfg : f.Related ValueType.SameShape g) (hgf : g.Related ValueType.SameShape f)
    (hsize : f.locals.size = g.locals.size) : f.SameShape g where
  stack := hfg.stack
  locals := by
    refine forall₂_toList_iff.mpr ⟨hsize, ?_⟩
    intro i v w hv hw
    rcases hfg.locals i w hw with htop | ⟨v', hv', hvw⟩
    · rcases hgf.locals i v hv with htop' | ⟨w', hw', hwv⟩
      · rw [htop, htop']
        exact ValueType.sameShape_refl _
      · rw [hw, Option.some.injEq] at hw'
        rw [hw']
        exact hwv.symm
    · rw [hv, Option.some.injEq] at hv'
      rw [hv']
      exact hvw

theorem depth_eq (hfg : f.SameShape g) : f.depth = g.depth := hfg.related.depth_eq .sameShape

/-- The types in a slot have one shape, where a local that is not reached counts as unusable. -/
theorem getD_locals (hfg : f.SameShape g) (i : Nat) :
    (f.locals.getD i Value.unusable).type.SameShape (g.locals.getD i Value.unusable).type := by
  rw [Array.getD_eq_getD_getElem?, Array.getD_eq_getD_getElem?]
  cases hv : f.locals[i]? with
  | some v =>
      obtain ⟨w, hw, hvw⟩ := hfg.getElem?_locals hv
      rw [hw]
      exact hvw
  | none =>
      have hle := Array.getElem?_eq_none_iff.mp hv
      rw [Array.getElem?_eq_none (hfg.size_eq ▸ hle)]
      exact ValueType.sameShape_refl _

theorem push {v w : Value} (hfg : f.SameShape g) (hvw : v.type.SameShape w.type) :
    (f.push v).SameShape (g.push w) :=
  ⟨hfg.stack.push hvw, hfg.locals⟩

theorem foldl_push {xs ys : List Value} (hxy : SameShapes xs ys) (hfg : f.SameShape g) :
    (xs.foldl Frame.push f).SameShape (ys.foldl Frame.push g) := by
  induction hxy generalizing f g with
  | nil => exact hfg
  | cons hhead _ ih => exact ih (hfg.push hhead)

theorem setLocal {v w : Value} (hfg : f.SameShape g) (hvw : v.type.SameShape w.type)
    (index : UInt16) : (f.setLocal index v).SameShape (g.setLocal index w) := by
  refine of_related (hfg.related.setLocal .sameShape hvw index)
    (hfg.symm.related.setLocal .sameShape hvw.symm index) ?_
  rw [size_setLocal, size_setLocal, hfg.size_eq, Value.width, Value.width,
    ValueType.width_eq_of_sameShape hvw]

theorem markInitialized {s t : ValueType} (hfg : f.SameShape g) (hst : s.SameShape t)
    (thisClass : BinaryName) :
    (f.markInitialized s thisClass).SameShape (g.markInitialized t thisClass) := by
  refine of_related (hfg.related.markInitialized .sameShape hst thisClass)
    (hfg.symm.related.markInitialized .sameShape hst.symm thisClass) ?_
  rw [size_markInitialized, size_markInitialized, hfg.size_eq]

/-- Widening keeps the shape of a frame. -/
theorem join {mine theirs : Frame} (hrelated : theirs.Related ValueType.SameShape mine) :
    (mine.join theirs).SameShape mine := by
  have hbelow := below_join_left hrelated
  refine ⟨⟨hbelow.stack.start_right, hbelow.stack.start_left, ?_⟩, ?_⟩
  · exact SameShapes.symm (hbelow.stack.values.imp fun _ _ => ValueType.sameShape_of_le)
  · refine forall₂_toList_iff.mpr ⟨by simp [Frame.join], ?_⟩
    intro i w v hw hv
    rw [getElem?_join_locals, hv, Option.map_some, Option.some.injEq] at hw
    rw [← hw]
    split
    · exact ValueType.SameShape.symm (ValueType.sameShape_of_le (ValueType.le_join_left _ _))
    · exact ValueType.sameShape_refl _

end Frame.SameShape

theorem findIdx?_zip_congr {α β : Type} {R : α → α → Prop} {S : β → β → Prop} {p : α × β → Bool}
    (hp : ∀ {a a' b b'}, R a a' → S b b' → p (a, b) = p (a', b')) {xs xs' : List α}
    {ys ys' : List β} (hx : List.Forall₂ R xs xs') (hy : List.Forall₂ S ys ys') :
    (xs.zip ys).findIdx? p = (xs'.zip ys').findIdx? p := by
  induction hx generalizing ys ys' with
  | nil => simp
  | cons hhead _ ih =>
      cases hy with
      | nil => simp
      | cons hhead' htail' =>
          simp only [List.zip_cons_cons, List.findIdx?_cons, hp hhead hhead', ih htail']

theorem find?_zipIdx_congr {α β : Type} {R : α → α → Prop} {p p' : α × Nat → Bool} {f : α × Nat → β}
    (hp : ∀ {a a'} (i : Nat), R a a' → p (a, i) = p' (a', i))
    (hf : ∀ (a a' : α) (i : Nat), f (a, i) = f (a', i)) {xs xs' : List α}
    (hx : List.Forall₂ R xs xs') (start : Nat) :
    ((xs.zipIdx start).find? p).map f = ((xs'.zipIdx start).find? p').map f := by
  induction hx generalizing start with
  | nil => rfl
  | @cons a a' _ _ hhead _ ih =>
      rw [List.zipIdx_cons, List.zipIdx_cons, List.find?_cons, List.find?_cons, hp start hhead]
      cases p' (a', start) with
      | true => exact congrArg some (hf a a' start)
      | false => exact ih (start + 1)

namespace Frame

/-- Where frames disagree does not hang on more than their shapes. -/
theorem mismatch?_congr {expected expected' actual actual' : Frame}
    (hexpected : expected.SameShape expected') (hactual : actual.SameShape actual') :
    expected.mismatch? actual = expected'.mismatch? actual' := by
  rw [mismatch?, mismatch?, hexpected.depth_eq, hactual.depth_eq,
    findIdx?_zip_congr ?_ hexpected.stack.values hactual.stack.values]
  · split
    · rfl
    · split
      · rfl
      · refine find?_zipIdx_congr ?_ (fun _ _ _ => rfl) hexpected.locals 0
        intro e e' i he
        have htop : (e.type != .top) = (e'.type != .top) := by
          rw [Bool.eq_iff_iff, bne_iff_ne, bne_iff_ne]
          exact not_congr (ValueType.eq_top_congr he)
        have hshape := ValueType.sameShape_congr he (hactual.getD_locals i)
        simp only [Value.sameShape, htop, hshape]
  · intro e e' a a' he ha
    exact congrArg not (ValueType.sameShape_congr he ha)

/-- A frame agrees with itself. -/
theorem mismatch?_self (f : Frame) : f.mismatch? f = none := by
  rw [mismatch?, if_neg (fun h => h rfl), List.findIdx?_eq_none_iff.mpr]
  · simp only [Option.map_eq_none_iff, List.find?_eq_none]
    rintro ⟨e, index⟩ hmem
    have hget : f.locals[index]? = some e := by
      simpa using List.mem_zipIdx_iff_getElem?.mp hmem
    have hself : e.sameShape e = true := ValueType.sameShape_refl e.type
    simp [Array.getD_eq_getD_getElem?, hget, hself]
  · rintro ⟨e, a⟩ hmem
    obtain ⟨i, hi⟩ := List.mem_iff_getElem?.mp hmem
    obtain ⟨he, ha⟩ := List.getElem?_zip_eq_some.mp hi
    have heq : e = a := Option.some.inj (he.symm.trans ha)
    subst heq
    simp only [Value.sameShape, ValueType.sameShape_refl e.type, Bool.not_true]

end Frame

/-- Errors for one reason, about the same instruction or label and with the same expectation. They
may differ in what they show of the values that were found, but not in its shape. -/
inductive CompileError.Agrees : CompileError → CompileError → Prop
  | same (e : CompileError) : Agrees e e
  | stackMismatch {instruction : Nat} {position : Position} {mnemonic : String}
      {producer producer' : Option Nat} {expected : Expectation} {actual actual' : ValueType}
      (hactual : actual.SameShape actual') :
      Agrees (.stackMismatch instruction position mnemonic producer expected actual)
        (.stackMismatch instruction position mnemonic producer' expected actual')
  | localMismatch {instruction : Nat} {position : Position} {index : UInt16}
      {expected : Expectation} {actual actual' : ValueType} (hactual : actual.SameShape actual') :
      Agrees (.localMismatch instruction position index expected actual)
        (.localMismatch instruction position index expected actual')
  | depthsDiffer {label : Nat} {name : String} {position : Position}
      {expected expected' actual actual' : Frame} (hexpected : expected.SameShape expected')
      (hactual : actual.SameShape actual') :
      Agrees (.depthsDiffer label name position expected actual)
        (.depthsDiffer label name position expected' actual')
  | framesDiffer {label : Nat} {name : String} {position : Position}
      {expected expected' actual actual' : Frame} {mismatch : Mismatch}
      (hexpected : expected.SameShape expected') (hactual : actual.SameShape actual') :
      Agrees (.framesDiffer label name position expected actual mismatch)
        (.framesDiffer label name position expected' actual' mismatch)

/-- Both succeed with related results, or both fail with errors that agree. -/
inductive Alike {α β : Type} (R : α → β → Prop) :
    Except CompileError α → Except CompileError β → Prop
  | ok {a : α} {b : β} (h : R a b) : Alike R (.ok a) (.ok b)
  | error {e e' : CompileError} (h : e.Agrees e') : Alike R (.error e) (.error e')

namespace Alike

variable {α β γ δ : Type} {R : α → β → Prop} {Q : γ → δ → Prop}

theorem bind {x : Except CompileError α} {y : Except CompileError β}
    {f : α → Except CompileError γ} {g : β → Except CompileError δ} (hxy : Alike R x y)
    (hfg : ∀ a b, R a b → Alike Q (f a) (g b)) : Alike Q (x >>= f) (y >>= g) := by
  cases hxy with
  | ok h => exact hfg _ _ h
  | error h => exact .error h

theorem foldlM {σ : Type} {f : α → σ → Except CompileError α} {g : β → σ → Except CompileError β}
    (hstep : ∀ s a b, R a b → Alike R (f a s) (g b s)) (steps : List σ) {a : α} {b : β}
    (hab : R a b) : Alike R (steps.foldlM f a) (steps.foldlM g b) := by
  induction steps generalizing a b with
  | nil => exact .ok hab
  | cons s steps ih =>
      rw [List.foldlM_cons, List.foldlM_cons]
      exact (hstep s a b hab).bind fun _ _ => ih

end Alike

theorem StackRelated.pop?_eq_none {s t : SlotVec Value}
    (h : StackRelated ValueType.SameShape s t) (hpop : t.pop? = none) : s.pop? = none := by
  cases hpop' : s.pop? with
  | none => rfl
  | some top =>
      obtain ⟨_, _, hsome, _⟩ := h.symm.pop hpop'
      rw [hpop] at hsome
      cases hsome

/-- A local that is missing counts as unusable. -/
theorem Frame.elim_local? (f : Frame) (index : UInt16) :
    (f.local? index).elim .top Value.type =
      (f.locals.getD index.toNat Value.unusable).type := by
  rw [local?, Array.getD_eq_getD_getElem?]
  cases f.locals[index.toNat]? <;> rfl

namespace Line

variable {f g : Frame} {groups groups' : List (List Value)}

theorem take_alike (line : Line) (e : Expectation) (needed : Nat) {taken taken' : List Value}
    {s t : SlotVec Value} (hst : StackRelated ValueType.SameShape s t)
    (htaken : SameShapes taken taken') :
    Alike (fun x y => SameShapes x.1 y.1 ∧ StackRelated ValueType.SameShape x.2 y.2)
      (line.take e needed taken s) (line.take e needed taken' t) := by
  fun_induction Line.take line e needed taken' t generalizing s taken with
  | case1 taken' t =>
      rw [take, if_pos rfl]
      exact .ok ⟨htaken, hst⟩
  | case2 needed taken' t hneeded hpop =>
      rw [take, if_neg hneeded, hst.pop?_eq_none hpop]
      exact .error (.same _)
  | case3 needed taken' t hneeded w below hpop hfits ih =>
      obtain ⟨v, left, hleft, hvw, hbelow⟩ := hst.pop hpop
      have hwidth : v.width = w.width := ValueType.width_eq_of_sameShape hvw
      rw [take, if_neg hneeded, hleft]
      simp only [fits_eq_of_sameShape e needed hvw, hfits, if_true, hwidth]
      exact ih hbelow (.cons hvw htaken)
  | case4 needed taken' t hneeded w below hpop hfits =>
      obtain ⟨v, left, hleft, hvw, _⟩ := hst.pop hpop
      rw [take, if_neg hneeded, hleft]
      simp only [fits_eq_of_sameShape e needed hvw, hfits]
      exact .error (.stackMismatch hvw)

theorem takeAll_alike (line : Line) (pops : List Expectation) {s t : SlotVec Value}
    (hst : StackRelated ValueType.SameShape s t) :
    Alike (fun x y => List.Forall₂ SameShapes x.1 y.1 ∧ StackRelated ValueType.SameShape x.2 y.2)
      (line.takeAll pops s) (line.takeAll pops t) := by
  induction pops generalizing s t with
  | nil => exact .ok ⟨.nil, hst⟩
  | cons e pops ih =>
      refine (take_alike line e e.width hst .nil).bind ?_
      rintro ⟨group, s'⟩ ⟨group', t'⟩ ⟨hgroup, hst'⟩
      refine (ih hst').bind ?_
      rintro ⟨groups, s''⟩ ⟨groups', t''⟩ ⟨hgroups, hst''⟩
      exact .ok ⟨.cons hgroup hgroups, hst''⟩

theorem loadLocal_alike (line : Line) (hfg : f.SameShape g) (index : UInt16)
    (expected : Expectation) :
    Alike ValueType.SameShape (line.loadLocal f index expected)
      (line.loadLocal g index expected) := by
  have hshape := hfg.getD_locals index.toNat
  simp only [loadLocal, Frame.elim_local?, expected.accepts_eq_of_sameShape hshape]
  split
  · exact .ok hshape
  · exact .error (.localMismatch hshape)

theorem push_alike (line : Line) (hgroups : List.Forall₂ SameShapes groups groups')
    (hfg : f.SameShape g) (pushed : Pushed) :
    Alike Frame.SameShape (line.push groups f pushed) (line.push groups' g pushed) := by
  cases pushed with
  | popped position => exact .ok (.foldl_push (getD_related hgroups position) hfg)
  | fromLocal index expected =>
      exact (line.loadLocal_alike hfg index expected).bind fun _ _ htype => .ok (hfg.push htype)
  | _ => exact .ok (hfg.push (ValueType.sameShape_refl _))

theorem initializeReceiver_sameShape (hgroups : List.Forall₂ SameShapes groups groups')
    (hfg : f.SameShape g) (thisClass : BinaryName) (position : Option Nat) :
    (initializeReceiver thisClass groups position f).SameShape
      (initializeReceiver thisClass groups' position g) := by
  cases position with
  | none => exact hfg
  | some i =>
      simp only [initializeReceiver, Option.bind_some]
      rcases head?_related (getD_related hgroups i) with ⟨hv, hw⟩ | ⟨v, w, hv, hw, hvw⟩
      · rw [hv, hw]
        exact hfg
      · rw [hv, hw]
        exact hfg.markInitialized hvw thisClass

theorem storePopped_sameShape (hgroups : List.Forall₂ SameShapes groups groups')
    (hfg : f.SameShape g) (index : Option UInt16) :
    (storePopped groups index f).SameShape (storePopped groups' index g) := by
  cases index with
  | none => exact hfg
  | some index =>
      simp only [storePopped]
      rcases head?_related (getD_related hgroups 0) with ⟨hv, hw⟩ | ⟨v, w, hv, hw, hvw⟩
      · rw [hv, hw]
        exact hfg
      · rw [hv, hw]
        exact hfg.setLocal hvw index

/-- An instruction does the same to frames of one shape. -/
theorem apply_alike (line : Line) (thisClass : BinaryName) (hfg : f.SameShape g) :
    Alike Frame.SameShape (line.apply thisClass f) (line.apply thisClass g) := by
  rw [apply, apply]
  cases line.instruction.effect with
  | unchanged => exact .ok hfg
  | change c =>
      refine (line.takeAll_alike c.pops hfg.stack).bind ?_
      rintro ⟨groups, s⟩ ⟨groups', t⟩ ⟨hgroups, hst⟩
      have hpopped : (Frame.mk f.locals s).SameShape (Frame.mk g.locals t) := ⟨hst, hfg.locals⟩
      have hinit := initializeReceiver_sameShape hgroups hpopped thisClass c.initializes
      have hstore := storePopped_sameShape hgroups hinit c.store
      exact Alike.foldlM (fun pushed _ _ h => line.push_alike hgroups h pushed) c.pushes hstore

theorem exists_apply {line : Line} {thisClass : BinaryName} {g' : Frame} (hfg : f.SameShape g)
    (h : line.apply thisClass g = .ok g') :
    ∃ f', line.apply thisClass f = .ok f' ∧ f'.SameShape g' := by
  have halike := line.apply_alike thisClass hfg
  rw [h] at halike
  generalize line.apply thisClass f = x at halike
  cases halike with
  | ok hshape => exact ⟨_, rfl, hshape⟩

end Line

end JvmAssembler
