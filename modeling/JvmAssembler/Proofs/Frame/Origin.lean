import JvmAssembler.Proofs.Failure
import JvmAssembler.Proofs.Frame.Shape

/-! Two frames have one origin if they have one shape and the entries of their stacks were produced
by the same instructions. What an instruction does to such frames is parallel: it goes through on
both, and the results have one origin again, or it fails on both at the same pop or local, with the
same expectation, and blames the same instruction. -/

namespace JvmAssembler

/-- The instructions that produced values. -/
def producers (values : List Value) : List (Option Nat) := values.map Value.producer

/-- Frames of one shape whose stack entries were produced by the same instructions. -/
structure Frame.SameOrigin (f g : Frame) : Prop where
  shape : f.SameShape g
  producers_eq : producers f.stack.toList = producers g.stack.toList

/-- The instruction that an error blames for a value on the stack. -/
def CompileError.producer : CompileError → Option Nat
  | .stackMismatch _ _ _ producer _ _ => producer
  | _ => none

/-- Both succeed with related results, or both fail with errors that agree and blame the same
instruction. -/
inductive Parallel {α β : Type} (R : α → β → Prop) :
    Except CompileError α → Except CompileError β → Prop
  | ok {a : α} {b : β} (h : R a b) : Parallel R (.ok a) (.ok b)
  | error {e e' : CompileError} (h : e.Agrees e') (hproducer : e.producer = e'.producer) :
      Parallel R (.error e) (.error e')

namespace Parallel

variable {α β γ δ : Type} {R : α → β → Prop} {Q : γ → δ → Prop}

theorem bind {x : Except CompileError α} {y : Except CompileError β}
    {f : α → Except CompileError γ} {g : β → Except CompileError δ} (hxy : Parallel R x y)
    (hfg : ∀ a b, R a b → Parallel Q (f a) (g b)) : Parallel Q (x >>= f) (y >>= g) := by
  cases hxy with
  | ok h => exact hfg _ _ h
  | error h hproducer => exact .error h hproducer

theorem foldlM {σ : Type} {f : α → σ → Except CompileError α} {g : β → σ → Except CompileError β}
    (hstep : ∀ s a b, R a b → Parallel R (f a s) (g b s)) (steps : List σ) {a : α} {b : β}
    (hab : R a b) : Parallel R (steps.foldlM f a) (steps.foldlM g b) := by
  induction steps generalizing a b with
  | nil => exact .ok hab
  | cons s steps ih =>
      rw [List.foldlM_cons, List.foldlM_cons]
      exact (hstep s a b hab).bind fun _ _ => ih

end Parallel

/-- Stacks of the same shapes with entries from the same instructions. -/
structure StackOrigin (s t : SlotVec Value) : Prop where
  shape : StackRelated ValueType.SameShape s t
  producers_eq : producers s.toList = producers t.toList

theorem StackOrigin.pop {s t rest : SlotVec Value} {w : Value} (h : StackOrigin s t)
    (hpop : t.pop? = some (w, rest)) :
    ∃ v left, s.pop? = some (v, left) ∧ v.type.SameShape w.type ∧ v.producer = w.producer ∧
      StackOrigin left rest := by
  obtain ⟨v, left, hleft, hvw, hrest⟩ := h.shape.pop hpop
  have hproducers := h.producers_eq
  rw [(SlotVec.toList_of_pop? hleft).1, (SlotVec.toList_of_pop? hpop).1, producers, producers,
    List.map_append, List.map_append] at hproducers
  obtain ⟨hbelow, htop⟩ := List.append_inj' hproducers rfl
  exact ⟨v, left, hleft, hvw, List.head_eq_of_cons_eq htop, hrest, hbelow⟩

namespace Frame

variable {f g : Frame}

theorem SameOrigin.refl (hf : f.stack.start = 0) : f.SameOrigin f := ⟨.refl hf, rfl⟩

theorem SameOrigin.symm (hfg : f.SameOrigin g) : g.SameOrigin f :=
  ⟨hfg.shape.symm, hfg.producers_eq.symm⟩

theorem SameOrigin.trans {h : Frame} (hfg : f.SameOrigin g) (hgh : g.SameOrigin h) :
    f.SameOrigin h :=
  ⟨hfg.shape.trans hgh.shape, hfg.producers_eq.trans hgh.producers_eq⟩

theorem SameOrigin.push {v w : Value} (hfg : f.SameOrigin g) (hvw : v.type.SameShape w.type)
    (hproducer : v.producer = w.producer) : (f.push v).SameOrigin (g.push w) where
  shape := hfg.shape.push hvw
  producers_eq := by
    simp only [Frame.push, SlotVec.toList_push, producers, List.map_append, List.map_cons,
      List.map_nil, hproducer]
    exact congrArg (· ++ _) hfg.producers_eq

theorem SameOrigin.foldl_push {xs ys : List Value} (hxy : SameShapes xs ys)
    (hproducers : producers xs = producers ys) (hfg : f.SameOrigin g) :
    (xs.foldl Frame.push f).SameOrigin (ys.foldl Frame.push g) := by
  induction hxy generalizing f g with
  | nil => exact hfg
  | cons hhead _ ih =>
      obtain ⟨hfirst, hrest⟩ := List.cons.inj hproducers
      exact ih hrest (hfg.push hhead hfirst)

/-- A constructor call does not produce the object that it initializes. -/
theorem producers_markInitialized (f : Frame) (type : ValueType) (thisClass : BinaryName) :
    producers (f.markInitialized type thisClass).stack.toList = producers f.stack.toList := by
  simp only [markInitialized]
  split
  · rfl
  · simp only [Frame.map, SlotVec.toList_ofList, producers, List.map_map]
    refine List.map_congr_left fun v _ => ?_
    simp only [Function.comp]
    split <;> rfl

/-- A widened entry is still the one that the first of the frames has. -/
theorem SameOrigin.join {mine theirs : Frame}
    (hrelated : theirs.Related ValueType.SameShape mine) :
    (mine.join theirs).SameOrigin mine where
  shape := .join hrelated
  producers_eq := by
    rw [toList_join_stack]
    have hvalues := hrelated.stack.values
    generalize mine.stack.toList = xs at hvalues ⊢
    generalize theirs.stack.toList = ys at hvalues ⊢
    induction hvalues with
    | nil => rfl
    | cons _ _ ih => exact congrArg₂ List.cons rfl ih

end Frame

namespace Line

variable {f g : Frame} {groups groups' : List (List Value)}

theorem take_parallel (line : Line) (e : Expectation) (needed : Nat) {taken taken' : List Value}
    {s t : SlotVec Value} (hst : StackOrigin s t) (htaken : SameShapes taken taken')
    (hproducers : producers taken = producers taken') :
    Parallel (fun x y => (SameShapes x.1 y.1 ∧ producers x.1 = producers y.1) ∧ StackOrigin x.2 y.2)
      (line.take e needed taken s) (line.take e needed taken' t) := by
  fun_induction Line.take line e needed taken' t generalizing s taken with
  | case1 taken' t =>
      rw [take, if_pos rfl]
      exact .ok ⟨⟨htaken, hproducers⟩, hst⟩
  | case2 needed taken' t hneeded hpop =>
      rw [take, if_neg hneeded, hst.shape.pop?_eq_none hpop]
      exact .error (.same _) rfl
  | case3 needed taken' t hneeded w below hpop hfits ih =>
      obtain ⟨v, left, hleft, hvw, hproducer, hbelow⟩ := hst.pop hpop
      have hwidth : v.width = w.width := ValueType.width_eq_of_sameShape hvw
      rw [take, if_neg hneeded, hleft]
      simp only [fits_eq_of_sameShape e needed hvw, hfits, if_true, hwidth]
      exact ih hbelow (.cons hvw htaken) (congrArg₂ List.cons hproducer hproducers)
  | case4 needed taken' t hneeded w below hpop hfits =>
      obtain ⟨v, left, hleft, hvw, hproducer, _⟩ := hst.pop hpop
      rw [take, if_neg hneeded, hleft]
      simp only [fits_eq_of_sameShape e needed hvw, hfits]
      exact .error (.stackMismatch hvw) hproducer

theorem takeAll_parallel (line : Line) (pops : List Expectation) {s t : SlotVec Value}
    (hst : StackOrigin s t) :
    Parallel (fun x y => (List.Forall₂ SameShapes x.1 y.1 ∧
        x.1.map producers = y.1.map producers) ∧ StackOrigin x.2 y.2)
      (line.takeAll pops s) (line.takeAll pops t) := by
  induction pops generalizing s t with
  | nil => exact .ok ⟨⟨.nil, rfl⟩, hst⟩
  | cons e pops ih =>
      refine (take_parallel line e e.width hst .nil rfl).bind ?_
      rintro ⟨group, s'⟩ ⟨group', t'⟩ ⟨⟨hgroup, hproducers⟩, hst'⟩
      refine (ih hst').bind ?_
      rintro ⟨groups, s''⟩ ⟨groups', t''⟩ ⟨⟨hgroups, hproducers'⟩, hst''⟩
      exact .ok ⟨⟨.cons hgroup hgroups, congrArg₂ List.cons hproducers hproducers'⟩, hst''⟩

theorem producers_getD (groups : List (List Value)) (position : Nat) :
    producers (groups.getD position []) = (groups.map producers).getD position [] := by
  rw [List.getD_eq_getElem?_getD, List.getD_eq_getElem?_getD, List.getElem?_map]
  cases groups[position]? <;> rfl

/-- What is loaded from a local is produced by the load, whatever the local was filled by. -/
theorem push_parallel (line : Line) (hgroups : List.Forall₂ SameShapes groups groups')
    (hproducers : groups.map producers = groups'.map producers) (hfg : f.SameOrigin g)
    (pushed : Pushed) :
    Parallel Frame.SameOrigin (line.push groups f pushed) (line.push groups' g pushed) := by
  cases pushed with
  | popped position =>
      refine .ok (.foldl_push (getD_related hgroups position) ?_ hfg)
      rw [producers_getD, producers_getD, hproducers]
  | fromLocal index expected =>
      have hshape := hfg.shape.getD_locals index.toNat
      simp only [push, loadLocal, Frame.elim_local?, expected.accepts_eq_of_sameShape hshape]
      split
      · exact .ok (hfg.push hshape rfl)
      · exact .error (.localMismatch hshape) rfl
  | _ => exact .ok (hfg.push (ValueType.sameShape_refl _) rfl)

theorem producers_initializeReceiver (thisClass : BinaryName) (groups : List (List Value))
    (position : Option Nat) (f : Frame) :
    producers (initializeReceiver thisClass groups position f).stack.toList =
      producers f.stack.toList := by
  rw [initializeReceiver]
  split
  · exact f.producers_markInitialized _ thisClass
  · rfl

theorem stack_storePopped (groups : List (List Value)) (index : Option UInt16) (f : Frame) :
    (storePopped groups index f).stack = f.stack := by
  cases index with
  | none => rfl
  | some index =>
      simp only [storePopped]
      cases (groups.getD 0 []).head? <;> rfl

/-- An instruction does the same to frames of one origin. -/
theorem apply_parallel (line : Line) (thisClass : BinaryName) (hfg : f.SameOrigin g) :
    Parallel Frame.SameOrigin (line.apply thisClass f) (line.apply thisClass g) := by
  rw [apply, apply]
  cases line.instruction.effect with
  | unchanged => exact .ok hfg
  | change c =>
      refine (line.takeAll_parallel c.pops ⟨hfg.shape.stack, hfg.producers_eq⟩).bind ?_
      rintro ⟨groups, s⟩ ⟨groups', t⟩ ⟨⟨hgroups, hproducers⟩, hst⟩
      have hpopped : (Frame.mk f.locals s).SameShape (Frame.mk g.locals t) :=
        ⟨hst.shape, hfg.shape.locals⟩
      have hinit := initializeReceiver_sameShape hgroups hpopped thisClass c.initializes
      refine Parallel.foldlM (fun pushed _ _ h => line.push_parallel hgroups hproducers h pushed)
        c.pushes ⟨storePopped_sameShape hgroups hinit c.store, ?_⟩
      rw [stack_storePopped, stack_storePopped, producers_initializeReceiver,
        producers_initializeReceiver]
      exact hst.producers_eq

/-- An error of a line whose instruction is applied to a frame. -/
inductive Reports (line : Line) : CompileError → Prop
  | stackUnderflow (expected : Expectation) :
      Reports line (.stackUnderflow line.id line.position line.mnemonic expected)
  | stackMismatch (producer : Option Nat) (expected : Expectation) (actual : ValueType) :
      Reports line (.stackMismatch line.id line.position line.mnemonic producer expected actual)
  | localMismatch (index : UInt16) (expected : Expectation) (actual : ValueType) :
      Reports line (.localMismatch line.id line.position index expected actual)

theorem fails_take (line : Line) (expected : Expectation) (needed : Nat) (taken : List Value)
    (stack : SlotVec Value) : Fails line.Reports (line.take expected needed taken stack) := by
  fun_induction take line expected needed taken stack with
  | case1 => exact .ok _
  | case2 => exact .error (.stackUnderflow _)
  | case3 _ _ _ _ _ _ _ _ ih => exact ih
  | case4 => exact .error (.stackMismatch _ _ _)

theorem fails_takeAll (line : Line) (expectations : List Expectation) (stack : SlotVec Value) :
    Fails line.Reports (line.takeAll expectations stack) := by
  induction expectations generalizing stack with
  | nil => exact .ok _
  | cons expected rest ih =>
      exact .bind (line.fails_take _ _ _ _) fun taken => .bind (ih taken.2) fun _ => .ok _

theorem fails_push (line : Line) (groups : List (List Value)) (f : Frame) (pushed : Pushed) :
    Fails line.Reports (line.push groups f pushed) := by
  cases pushed with
  | fromLocal index expected =>
      have hload : Fails line.Reports (line.loadLocal f index expected) := by
        unfold loadLocal
        dsimp only
        split
        · exact .ok _
        · exact .error (.localMismatch _ _ _)
      exact .bind hload fun _ => .ok _
  | _ => exact .ok _

theorem reports_of_apply {line : Line} {thisClass : BinaryName} {f : Frame} {e : CompileError}
    (h : line.apply thisClass f = .error e) : line.Reports e := by
  have hfails : Fails line.Reports (line.apply thisClass f) := by
    unfold apply
    split
    · exact .ok _
    · exact .bind (line.fails_takeAll _ _) fun taken => .foldlM (line.fails_push _) _ _
  exact hfails e h

/-- Number of pops that go through before one fails. -/
def popped (line : Line) : List Expectation → SlotVec Value → Nat
  | [], _ => 0
  | expected :: rest, stack =>
    match line.take expected expected.width [] stack with
    | .error _ => 0
    | .ok (_, stack) => line.popped rest stack + 1

/-- Number of pops of the instruction that go through on a frame. -/
def pops (line : Line) (f : Frame) : Nat :=
  match line.instruction.effect with
  | .unchanged => 0
  | .change c => line.popped c.pops f.stack

theorem popped_eq (line : Line) (expected : List Expectation) {s t : SlotVec Value}
    (hst : StackRelated ValueType.SameShape s t) : line.popped expected s = line.popped expected t := by
  induction expected generalizing s t with
  | nil => rfl
  | cons e rest ih =>
      have halike := take_alike line e e.width hst .nil
      simp only [popped]
      generalize line.take e e.width [] s = x at halike ⊢
      generalize line.take e e.width [] t = y at halike ⊢
      cases halike with
      | ok h => exact congrArg (· + 1) (ih h.2)
      | error _ => rfl

/-- The same pop fails on frames of one shape. -/
theorem pops_eq (line : Line) (hfg : f.SameShape g) : line.pops f = line.pops g := by
  simp only [pops]
  cases line.instruction.effect with
  | unchanged => rfl
  | change c => exact line.popped_eq c.pops hfg.stack

end Line

end JvmAssembler
