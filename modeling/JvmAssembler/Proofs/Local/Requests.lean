import JvmAssembler.Local

/-! What a store that asks for its local does to the table of a method: it finds the local, or it
adds one at the end, or it leaves the table as it was. A local that was found once is found ever
after, whatever is asked for later. -/

namespace JvmAssembler

/-- Does a reference stand for the local? -/
def Local.answersTo (l : Local) : LocalRef → Bool
  | .index index => l.index == index
  | .name name => l.name == name

namespace LocalTable

theorem find?_eq (t : LocalTable) (reference : LocalRef) :
    t.find? reference = t.locals.find? (·.answersTo reference) := by
  cases reference <;> rfl

theorem find?_congr {t t' : LocalTable} (h : t'.locals = t.locals) (reference : LocalRef) :
    t'.find? reference = t.find? reference := by
  rw [find?_eq, h, find?_eq]

theorem find?_push {t t' : LocalTable} {l : Local} (h : t'.locals = t.locals.push l)
    (reference : LocalRef) : t'.find? reference =
      (t.find? reference).or (if l.answersTo reference then some l else none) := by
  rw [find?_eq, h, Array.find?_push, find?_eq]

theorem not_answersTo_of_find? {t : LocalTable} {reference : LocalRef}
    (h : t.find? reference = none) {l : Local} (hl : l ∈ t.locals) : ¬l.answersTo reference := by
  rw [find?_eq] at h
  exact Array.find?_eq_none.mp h l hl

end LocalTable

/-- What a store asks for. -/
structure StoreRequest where
  reference : LocalRef
  insn : WrittenInstruction
  /-- The type of the local if the store does not declare one. -/
  default : FieldType

namespace StoreRequest

def resolve (r : StoreRequest) : LocalM Local := LocalM.resolveStore r.reference r.insn r.default

/-- The name of the local that is added for the request. -/
def newName (r : StoreRequest) : String :=
  match r.reference with
  | .name name => name
  | .index index =>
    (r.insn.declaration.map (·.name)).getD ("local" ++ Text.zeroPadded 5 index.toNat)

/-- The slot of the local that is added for the request. -/
def newIndex (r : StoreRequest) (t : LocalTable) : Nat :=
  match r.reference with
  | .name _ => t.nextIndex
  | .index index => index.toNat

def created (r : StoreRequest) (t : LocalTable) (type : FieldType) : Local :=
  ⟨r.newName, UInt16.ofNat (r.newIndex t), type, false⟩

theorem answersTo_created (r : StoreRequest) (t : LocalTable) (type : FieldType) :
    (r.created t type).answersTo r.reference := by
  unfold created newName newIndex Local.answersTo
  cases r.reference with
  | index index => exact beq_iff_eq.mpr (UInt16.ofNat_toNat ..)
  | name name => exact beq_self_eq_true name

theorem placeNew_eq (r : StoreRequest) (s : LocalState) :
    ∃ s', LocalM.placeNew r.reference r.insn s = .ok (r.newName, r.newIndex s.table) s' ∧
      s'.table = s.table := by
  unfold newName newIndex LocalM.placeNew
  cases r.reference with
  | index index => cases r.insn.declaration <;> exact ⟨s, rfl, rfl⟩
  | name name =>
      cases r.insn.declaration with
      | none => exact ⟨s, rfl, rfl⟩
      | some declaration =>
          dsimp only
          split
          · exact ⟨_, rfl, rfl⟩
          · exact ⟨s, rfl, rfl⟩

/-- All that a request can do to the table. -/
inductive Outcome (r : StoreRequest) (s : LocalState) :
    EStateM.Result CompileError LocalState Local → Prop
  | found {l : Local} {s' : LocalState} (hfind : s.table.find? r.reference = some l)
      (htable : s'.table = s.table) : Outcome r s (.ok l s')
  | added {type : FieldType} {s' : LocalState} (hfind : s.table.find? r.reference = none)
      (htype : LocalM.declaredType r.insn r.default = .ok type)
      (hfits : r.newIndex s.table + type.width ≤ maxLocals)
      (hlocals : s'.table.locals = s.table.locals.push (r.created s.table type)) :
      Outcome r s (.ok (r.created s.table type) s')
  | refused {e : CompileError} {s' : LocalState} (hfind : s.table.find? r.reference = none)
      (htable : s'.table = s.table) : Outcome r s (.error e s')

theorem outcome_declareNew (r : StoreRequest) {s : LocalState}
    (hfind : s.table.find? r.reference = none) :
    Outcome r s (LocalM.declareNew r.reference r.insn r.default s) := by
  obtain ⟨s₁, hplace, htable⟩ := r.placeNew_eq s
  unfold LocalM.declareNew
  cases htype : LocalM.declaredType r.insn r.default with
  | error e => exact .refused hfind rfl
  | ok type =>
      have hlift : (liftM (.ok type : Except CompileError FieldType) : LocalM FieldType) s =
          .ok type s := rfl
      simp only [bind, EStateM.bind, hlift, hplace]
      split
      · exact .refused hfind htable
      · rename_i hfits
        refine .added hfind htype (Nat.le_of_not_gt hfits) ?_
        rw [← htable]
        rfl

theorem outcome_resolve (r : StoreRequest) (s : LocalState) : Outcome r s (r.resolve s) := by
  have hget : (get : LocalM LocalState) s = .ok s s := rfl
  unfold resolve LocalM.resolveStore
  simp only [bind, EStateM.bind, hget]
  cases hfind : s.table.find? r.reference with
  | none => exact r.outcome_declareNew hfind
  | some l =>
      cases r.insn.declaration with
      | none => exact .found hfind rfl
      | some declaration =>
          dsimp only
          split
          · exact .found hfind rfl
          · exact .found hfind rfl

/-- The state after a request, granted or not. -/
def next (r : StoreRequest) (s : LocalState) : LocalState :=
  match r.resolve s with
  | .ok _ s' => s'
  | .error _ s' => s'

theorem next_of_ok {r : StoreRequest} {s s' : LocalState} {l : Local}
    (h : r.resolve s = .ok l s') : r.next s = s' := by
  rw [next, h]

/-- The request adds a local to the table. -/
structure Adds (r : StoreRequest) (s : LocalState) (l : Local) : Prop where
  find?_eq : s.table.find? r.reference = none
  resolve_eq : ∃ s', r.resolve s = .ok l s'

namespace Adds

variable {r : StoreRequest} {s : LocalState} {l : Local}

theorem spec (h : r.Adds s l) :
    (∃ type, l = r.created s.table type ∧ r.newIndex s.table + type.width ≤ maxLocals) ∧
      (r.next s).table.locals = s.table.locals.push l := by
  obtain ⟨hfind, s', hresolve⟩ := h
  rw [next_of_ok hresolve]
  cases hresolve ▸ r.outcome_resolve s with
  | found hfound => cases hfind.symm.trans hfound
  | added _ _ hfits hlocals => exact ⟨⟨_, rfl, hfits⟩, hlocals⟩

theorem unique {l' : Local} (h : r.Adds s l) (h' : r.Adds s l') : l = l' := by
  obtain ⟨_, hresolve⟩ := h.resolve_eq
  obtain ⟨_, hresolve'⟩ := h'.resolve_eq
  cases hresolve.symm.trans hresolve'
  rfl

theorem answersTo (h : r.Adds s l) : l.answersTo r.reference := by
  obtain ⟨⟨type, rfl, _⟩, _⟩ := h.spec
  exact r.answersTo_created s.table type

theorem not_mem (h : r.Adds s l) : l ∉ s.table.locals := fun hl =>
  LocalTable.not_answersTo_of_find? h.find?_eq hl h.answersTo

theorem name_eq (h : r.Adds s l) : l.name = r.newName := by
  obtain ⟨⟨type, rfl, _⟩, _⟩ := h.spec
  rfl

end Adds

/-- A request keeps the table or adds a local to it. -/
theorem next_cases (r : StoreRequest) (s : LocalState) :
    ((r.next s).table.locals = s.table.locals ∧ ∀ l, ¬r.Adds s l) ∨ ∃ l, r.Adds s l := by
  unfold next
  cases h : r.resolve s with
  | ok l s' =>
      cases h ▸ r.outcome_resolve s with
      | found hfind htable =>
          refine .inl ⟨congrArg LocalTable.locals htable, fun l hadds => ?_⟩
          cases hadds.find?_eq.symm.trans hfind
      | added hfind => exact .inr ⟨_, hfind, s', h⟩
  | error e s' =>
      cases h ▸ r.outcome_resolve s with
      | refused _ htable =>
          refine .inl ⟨congrArg LocalTable.locals htable, fun l hadds => ?_⟩
          obtain ⟨_, hresolve⟩ := hadds.resolve_eq
          cases hresolve.symm.trans h

end StoreRequest

/-- Before any request there are the arguments only. -/
def LocalState.ofMethod (receiver : Option BinaryName) (descriptor : MethodDescriptor)
    (warnShort : Bool) (journal : Journal) : LocalState :=
  ⟨{ LocalTable.ofMethod receiver descriptor with warnShort }, journal⟩

/-- The state after requests, each of them granted or not. -/
def LocalState.after (s : LocalState) (requests : List StoreRequest) : LocalState :=
  requests.foldl (fun s r => r.next s) s

@[simp] theorem LocalState.after_cons (s : LocalState) (r : StoreRequest)
    (requests : List StoreRequest) : s.after (r :: requests) = (r.next s).after requests := rfl

/-- What a request keeps is kept by all of them. -/
theorem LocalState.after_keeps {I : LocalState → Prop} {s : LocalState} (hs : I s)
    (hnext : ∀ r s, I s → I (StoreRequest.next r s)) (requests : List StoreRequest) :
    I (s.after requests) := by
  induction requests generalizing s with
  | nil => exact hs
  | cons r requests ih => exact ih (hnext r s hs)

theorem LocalState.find?_next {s : LocalState} {reference : LocalRef} {l : Local}
    (h : s.table.find? reference = some l) (r : StoreRequest) :
    (r.next s).table.find? reference = some l := by
  rcases r.next_cases s with ⟨hlocals, _⟩ | ⟨l', hadds⟩
  · rw [LocalTable.find?_congr hlocals, h]
  · rw [LocalTable.find?_push hadds.spec.2, h]
    rfl

/-- A local that is found once is found ever after. -/
theorem LocalState.find?_after {s : LocalState} {reference : LocalRef} {l : Local}
    (h : s.table.find? reference = some l) (requests : List StoreRequest) :
    (s.after requests).table.find? reference = some l :=
  after_keeps (I := fun s => s.table.find? reference = some l) h
    (fun r _ hs => find?_next hs r) requests

/-- The local that a store is given is found from then on. -/
theorem StoreRequest.find?_of_resolve {r : StoreRequest} {s s' : LocalState} {l : Local}
    (h : r.resolve s = .ok l s') : s'.table.find? r.reference = some l := by
  cases h ▸ r.outcome_resolve s with
  | found hfind htable => rw [htable, hfind]
  | added hfind _ _ hlocals =>
      rw [LocalTable.find?_push hlocals, hfind, Option.none_or,
        if_pos (r.answersTo_created s.table _)]

theorem LocalTable.find?_of_resolve {t : LocalTable} {reference : LocalRef} {mnemonic : String}
    {position : Position} {l : Local} (h : t.resolve reference mnemonic position = .ok l) :
    t.find? reference = some l := by
  unfold resolve at h
  split at h
  · rename_i hfind
    cases h
    exact hfind
  · cases h

/-- Loads and stores agree on the local of a reference, and stores add none for it. -/
structure LocalState.Resolves (s : LocalState) (reference : LocalRef) (l : Local) : Prop where
  load : ∀ mnemonic position, s.table.resolve reference mnemonic position = .ok l
  store : ∀ r : StoreRequest, r.reference = reference →
    ∃ s', r.resolve s = .ok l s' ∧ s'.table = s.table

theorem LocalState.resolves_iff {s : LocalState} {reference : LocalRef} {l : Local} :
    s.Resolves reference l ↔ s.table.find? reference = some l := by
  constructor
  · intro h
    exact LocalTable.find?_of_resolve (h.load "" {})
  · intro h
    refine ⟨fun mnemonic position => ?_, fun r hr => ?_⟩
    · rw [LocalTable.resolve, h]
    · subst hr
      have houtcome := r.outcome_resolve s
      generalize r.resolve s = result at houtcome ⊢
      cases houtcome with
      | found hfind htable =>
          cases h.symm.trans hfind
          exact ⟨_, rfl, htable⟩
      | added hfind => cases h.symm.trans hfind
      | refused hfind => cases h.symm.trans hfind

end JvmAssembler
