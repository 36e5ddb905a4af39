import JvmAssembler.Proofs.Local.Requests
import Mathlib.Data.List.Nodup

/-! Arguments have names of their own, and a local that is added for a name has a name that was not
in use. Only a store that gives the slot can bring in a name for the second time, written behind the
store or made from the slot. The name then stands for the older local. -/

namespace JvmAssembler

namespace Text

/-- Zeros in front do not change the value of a numeral. -/
theorem ofDigitChars_zeroPadded (width n : Nat) :
    Nat.ofDigitChars 10 (zeroPadded width n).toList 0 = n := by
  rw [zeroPadded, padLeft, String.toList_append, String.toList_ofList, Nat.ofDigitChars_append,
    Nat.ofDigitChars_replicate_zero, Nat.mul_zero, Nat.toString_eq_repr, Nat.repr,
    String.toList_ofList, Nat.ofDigitChars_toDigits (by decide) (by decide)]

theorem zeroPadded_injective (width : Nat) : Function.Injective (zeroPadded width) := by
  intro m n h
  rw [← ofDigitChars_zeroPadded width m, h, ofDigitChars_zeroPadded]

end Text

namespace LocalTable

def names (t : LocalTable) : List String := t.locals.toList.map (·.name)

def argumentName (number : Nat) : String := "arg" ++ Text.zeroPadded 5 number

theorem argumentName_injective : Function.Injective argumentName := by
  intro m n h
  exact Text.zeroPadded_injective 5 ((String.append_right_inj "arg").mp h)

theorem names_addParameters (locals : Array Local) (index number : Nat) (types : List FieldType) :
    (addParameters locals index number types).toList.map (·.name) =
      locals.toList.map (·.name) ++ (List.range' number types.length).map argumentName := by
  induction types generalizing locals index number with
  | nil => simp [addParameters]
  | cons type rest ih =>
      rw [addParameters, ih, Array.toList_push, List.map_append, List.append_assoc,
        List.length_cons, List.range'_succ]
      rfl

theorem nodup_names_ofMethod (receiver : Option BinaryName) (descriptor : MethodDescriptor) :
    (ofMethod receiver descriptor).names.Nodup := by
  have hnumbered : ((List.range' 0 descriptor.parameters.length).map argumentName).Nodup :=
    (List.nodup_range' ..).map argumentName_injective
  cases receiver with
  | none =>
      rw [names, ofMethod, names_addParameters]
      exact hnumbered
  | some owner =>
      rw [names, ofMethod, names_addParameters]
      refine List.nodup_cons.mpr ⟨?_, hnumbered⟩
      intro hthis
      obtain ⟨n, _, hn⟩ := List.mem_map.mp hthis
      have hfirst := congrArg (fun text => text.toList.head?) hn
      simp [argumentName] at hfirst

theorem find?_name_eq_none_iff {t : LocalTable} {name : String} :
    t.find? (.name name) = none ↔ name ∉ t.names := by
  rw [find?, Array.find?_eq_none, names]
  simp

end LocalTable

namespace StoreRequest

variable {r : StoreRequest} {s : LocalState} {l : Local}

theorem Adds.names_next (h : r.Adds s l) :
    (r.next s).table.names = s.table.names ++ [l.name] := by
  rw [LocalTable.names, h.spec.2, Array.toList_push, List.map_append]
  rfl

/-- A local that is added for a name has a name that was not in use. -/
theorem Adds.not_mem_names (h : r.Adds s l) {name : String} (hname : r.reference = .name name) :
    l.name ∉ s.table.names := by
  have hfind := h.find?_eq
  rw [hname, LocalTable.find?_name_eq_none_iff] at hfind
  rw [h.name_eq, newName, hname]
  exact hfind

theorem names_prefix_next (r : StoreRequest) (s : LocalState) :
    s.table.names <+: (r.next s).table.names := by
  rcases r.next_cases s with ⟨hlocals, _⟩ | ⟨l, hadds⟩
  · have hnames : (r.next s).table.names = s.table.names := by
      rw [LocalTable.names, hlocals, LocalTable.names]
    exact hnames ▸ List.prefix_rfl
  · rw [hadds.names_next]
    exact List.prefix_append _ _

/-- The request does not bring in a name that is in use. -/
def Fresh (r : StoreRequest) (s : LocalState) : Prop :=
  ∀ index l, r.reference = .index index → r.Adds s l → l.name ∉ s.table.names

theorem nodup_names_next_iff (hs : s.table.names.Nodup) :
    (r.next s).table.names.Nodup ↔ r.Fresh s := by
  rcases r.next_cases s with ⟨hlocals, hnone⟩ | ⟨l, hadds⟩
  · rw [LocalTable.names, hlocals]
    exact ⟨fun _ _ l _ hadds => absurd hadds (hnone l), fun _ => hs⟩
  · rw [hadds.names_next, List.nodup_append_comm, List.singleton_append, List.nodup_cons]
    constructor
    · intro h index l' _ hadds'
      exact hadds.unique hadds' ▸ h.1
    · intro h
      refine ⟨?_, hs⟩
      cases hreference : r.reference with
      | index index => exact h index l hreference hadds
      | name name => exact hadds.not_mem_names hreference

/-- The name of a local that was added stands for it exactly if it was not in use. -/
theorem Adds.resolves_iff (h : r.Adds s l) :
    (r.next s).Resolves (.name l.name) l ↔ l.name ∉ s.table.names := by
  rw [LocalState.resolves_iff, LocalTable.find?_push h.spec.2]
  cases hfind : s.table.find? (.name l.name) with
  | none =>
      rw [Option.none_or, Local.answersTo, if_pos (beq_self_eq_true l.name)]
      exact iff_of_true rfl (LocalTable.find?_name_eq_none_iff.mp hfind)
  | some older =>
      rw [← LocalTable.find?_name_eq_none_iff, hfind, Option.some_or]
      refine iff_of_false ?_ nofun
      rintro ⟨⟩
      exact h.not_mem (Array.mem_of_find?_eq_some hfind)

end StoreRequest

namespace LocalState

theorem names_prefix_after (s : LocalState) (requests : List StoreRequest) :
    s.table.names <+: (s.after requests).table.names :=
  after_keeps (I := fun t => s.table.names <+: t.table.names) List.prefix_rfl
    (fun r t ht => ht.trans (r.names_prefix_next t)) requests

/-- None of the requests brings in a name that is in use by then. -/
def Fresh (s : LocalState) : List StoreRequest → Prop
  | [] => True
  | r :: later => r.Fresh s ∧ (r.next s).Fresh later

theorem nodup_names_after_iff_fresh {s : LocalState} (hs : s.table.names.Nodup)
    (requests : List StoreRequest) : (s.after requests).table.names.Nodup ↔ s.Fresh requests := by
  induction requests generalizing s with
  | nil => exact iff_of_true hs trivial
  | cons r later ih =>
      rw [after_cons, Fresh, ← StoreRequest.nodup_names_next_iff hs]
      constructor
      · intro h
        have hnext := (names_prefix_after (r.next s) later).sublist.nodup h
        exact ⟨hnext, (ih hnext).mp h⟩
      · rintro ⟨hnext, h⟩
        exact (ih hnext).mpr h

/-- Names stay apart exactly as long as no store that gives its slot brings in a name that is in
use, and the name that such a store writes stands for the new local under the same condition. -/
theorem nodup_names_after_iff (receiver : Option BinaryName) (descriptor : MethodDescriptor)
    (warnShort : Bool) (journal : Journal) (requests : List StoreRequest) :
    (((ofMethod receiver descriptor warnShort journal).after requests).table.names.Nodup ↔
      (ofMethod receiver descriptor warnShort journal).Fresh requests) ∧
    ∀ (r : StoreRequest) (index : UInt16) (declaration : LocalDeclaration) (l : Local),
      r.reference = .index index → r.insn.declaration = some declaration →
      r.Adds ((ofMethod receiver descriptor warnShort journal).after requests) l →
      l.index = index ∧ l.name = declaration.name ∧
        ((r.next ((ofMethod receiver descriptor warnShort journal).after requests)).Resolves
            (.name declaration.name) l ↔
          declaration.name ∉
            ((ofMethod receiver descriptor warnShort journal).after requests).table.names) := by
  refine ⟨nodup_names_after_iff_fresh (LocalTable.nodup_names_ofMethod receiver descriptor) _, ?_⟩
  intro r index declaration l hindex hdeclaration hadds
  have hanswers := hadds.answersTo
  rw [hindex] at hanswers
  have hname : l.name = declaration.name := by
    rw [hadds.name_eq, StoreRequest.newName, hindex, hdeclaration]
    rfl
  exact ⟨beq_iff_eq.mp hanswers, hname, hname ▸ hadds.resolves_iff⟩

end LocalState

/-- Two stores that call their locals the same. -/
def StoreRequest.sameName : List StoreRequest :=
  [⟨.index 2, { mnemonic := "istore", declaration := some ⟨"x", none⟩ }, .base .int⟩,
    ⟨.index 3, { mnemonic := "istore", declaration := some ⟨"x", none⟩ }, .base .int⟩]

/-- Both locals get the name, and it stands for the first of them. -/
theorem LocalState.not_nodup_names_after_sameName :
    ((ofMethod none ⟨[], none⟩ true {}).after StoreRequest.sameName).table.locals =
        #[⟨"x", 2, .base .int, false⟩, ⟨"x", 3, .base .int, false⟩] ∧
      ¬((ofMethod none ⟨[], none⟩ true {}).after StoreRequest.sameName).table.names.Nodup ∧
      ((ofMethod none ⟨[], none⟩ true {}).after StoreRequest.sameName).Resolves (.name "x")
        ⟨"x", 2, .base .int, false⟩ := by
  have hlocals : ((ofMethod none ⟨[], none⟩ true {}).after StoreRequest.sameName).table.locals =
      #[⟨"x", 2, .base .int, false⟩, ⟨"x", 3, .base .int, false⟩] := by decide +kernel
  refine ⟨hlocals, ?_, resolves_iff.mpr ?_⟩
  · rw [LocalTable.names, hlocals]
    decide
  · rw [LocalTable.find?_eq, hlocals]
    decide

end JvmAssembler
