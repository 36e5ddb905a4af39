import JvmAssembler.Analysis.Step
import Mathlib.Logic.Relation

/-! Control goes from an instruction to the next one, unless the instruction never falls through,
and to the instruction of each label that it jumps to. A path starts at the first instruction of a
method and may be of any length. Following it simulates its instructions one by one: frames of
different paths never meet. -/

namespace JvmAssembler

namespace LabelTable

theorem get_eq_of_getElem? {t : LabelTable} {id : Nat} {label : Label}
    (h : t.labels[id]? = some label) : t.get id = label := by
  rw [get, Array.getD_eq_getD_getElem?, h, Option.getD_some]

theorem getElem?_of_lt {t : LabelTable} {id : Nat} (h : id < t.size) :
    t.labels[id]? = some (t.get id) := by
  have hget : t.labels[id]? = some t.labels[id] := Array.getElem?_eq_getElem h
  rw [get_eq_of_getElem? hget, hget]

theorem instruction_start (t : LabelTable) : (t.get start).instruction = 0 := by
  rw [get_eq_of_getElem? t.start_eq]
  rfl

/-- The label of a block stands in front of the first instruction of the block. -/
theorem instruction_of_block? {t : LabelTable} {i id : Nat} (h : t.block? i = some id) :
    id < t.size ∧ (t.get id).instruction = i := by
  rw [block?, t.blocks_eq, Array.findIdx?_eq_some_iff_getElem] at h
  obtain ⟨hlt, hi, _⟩ := h
  refine ⟨hlt, ?_⟩
  rw [get_eq_of_getElem? (Array.getElem?_eq_getElem hlt)]
  exact eq_of_beq hi

/-- Every label starts a block. -/
theorem isSome_block? {t : LabelTable} {id : Nat} (h : id < t.size) :
    (t.block? (t.get id).instruction).isSome := by
  rw [block?, t.blocks_eq, Array.findIdx?_isSome, Array.any_eq_true]
  refine ⟨id, h, ?_⟩
  rw [get_eq_of_getElem? (Array.getElem?_eq_getElem h)]
  exact beq_self_eq_true _

end LabelTable

namespace Body

variable {body : Body}

/-- Control can go from an instruction to another one. -/
def Flows (body : Body) (i j : Nat) : Prop :=
  ∃ line, body.lines[i]? = some line ∧
    (line.instruction.fallsThrough = true ∧ j = i + 1 ∨
      ∃ label ∈ line.targets, j = (body.labels.get label).instruction)

/-- Control can get to an instruction from the first one. -/
abbrev Reachable (body : Body) (i : Nat) : Prop := Relation.ReflTransGen body.Flows 0 i

/-- A path that has passed some instructions and stands at the next one. -/
inductive Path (body : Body) : List Nat → Nat → Prop
  | start : Path body [] 0
  | step {passed : List Nat} {i j : Nat} :
      Path body passed i → body.Flows i j → Path body (passed ++ [i]) j

/-- Simulates the instructions with the given numbers, one by one. -/
def follow (body : Body) (thisClass : BinaryName) :
    List Nat → Frame → Except CompileError Frame
  | [], f => .ok f
  | i :: rest, f =>
    match body.lines[i]? with
    | none => .error (.fallsOffEnd none {})
    | some line => line.apply thisClass f >>= body.follow thisClass rest

theorem follow_append_singleton {thisClass : BinaryName} {passed : List Nat} {i : Nat}
    {line : Line} {f g h : Frame} (hpassed : body.follow thisClass passed f = .ok g)
    (hline : body.lines[i]? = some line) (happly : line.apply thisClass g = .ok h) :
    body.follow thisClass (passed ++ [i]) f = .ok h := by
  induction passed generalizing f with
  | nil =>
      cases hpassed
      simp only [List.nil_append, follow, hline, happly]
      rfl
  | cons j rest ih =>
      simp only [List.cons_append, follow] at hpassed ⊢
      cases hj : body.lines[j]? with
      | none =>
          rw [hj] at hpassed
          cases hpassed
      | some other =>
          simp only [hj] at hpassed ⊢
          cases hother : other.apply thisClass f with
          | error e =>
              rw [hother] at hpassed
              cases hpassed
          | ok f' =>
              rw [hother] at hpassed
              exact ih hpassed

end Body

end JvmAssembler
