import JvmAssembler.Error
import Std.Data.TreeMap

/-! Labels are numbered in the order of their declaration. Number 0 is the start of the method. A
label stands in front of an instruction, or behind the last one. The label declared first in front
of an instruction names the block that starts there. -/

namespace JvmAssembler

structure Label where
  name : String
  position : Position
  /-- The instruction after the label. -/
  instruction : Nat
  /-- Was the label made up for a block that no label names? -/
  anonymous : Bool
deriving DecidableEq, Repr, Inhabited

theorem getElem?_push_of_eq_some {α : Type} {xs : Array α} {i : Nat} {a b : α}
    (h : xs[i]? = some a) : (xs.push b)[i]? = some a := by
  obtain ⟨hlt, _⟩ := Array.getElem?_eq_some_iff.mp h
  rw [Array.getElem?_push_lt hlt, ← h, Array.getElem?_eq_getElem hlt]

/-- The number of the label at the start of a method. -/
def LabelTable.start : Nat := 0

def LabelTable.startLabel : Label := ⟨"<start>", {}, 0, true⟩

structure LabelTable where
  labels : Array Label
  /-- Numbers of the labels that have a name. -/
  names : Std.TreeMap String Nat
  /-- The first label in front of each instruction that has one. -/
  blocks : Std.TreeMap Nat Nat
  start_eq : labels[LabelTable.start]? = some LabelTable.startLabel
  names_eq : ∀ name id, names[name]? = some id → labels[id]?.map Label.name = some name
  blocks_eq : ∀ i, blocks[i]? = labels.findIdx? (·.instruction == i)

namespace LabelTable

def empty : LabelTable where
  labels := #[startLabel]
  names := ∅
  blocks := (∅ : Std.TreeMap Nat Nat).insert 0 start
  start_eq := rfl
  names_eq := by
    intro name id h
    rw [Std.TreeMap.getElem?_emptyc] at h
    cases h
  blocks_eq := by
    intro i
    rw [Std.TreeMap.getElem?_insert, Array.findIdx?_singleton, Std.TreeMap.getElem?_emptyc]
    by_cases h : i = 0
    · subst h
      rfl
    · have hne : (0 : Nat) ≠ i := fun heq => h heq.symm
      simp [startLabel, hne]

instance : Inhabited LabelTable := ⟨empty⟩

def size (t : LabelTable) : Nat := t.labels.size

theorem size_pos (t : LabelTable) : 0 < t.size := by
  obtain ⟨h, _⟩ := Array.getElem?_eq_some_iff.mp t.start_eq
  exact h

/-- Adds a label, and returns its number. -/
def add (t : LabelTable) (label : Label) : Nat × LabelTable :=
  let id := t.size
  (id, {
    labels := t.labels.push label
    names := t.names
    blocks := t.blocks.insertIfNew label.instruction id
    start_eq := getElem?_push_of_eq_some t.start_eq
    names_eq := by
      intro name i h
      obtain ⟨found, hfound, hname⟩ := Option.map_eq_some_iff.mp (t.names_eq name i h)
      rw [getElem?_push_of_eq_some hfound, Option.map_some, hname]
    blocks_eq := by
      intro i
      simp only [Std.TreeMap.getElem?_insertIfNew, Std.TreeMap.mem_iff_isSome_getElem?,
        Array.findIdx?_push, t.blocks_eq, Std.compare_eq_iff_eq]
      by_cases h : label.instruction = i
      · subst h
        cases t.labels.findIdx? (·.instruction == label.instruction) <;> simp [id, size]
      · simp [h] })

/-- Declares a label with a name, which no other label has. -/
def declare (t : LabelTable) (name : String) (position : Position) (instruction : Nat) :
    Except CompileError (Nat × LabelTable) :=
  if t.names.contains name then .error (.duplicateLabel name position)
  else
    let id := t.size
    let added := (t.add ⟨name, position, instruction, false⟩).2
    .ok (id, {
      added with
      names := t.names.insert name id
      names_eq := by
        intro other i h
        rw [Std.TreeMap.getElem?_insert] at h
        split at h
        · rename_i heq
          cases h
          rw [Std.compare_eq_iff_eq] at heq
          subst heq
          exact congrArg _ (Array.getElem?_push_size)
        · exact added.names_eq other i h })

/-- Makes up a label for a block. -/
def declareAnonymous (t : LabelTable) (position : Position) (instruction : Nat) :
    Nat × LabelTable :=
  t.add ⟨s!"<block at {instruction}>", position, instruction, true⟩

def lookup? (t : LabelTable) (name : String) : Option Nat := t.names[name]?

/-- The label with a number; a number that is not in use stands for the start. -/
def get (t : LabelTable) (id : Nat) : Label := t.labels.getD id startLabel

/-- The label that names the block at an instruction. -/
def block? (t : LabelTable) (instruction : Nat) : Option Nat := t.blocks[instruction]?

/-- Labels in front of an instruction, in the order of their declaration. -/
def labelsAt (t : LabelTable) (instruction : Nat) : List Nat :=
  t.labels.toList.zipIdx.filterMap fun (label, id) =>
    if label.instruction = instruction then some id else none

end LabelTable

end JvmAssembler
