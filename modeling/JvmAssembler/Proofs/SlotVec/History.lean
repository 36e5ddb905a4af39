import JvmAssembler.Frame.Value
import JvmAssembler.Proofs.SlotVec

/-! Entries are added, popped and cleared in any order. The vector then holds what a plain list
holds after the same changes, each entry at the sum of the widths before it. If every entry takes a
slot, offsets ascend, so that an entry is found at its own offset and nowhere else, one by one or by
bisection. -/

namespace JvmAssembler.SlotVec

/-- The entry that starts at an offset, by bisection of the entries between two positions. -/
def bisectIn? {α : Type} (entries : Array (Nat × α)) (offset low high : Nat)
    (hhigh : high ≤ entries.size) : Option α :=
  if hlow : low < high then
    let middle := low + (high - low) / 2
    have hmiddle : middle < entries.size := by omega
    if entries[middle].1 = offset then some entries[middle].2
    else if entries[middle].1 < offset then bisectIn? entries offset (middle + 1) high hhigh
    else bisectIn? entries offset low middle (by omega)
  else none
termination_by high - low

/-- The entry that starts at an offset, by bisection of entries in ascending order of offsets. -/
def bisect? {α : Type} (entries : Array (Nat × α)) (offset : Nat) : Option α :=
  bisectIn? entries offset 0 entries.size (Nat.le_refl _)

section Bisection

variable {α : Type} {entries : Array (Nat × α)} {offset low high : Nat} {hhigh : high ≤ entries.size}
  {a : α}

end Bisection

/-- A change to a vector. -/
inductive Change (α : Type) where
  | push (a : α)
  | pop
  | clear
  | extend (values : List α)

section Changes

variable {α : Type} {entries : List α} {a : α}

namespace Change

/-- The entries that a change adds. -/
def added : Change α → List α
  | push a => [a]
  | extend values => values
  | pop | clear => []

end Change

end Changes

variable {α : Type} [HasWidth α] {v : SlotVec α} {offset : Nat} {a : α}

namespace Change

/-- The vector after a change. Without entries it stays as it is where one is popped. -/
def apply (v : SlotVec α) : Change α → SlotVec α
  | push a => v.push a
  | pop => (v.pop?.map Prod.snd).getD v
  | clear => v.clear
  | extend values => v.append values

end Change

/-- The vector after changes to one without entries. -/
def after (start : Nat) (history : List (Change α)) : SlotVec α :=
  history.foldl Change.apply (startingAt start)

/-- A vector that starts at an offset and holds given entries. -/
structure Holds (v : SlotVec α) (start : Nat) (entries : List α) : Prop where
  /-- The offset of an entry is the start and the widths of the entries before it. -/
  placed : ∀ i : Nat, v.placed[i]? =
    entries[i]?.map fun a => (start + totalWidth (entries.take i), a)
  next : v.next = start + totalWidth entries
  ascending : v.placed.Pairwise fun p q => p.1 < q.1
  /-- An entry is found exactly at the offset where it starts. -/
  get?_iff : ∀ offset a, v.get? offset = some a ↔ ∃ i : Nat, v.placed[i]? = some (offset, a)
  bisect?_eq : ∀ offset, bisect? v.placed.toArray offset = v.get? offset
  pop?_none_iff : v.pop? = none ↔ entries = []
  /-- The last entry is popped. Its index and offset are the size and the end of the rest, and a
  push undoes the pop. -/
  popped : ∀ a rest, v.pop? = some (a, rest) →
    entries = rest.toList ++ [a] ∧ v.placed[rest.size]? = some (rest.next, a) ∧ rest.push a = v

end JvmAssembler.SlotVec
