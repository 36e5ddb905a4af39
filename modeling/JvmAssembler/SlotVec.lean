/-! Entries take one slot or several. The offset of an entry is the number of slots before it,
counted from the offset at which the vector starts. The operand stack and the constant pool are such
vectors. -/

namespace JvmAssembler

/-- Values that take a number of slots. -/
class HasWidth (α : Type) where
  width : α → Nat

export HasWidth (width)

/-- The sum of a measure over a list. -/
def total {α : Type} (measure : α → Nat) (values : List α) : Nat :=
  values.foldr (fun a sum => measure a + sum) 0

section Total

variable {α : Type} (measure : α → Nat)

@[simp] theorem total_nil : total measure [] = 0 := rfl

@[simp] theorem total_cons (a : α) (values : List α) :
    total measure (a :: values) = measure a + total measure values := rfl

@[simp] theorem total_append (values others : List α) :
    total measure (values ++ others) = total measure values + total measure others := by
  induction values with
  | nil => simp
  | cons a values ih => rw [List.cons_append, total_cons, total_cons, ih, Nat.add_assoc]

theorem total_reverse (values : List α) : total measure values.reverse = total measure values := by
  induction values with
  | nil => rfl
  | cons a values ih =>
      rw [List.reverse_cons, total_append, ih, total_cons, total_cons, total_nil, Nat.add_zero,
        Nat.add_comm]

/-- Where an entry is replaced by a smaller one, the sum gets smaller. -/
theorem total_set_lt {l : List α} {i : Nat} {a b : α} (hget : l[i]? = some a)
    (h : measure b < measure a) : total measure (l.set i b) < total measure l := by
  induction l generalizing i with
  | nil => cases hget
  | cons x l ih =>
      cases i with
      | zero =>
          cases hget
          rw [List.set_cons_zero, total_cons, total_cons]
          omega
      | succ i =>
          have hrest := ih hget
          rw [List.set_cons_succ, total_cons, total_cons]
          omega

end Total

/-- Slots that a list of values takes. -/
def totalWidth {α : Type} [HasWidth α] (values : List α) : Nat := total width values

@[simp] theorem totalWidth_nil {α : Type} [HasWidth α] : totalWidth ([] : List α) = 0 := rfl

@[simp] theorem totalWidth_cons {α : Type} [HasWidth α] (a : α) (values : List α) :
    totalWidth (a :: values) = width a + totalWidth values := rfl

/-- Entries with running offsets. The entries are kept last first, and `next` is the offset that an
entry added at the end gets. -/
structure SlotVec (α : Type) [HasWidth α] where
  start : Nat
  reversed : List α
  next : Nat
  next_eq : next = start + totalWidth reversed

namespace SlotVec

variable {α : Type} [HasWidth α]

/-- The empty vector whose first entry gets the offset `start`. -/
def startingAt (start : Nat) : SlotVec α := ⟨start, [], start, rfl⟩

def empty : SlotVec α := startingAt 0

instance : Inhabited (SlotVec α) := ⟨empty⟩

/-- Number of entries. -/
def size (v : SlotVec α) : Nat := v.reversed.length

def isEmpty (v : SlotVec α) : Bool := v.reversed.isEmpty

/-- The entries, first to last. -/
def toList (v : SlotVec α) : List α := v.reversed.reverse

def push (v : SlotVec α) (a : α) : SlotVec α :=
  ⟨v.start, a :: v.reversed, v.next + width a, by rw [v.next_eq, totalWidth_cons]; omega⟩

def append (v : SlotVec α) (values : List α) : SlotVec α := values.foldl push v

def ofList (values : List α) : SlotVec α := empty.append values

/-- The last entry and the vector before it. -/
def pop? (v : SlotVec α) : Option (α × SlotVec α) :=
  match v with
  | ⟨_, [], _, _⟩ => none
  | ⟨start, a :: reversed, next, next_eq⟩ =>
    some (a, ⟨start, reversed, next - width a, by rw [next_eq, totalWidth_cons]; omega⟩)

def last? (v : SlotVec α) : Option α := v.reversed.head?

def clear (v : SlotVec α) : SlotVec α := startingAt v.start

/-- Entries with their offsets, given last first with the offset after the last one, put in front of
entries that are placed already. -/
def placedOnto : (next : Nat) → (reversed : List α) → List (Nat × α) → List (Nat × α)
  | _, [], after => after
  | next, a :: reversed, after =>
    placedOnto (next - width a) reversed ((next - width a, a) :: after)

/-- Entries with their offsets, first to last. -/
def placed (v : SlotVec α) : List (Nat × α) := placedOnto v.next v.reversed []

/-- The entry that starts at an offset, among entries given last first with the offset after the
last one. -/
def findReversed? (offset : Nat) : (next : Nat) → (reversed : List α) → Option α
  | _, [] => none
  | next, a :: reversed =>
    if next - width a = offset then some a else findReversed? offset (next - width a) reversed

/-- The entry that starts exactly at an offset. -/
def get? (v : SlotVec α) (offset : Nat) : Option α := findReversed? offset v.next v.reversed

/-- Same entries at the same offsets. -/
instance [BEq α] : BEq (SlotVec α) where
  beq v w := v.reversed == w.reversed && (v.reversed.isEmpty || v.start == w.start)

/-- Slots between the start and the end. -/
def depth (v : SlotVec α) : Nat := v.next - v.start

/-- The entries as `[#offset = entry, ...]`. -/
def text (describe : α → String) (v : SlotVec α) : String :=
  "[" ++ ", ".intercalate (v.placed.map fun (offset, a) => s!"#{offset} = {describe a}") ++ "]"

@[simp] theorem toList_startingAt (start : Nat) : (startingAt start : SlotVec α).toList = [] := rfl

@[simp] theorem toList_push (v : SlotVec α) (a : α) : (v.push a).toList = v.toList ++ [a] := by
  simp [toList, push]

theorem toList_append (v : SlotVec α) (values : List α) :
    (v.append values).toList = v.toList ++ values := by
  induction values generalizing v with
  | nil => simp [append]
  | cons a values ih =>
      have h := ih (v.push a)
      simp only [append, List.foldl_cons] at h ⊢
      rw [h, toList_push, List.append_assoc]
      rfl

@[simp] theorem toList_ofList (values : List α) : (ofList values).toList = values := by
  rw [ofList, toList_append]
  rfl

theorem pop?_push (v : SlotVec α) (a : α) : (v.push a).pop? = some (a, v) := by
  obtain ⟨start, reversed, next, next_eq⟩ := v
  simp [push, pop?]

theorem get?_push (v : SlotVec α) (a : α) (offset : Nat) :
    (v.push a).get? offset = if v.next = offset then some a else v.get? offset := by
  simp only [get?, push, findReversed?, Nat.add_sub_cancel]

/-- Entries stand below the end, if each takes a slot. -/
theorem lt_next_of_get?_eq_some (hpos : ∀ a : α, 0 < width a) {v : SlotVec α} {offset : Nat} {a : α}
    (h : v.get? offset = some a) : offset < v.next := by
  obtain ⟨start, reversed, next, next_eq⟩ := v
  simp only [get?] at h ⊢
  induction reversed generalizing next with
  | nil => cases h
  | cons b reversed ih =>
      have hb := hpos b
      rw [totalWidth_cons] at next_eq
      simp only [findReversed?] at h
      split at h
      · omega
      · have hlt := ih (next - width b) (by omega) h
        omega

theorem totalWidth_reverse (values : List α) : totalWidth values.reverse = totalWidth values :=
  total_reverse width values

theorem next_eq_toList (v : SlotVec α) : v.next = v.start + totalWidth v.toList := by
  rw [v.next_eq, toList, totalWidth_reverse]

end SlotVec

end JvmAssembler
