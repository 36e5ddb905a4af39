/-! First in, first out: entries are added at the end and taken from the front. -/

namespace JvmAssembler

structure Queue (α : Type) where
  front : List α := []
  /-- The entries after the front, last first. -/
  back : List α := []

namespace Queue

variable {α : Type}

/-- The entries, first to last. -/
def toList (q : Queue α) : List α := q.front ++ q.back.reverse

def size (q : Queue α) : Nat := q.front.length + q.back.length

def push (q : Queue α) (a : α) : Queue α := { q with back := a :: q.back }

def contains [BEq α] (q : Queue α) (a : α) : Bool := q.front.contains a || q.back.contains a

/-- The first entry and the queue after it. -/
def pop? (q : Queue α) : Option (α × Queue α) :=
  match q.front with
  | a :: front => some (a, { q with front := front })
  | [] =>
    match q.back.reverse with
    | a :: front => some (a, { front := front })
    | [] => none

@[simp] theorem toList_push (q : Queue α) (a : α) : (q.push a).toList = q.toList ++ [a] := by
  simp [toList, push]

theorem toList_of_pop? {q rest : Queue α} {a : α} (h : q.pop? = some (a, rest)) :
    q.toList = a :: rest.toList := by
  obtain ⟨front, back⟩ := q
  cases front with
  | cons b front =>
      simp only [pop?, Option.some.injEq, Prod.mk.injEq] at h
      obtain ⟨rfl, rfl⟩ := h
      rfl
  | nil =>
      simp only [pop?] at h
      split at h
      · rename_i b front hback
        simp only [Option.some.injEq, Prod.mk.injEq] at h
        obtain ⟨rfl, rfl⟩ := h
        simp [toList, hback]
      · cases h

theorem toList_of_pop?_none {q : Queue α} (h : q.pop? = none) : q.toList = [] := by
  obtain ⟨front, back⟩ := q
  cases front with
  | cons a front => cases h
  | nil =>
      simp only [pop?] at h
      split at h
      · cases h
      · rename_i hback
        simp [toList, hback]

theorem size_eq_length (q : Queue α) : q.size = q.toList.length := by
  simp [size, toList]

theorem size_lt_of_pop? {q rest : Queue α} {a : α} (h : q.pop? = some (a, rest)) :
    rest.size < q.size := by
  rw [size_eq_length, size_eq_length, toList_of_pop? h]
  exact Nat.lt_succ_self _

end Queue

end JvmAssembler
