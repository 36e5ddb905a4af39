import JvmAssembler.Proofs.Frame.Balance
import Mathlib.Data.List.GetD
import Mathlib.Data.List.Induction

/-! The stack as slots: a long or double takes two slots that belong together, any other value takes
one. The instructions that only rearrange the stack take groups of slots off it and put them back.
They go through exactly if no long or double is cut in two, and then they do to the slots what the
instruction set says. -/

namespace JvmAssembler

/-- A slot of a value. Part 1 is the upper slot of a long or double. -/
structure Slot where
  value : Value
  part : Nat

namespace Value

/-- A value of two slots. -/
def IsWide (v : Value) : Prop := v.type = .numeric .long ∨ v.type = .numeric .double

instance (v : Value) : Decidable v.IsWide := inferInstanceAs (Decidable (_ ∨ _))

/-- The slots of a value, the lower one first. -/
def slots (v : Value) : List Slot := if v.IsWide then [⟨v, 0⟩, ⟨v, 1⟩] else [⟨v, 0⟩]

theorem width_eq_ite (v : Value) : v.width = if v.IsWide then 2 else 1 := by
  obtain ⟨type, producer⟩ := v
  cases type with
  | numeric kind => cases kind <;> rfl
  | _ => rfl

theorem length_slots (v : Value) : v.slots.length = v.width := by
  rw [width_eq_ite, slots]
  split <;> rfl

end Value

/-- The slots of values, which are given bottom first, from the top down. -/
def slotsOf (values : List Value) : List Slot := (values.flatMap Value.slots).reverse

theorem slotsOf_append (values others : List Value) :
    slotsOf (values ++ others) = slotsOf others ++ slotsOf values := by
  rw [slotsOf, List.flatMap_append, List.reverse_append]
  rfl

theorem slotsOf_flatten (groups : List (List Value)) :
    slotsOf groups.flatten = (groups.reverse.map slotsOf).flatten := by
  induction groups with
  | nil => rfl
  | cons group groups ih =>
      rw [List.flatten_cons, slotsOf_append, ih, List.reverse_cons, List.map_append,
        List.flatten_append]
      simp

theorem length_slotsOf (values : List Value) : (slotsOf values).length = totalWidth values := by
  rw [slotsOf, List.length_reverse]
  induction values with
  | nil => rfl
  | cons v values ih =>
      rw [List.flatMap_cons, List.length_append, ih, v.length_slots]
      rfl

/-- The slots of the stack from the top down. -/
def Frame.slots (f : Frame) : List Slot := slotsOf f.stack.toList

/-- The place so many slots below the top is inside a long or double. -/
def CutsValue (values : List Value) (depth : Nat) : Prop :=
  ∃ below v above, values = below ++ v :: above ∧ v.IsWide ∧ depth = totalWidth above + 1

/-- The place so many slots below the top is one between values. -/
def Separates (values : List Value) (depth : Nat) : Prop :=
  ∃ below above, values = below ++ above ∧ totalWidth above = depth

theorem CutsValue.cons {values : List Value} {depth : Nat} (h : CutsValue values depth) (v : Value) :
    CutsValue (v :: values) depth := by
  obtain ⟨below, w, above, rfl, hwide, hdepth⟩ := h
  exact ⟨v :: below, w, above, rfl, hwide, hdepth⟩

theorem Separates.not_cutsValue {values : List Value} {depth : Nat} (h : Separates values depth) :
    ¬ CutsValue values depth := by
  rintro ⟨below, v, above, hsplit, hwide, rfl⟩
  obtain ⟨rest, group, rfl, hgroup⟩ := h
  have hwidth : width v = 2 := v.width_eq_ite.trans (if_pos hwide)
  rcases List.append_eq_append_iff.mp hsplit with ⟨between, _, rfl⟩ | ⟨between, _, habove⟩
  · rw [totalWidth_append, totalWidth_cons] at hgroup
    omega
  · cases between with
    | nil =>
        rw [List.nil_append] at habove
        rw [← habove, totalWidth_cons] at hgroup
        omega
    | cons w between =>
        rw [List.cons_append] at habove
        obtain ⟨_, rfl⟩ := List.cons.inj habove
        rw [totalWidth_append] at hgroup
        omega

theorem separates_iff {values : List Value} {depth : Nat} :
    Separates values depth ↔ depth ≤ totalWidth values ∧ ¬ CutsValue values depth := by
  refine ⟨fun h => ⟨?_, h.not_cutsValue⟩, ?_⟩
  · obtain ⟨below, above, rfl, rfl⟩ := h
    rw [totalWidth_append]
    exact Nat.le_add_left _ _
  · rintro ⟨hle, hcuts⟩
    induction values with
    | nil => exact ⟨[], [], rfl, (Nat.le_zero.mp hle).symm⟩
    | cons v values ih =>
        rw [totalWidth_cons] at hle
        by_cases hrest : depth ≤ totalWidth values
        · obtain ⟨below, above, rfl, habove⟩ := ih hrest fun h => hcuts (h.cons v)
          exact ⟨v :: below, above, rfl, habove⟩
        · by_cases hall : depth = width v + totalWidth values
          · exact ⟨[], v :: values, rfl, hall.symm⟩
          · have hwidth : width v = if v.IsWide then 2 else 1 := v.width_eq_ite
            split at hwidth
            · rename_i hwide
              exact absurd ⟨[], v, values, rfl, hwide, by omega⟩ hcuts
            · omega

/-- Places below a group of values are counted from the group on. -/
theorem separates_append_iff {values group : List Value} {depth : Nat} :
    Separates (values ++ group) (totalWidth group + depth) ↔ Separates values depth := by
  constructor
  · rintro ⟨below, above, hsplit, habove⟩
    rcases List.append_eq_append_iff.mp hsplit with ⟨between, _, rfl⟩ | ⟨between, rfl, rfl⟩
    · rw [totalWidth_append] at habove
      exact ⟨values, [], (List.append_nil _).symm, by rw [totalWidth_nil]; omega⟩
    · rw [totalWidth_append] at habove
      exact ⟨below, between, rfl, by omega⟩
  · rintro ⟨below, above, rfl, rfl⟩
    refine ⟨below, above ++ group, List.append_assoc _ _ _, ?_⟩
    rw [totalWidth_append, Nat.add_comm]

/-- The sums of the first numbers, on top of one. -/
def runningSums (start : Nat) : List Nat → List Nat
  | [] => []
  | n :: rest => (start + n) :: runningSums (start + n) rest

/-- Groups of values have certain widths. -/
def HaveWidths (widths : List Nat) (groups : List (List Value)) : Prop :=
  List.Forall₂ (fun width group => totalWidth group = width) widths groups

/-- There are groups of certain widths below others exactly if all places below them are places between
values. The groups are given top first. -/
theorem exists_groups_iff {widths : List Nat} {values : List Value} (taken : List Value) :
    (∃ below groups, HaveWidths widths groups ∧ values = below ++ groups.reverse.flatten) ↔
      ∀ cut ∈ runningSums (totalWidth taken) widths, Separates (values ++ taken) cut := by
  induction widths generalizing values taken with
  | nil =>
      refine ⟨fun _ cut hcut => absurd hcut List.not_mem_nil, fun _ => ?_⟩
      exact ⟨values, [], .nil, (List.append_nil _).symm⟩
  | cons n widths ih =>
      rw [runningSums, List.forall_mem_cons, separates_append_iff]
      constructor
      · rintro ⟨below, groups, hgroups, hvalues⟩
        cases hgroups with
        | @cons _ group _ rest hgroup hrest =>
            rw [List.reverse_cons, List.flatten_append, List.flatten_singleton,
              ← List.append_assoc] at hvalues
            refine ⟨⟨_, group, hvalues, hgroup⟩, ?_⟩
            rw [hvalues, List.append_assoc, ← hgroup, Nat.add_comm, ← totalWidth_append]
            exact (ih (group ++ taken)).mp ⟨below, rest, hrest, rfl⟩
      · rintro ⟨⟨lower, group, rfl, hgroup⟩, hcuts⟩
        rw [← hgroup, Nat.add_comm, ← totalWidth_append, List.append_assoc] at hcuts
        obtain ⟨below, rest, hrest, rfl⟩ := (ih (group ++ taken)).mpr hcuts
        refine ⟨below, group :: rest, .cons hgroup hrest, ?_⟩
        rw [List.reverse_cons, List.flatten_append, List.flatten_singleton, List.append_assoc]

theorem HaveWidths.totalWidth_flatten {widths : List Nat} {groups : List (List Value)}
    (h : HaveWidths widths groups) : totalWidth groups.reverse.flatten = total id widths := by
  induction h with
  | nil => rfl
  | cons hgroup _ ih =>
      rw [List.reverse_cons, List.flatten_append, List.flatten_singleton, totalWidth_append, ih,
        hgroup, total_cons, id, Nat.add_comm]

theorem HaveWidths.length_slotsOf {widths : List Nat} {groups : List (List Value)}
    (h : HaveWidths widths groups) :
    List.Forall₂ (fun n piece => piece.length = n) widths (groups.map slotsOf) := by
  rw [List.forall₂_map_right_iff]
  exact h.imp fun _ group hgroup => (JvmAssembler.length_slotsOf group).trans hgroup

/-! ### The instructions -/

namespace StackOp

/-- What an instruction makes of slots, from the top down, if there are enough of them. -/
def rearrange {α : Type} : StackOp → List α → Option (List α)
  | pop, _ :: rest => some rest
  | pop2, _ :: _ :: rest => some rest
  | dup, a :: rest => some (a :: a :: rest)
  | dupX1, a :: b :: rest => some (a :: b :: a :: rest)
  | dupX2, a :: b :: c :: rest => some (a :: b :: c :: a :: rest)
  | dup2, a :: b :: rest => some (a :: b :: a :: b :: rest)
  | dup2X1, a :: b :: c :: rest => some (a :: b :: c :: a :: b :: rest)
  | dup2X2, a :: b :: c :: d :: rest => some (a :: b :: c :: d :: a :: b :: rest)
  | swap, a :: b :: rest => some (b :: a :: rest)
  | _, _ => none

/-- How many slots below the top an instruction takes the stack apart: below the group on top, and
below the group underneath if there is one. -/
def cuts : StackOp → List Nat
  | pop | dup => [1]
  | pop2 | dup2 => [2]
  | dupX1 | swap => [1, 2]
  | dupX2 => [1, 3]
  | dup2X1 => [2, 3]
  | dup2X2 => [2, 4]

/-- Slots of the groups that an instruction takes, top first. -/
def groups : StackOp → List Nat
  | pop | dup => [1]
  | pop2 | dup2 => [2]
  | dupX1 | swap => [1, 1]
  | dupX2 => [1, 2]
  | dup2X1 => [2, 1]
  | dup2X2 => [2, 2]

/-- The groups that an instruction puts back, the last one on top. -/
def order : StackOp → List Nat
  | pop | pop2 => []
  | dup | dup2 => [0, 0]
  | swap => [0, 1]
  | dupX1 | dupX2 | dup2X1 | dup2X2 => [0, 1, 0]

theorem effect_eq (op : StackOp) :
    Effect.ofStackOp op = .exchange (op.groups.map .slots) (op.order.map .popped) := by
  cases op <;> rfl

theorem cuts_eq (op : StackOp) : op.cuts = runningSums 0 op.groups := by
  cases op <;> rfl

theorem getLast?_cuts (op : StackOp) : op.cuts.getLast? = some (total id op.groups) := by
  cases op <;> rfl

/-- Groups of slots are moved as a whole. -/
theorem rearrange_flatten {α : Type} (op : StackOp) {pieces : List (List α)}
    (h : List.Forall₂ (fun n piece => piece.length = n) op.groups pieces) (rest : List α) :
    op.rearrange (pieces.flatten ++ rest) =
      some (op.order.reverse.flatMap (pieces.getD · []) ++ rest) := by
  cases op with
  | pop | dup =>
      rcases h with _ | ⟨hfirst, _ | _⟩
      obtain ⟨a, rfl⟩ := List.length_eq_one_iff.mp hfirst
      rfl
  | pop2 | dup2 =>
      rcases h with _ | ⟨hfirst, _ | _⟩
      obtain ⟨a, b, rfl⟩ := List.length_eq_two.mp hfirst
      rfl
  | dupX1 | swap =>
      rcases h with _ | ⟨hfirst, _ | ⟨hsecond, _ | _⟩⟩
      obtain ⟨a, rfl⟩ := List.length_eq_one_iff.mp hfirst
      obtain ⟨b, rfl⟩ := List.length_eq_one_iff.mp hsecond
      rfl
  | dupX2 =>
      rcases h with _ | ⟨hfirst, _ | ⟨hsecond, _ | _⟩⟩
      obtain ⟨a, rfl⟩ := List.length_eq_one_iff.mp hfirst
      obtain ⟨b, c, rfl⟩ := List.length_eq_two.mp hsecond
      rfl
  | dup2X1 =>
      rcases h with _ | ⟨hfirst, _ | ⟨hsecond, _ | _⟩⟩
      obtain ⟨a, b, rfl⟩ := List.length_eq_two.mp hfirst
      obtain ⟨c, rfl⟩ := List.length_eq_one_iff.mp hsecond
      rfl
  | dup2X2 =>
      rcases h with _ | ⟨hfirst, _ | ⟨hsecond, _ | _⟩⟩
      obtain ⟨a, b, rfl⟩ := List.length_eq_two.mp hfirst
      obtain ⟨c, d, rfl⟩ := List.length_eq_two.mp hsecond
      rfl

end StackOp

namespace Line

variable {line : Line}

/-- Whole values can be taken for as many slots as they have. -/
theorem exists_take_slots (line : Line) (count : Nat) {below values : List Value}
    (taken : List Value) {stack : SlotVec Value} (h : stack.toList = below ++ values) :
    ∃ rest, line.take (.slots count) (totalWidth values) taken stack = .ok (values ++ taken, rest) ∧
      rest.toList = below := by
  induction values using List.reverseRecOn generalizing taken stack with
  | nil =>
      rw [List.append_nil] at h
      exact ⟨stack, by rw [take, if_pos totalWidth_nil, List.nil_append], h⟩
  | append_singleton values v ih =>
      rw [← List.append_assoc] at h
      obtain ⟨lower, hpop, hlower, _⟩ := SlotVec.pop?_of_toList h
      obtain ⟨rest, htake, hrest⟩ := ih (v :: taken) hlower
      have hpos : 0 < v.width := v.type.width_pos
      have hwidth : totalWidth (values ++ [v]) = totalWidth values + v.width :=
        totalWidth_append values [v]
      have hfits : fits (.slots count) (totalWidth values + v.width) v = true :=
        decide_eq_true (Nat.le_add_left _ _)
      refine ⟨rest, ?_, hrest⟩
      rw [hwidth, take, if_neg (by omega), hpop]
      simp only [hfits, if_true, Nat.add_sub_cancel]
      rw [htake, List.append_assoc, List.singleton_append]

theorem exists_takeAll_slots (line : Line) {widths : List Nat} {groups : List (List Value)}
    (hgroups : HaveWidths widths groups) {below : List Value} {stack : SlotVec Value}
    (h : stack.toList = below ++ groups.reverse.flatten) :
    ∃ rest, line.takeAll (widths.map .slots) stack = .ok (groups, rest) ∧ rest.toList = below := by
  induction hgroups generalizing stack with
  | nil =>
      rw [List.reverse_nil, List.flatten_nil, List.append_nil] at h
      exact ⟨stack, rfl, h⟩
  | @cons n group widths groups hgroup _ ih =>
      rw [List.reverse_cons, List.flatten_append, List.flatten_singleton, ← List.append_assoc] at h
      obtain ⟨lower, htake, hlower⟩ := line.exists_take_slots n [] h
      obtain ⟨rest, htakeAll, hrest⟩ := ih hlower
      rw [List.append_nil, hgroup] at htake
      refine ⟨rest, ?_, hrest⟩
      rw [List.map_cons, takeAll]
      simp only [Expectation.width, htake, htakeAll, bind, Except.bind]
      rfl

theorem exists_pushAll_popped (line : Line) (groups : List (List Value)) (positions : List Nat)
    (f : Frame) :
    ∃ f', (positions.map .popped).foldlM (line.push groups) f = .ok f' ∧
      f'.stack.toList = f.stack.toList ++ positions.flatMap (groups.getD · []) ∧
      f'.locals = f.locals := by
  induction positions generalizing f with
  | nil => exact ⟨f, rfl, (List.append_nil _).symm, rfl⟩
  | cons position positions ih =>
      obtain ⟨f', hpushes, hstack, hlocals⟩ := ih ((groups.getD position []).foldl Frame.push f)
      refine ⟨f', hpushes, ?_, hlocals.trans (locals_foldl_push _ f)⟩
      rw [hstack, toList_foldl_push, List.append_assoc, List.flatMap_cons]

variable {thisClass : BinaryName} {op : StackOp} {f : Frame}

/-- Groups of whole values on top of the stack are rearranged. -/
theorem exists_apply_stack (hline : line.instruction = .operation (.stack op))
    (thisClass : BinaryName) {groups : List (List Value)} (hgroups : HaveWidths op.groups groups)
    {below : List Value} (h : f.stack.toList = below ++ groups.reverse.flatten) :
    ∃ f', line.apply thisClass f = .ok f' ∧
      f'.stack.toList = below ++ op.order.flatMap (groups.getD · []) ∧ f'.locals = f.locals := by
  obtain ⟨rest, htake, hrest⟩ := line.exists_takeAll_slots hgroups h
  obtain ⟨f', hpushes, hstack, hlocals⟩ :=
    line.exists_pushAll_popped groups op.order { f with stack := rest }
  refine ⟨f', ?_, hrest ▸ hstack, hlocals⟩
  have heffect : line.instruction.effect = .exchange (op.groups.map .slots) (op.order.map .popped) :=
    hline ▸ op.effect_eq
  rw [apply, heffect]
  simp only [Effect.exchange, applyChange, htake, bind, Except.bind]
  exact hpushes

/-- An instruction that goes through finds groups of whole values. -/
theorem exists_of_apply_stack (hline : line.instruction = .operation (.stack op)) {f' : Frame}
    (h : line.apply thisClass f = .ok f') :
    ∃ below groups, HaveWidths op.groups groups ∧
      f.stack.toList = below ++ groups.reverse.flatten := by
  have heffect : line.instruction.effect = .exchange (op.groups.map .slots) (op.order.map .popped) :=
    hline ▸ op.effect_eq
  rw [apply, heffect] at h
  obtain ⟨⟨groups, stack⟩, htake, _⟩ := exists_of_bind_eq_ok h
  have hwidths := (width_of_takeAll htake).1
  exact ⟨stack.toList, groups, List.forall₂_map_left_iff.mp hwidths, toList_of_takeAll htake⟩

/-- The places where the stack is taken apart are between values exactly if there are groups. -/
theorem exists_groups_iff_cuts (op : StackOp) (f : Frame) :
    (∃ below groups, HaveWidths op.groups groups ∧
      f.stack.toList = below ++ groups.reverse.flatten) ↔
      ∀ cut ∈ op.cuts, cut ≤ f.slots.length ∧ ¬ CutsValue f.stack.toList cut := by
  rw [exists_groups_iff [], op.cuts_eq, List.append_nil, totalWidth_nil, Frame.slots, length_slotsOf]
  simp only [separates_iff]

/-- Moving groups of values rearranges the slots. -/
theorem rearrange_slotsOf (op : StackOp) {groups : List (List Value)}
    (h : HaveWidths op.groups groups) (below : List Value) :
    op.rearrange (slotsOf (below ++ groups.reverse.flatten)) =
      some (slotsOf (below ++ op.order.flatMap (groups.getD · []))) := by
  have hgetD : ∀ i, slotsOf (groups.getD i []) = (groups.map slotsOf).getD i [] := fun i =>
    (List.getD_map groups [] slotsOf).symm
  rw [slotsOf_append, slotsOf_append, slotsOf_flatten, List.reverse_reverse,
    op.rearrange_flatten h.length_slotsOf, List.flatMap, List.flatMap, slotsOf_flatten,
    ← List.map_reverse, List.map_map]
  simp only [Function.comp_def, hgetD]

/-- **Rearranging the stack.** An instruction that only rearranges the stack goes through exactly if
there are slots down to each place where it takes the stack apart and none of these places is inside a
long or double. It then makes of the slots what the instruction set says, with the same values in
them. All values below the last of the places stay where they are, and so do all locals. -/
theorem apply_stackOp (hline : line.instruction = .operation (.stack op)) (thisClass : BinaryName)
    (f : Frame) :
    ((∃ f', line.apply thisClass f = .ok f') ↔
      ∀ cut ∈ op.cuts, cut ≤ f.slots.length ∧ ¬ CutsValue f.stack.toList cut) ∧
    ∀ f', line.apply thisClass f = .ok f' →
      op.rearrange f.slots = some f'.slots ∧ f'.locals = f.locals ∧
      ∃ below moved moved', f.stack.toList = below ++ moved ∧ f'.stack.toList = below ++ moved' ∧
        op.cuts.getLast? = some (totalWidth moved) ∧ ∀ v ∈ moved', v ∈ moved := by
  constructor
  · rw [← exists_groups_iff_cuts]
    constructor
    · rintro ⟨f', h⟩
      exact exists_of_apply_stack hline h
    · rintro ⟨below, groups, hgroups, hstack⟩
      obtain ⟨f', h, _⟩ := exists_apply_stack hline thisClass hgroups hstack
      exact ⟨f', h⟩
  · intro f' h
    obtain ⟨below, groups, hgroups, hstack⟩ := exists_of_apply_stack hline h
    obtain ⟨found, hfound, hstack', hlocals⟩ := exists_apply_stack hline thisClass hgroups hstack
    obtain rfl : found = f' := Except.ok.inj (hfound.symm.trans h)
    refine ⟨?_, hlocals, below, _, _, hstack, hstack', ?_, ?_⟩
    · rw [Frame.slots, Frame.slots, hstack, hstack']
      exact rearrange_slotsOf op hgroups below
    · rw [hgroups.totalWidth_flatten, op.getLast?_cuts]
    · intro v hv
      obtain ⟨i, _, hv⟩ := List.mem_flatMap.mp hv
      refine forall_getD (P := (· ∈ groups.reverse.flatten)) ?_ i v hv
      intro group hgroup w hw
      exact List.mem_flatten.mpr ⟨group, List.mem_reverse.mpr hgroup, hw⟩

/-- A long over two values of one slot, and a float below them. -/
def longOverTwo : Frame where
  locals := #[]
  stack := .ofList [⟨.numeric .float, none⟩, ⟨.numeric .int, some 0⟩, ⟨.null, some 1⟩,
    ⟨.numeric .long, some 2⟩]

def copyingLine : Line where
  id := 3
  mnemonic := "dup2_x2"
  position := {}
  offset := 3
  block := 0
  instruction := .operation (.stack .dup2X2)

theorem apply_stackOp_longOverTwo :
    copyingLine.instruction = .operation (.stack .dup2X2) ∧
    ∃ f', copyingLine.apply .javaObject longOverTwo = .ok f' ∧
      (∀ cut ∈ StackOp.dup2X2.cuts,
        cut ≤ longOverTwo.slots.length ∧ ¬ CutsValue longOverTwo.stack.toList cut) ∧
      StackOp.dup2X2.rearrange longOverTwo.slots = some f'.slots ∧
      f'.locals = longOverTwo.locals ∧
      ∃ below moved moved', longOverTwo.stack.toList = below ++ moved ∧
        f'.stack.toList = below ++ moved' ∧
        StackOp.dup2X2.cuts.getLast? = some (totalWidth moved) ∧ ∀ v ∈ moved', v ∈ moved := by
  have hline : copyingLine.instruction = .operation (.stack .dup2X2) := rfl
  have hgroups : HaveWidths StackOp.dup2X2.groups
      [[⟨.numeric .long, some 2⟩], [⟨.numeric .int, some 0⟩, ⟨.null, some 1⟩]] :=
    .cons rfl (.cons rfl .nil)
  have hstack : longOverTwo.stack.toList = [⟨.numeric .float, none⟩] ++
      [[⟨.numeric .long, some 2⟩], [⟨.numeric .int, some 0⟩, ⟨.null, some 1⟩]].reverse.flatten := rfl
  obtain ⟨f', h, _⟩ := exists_apply_stack hline .javaObject hgroups hstack
  obtain ⟨hiff, hresult⟩ := apply_stackOp hline .javaObject longOverTwo
  exact ⟨hline, f', h, hiff.mp ⟨f', h⟩, hresult f' h⟩

end Line

end JvmAssembler
