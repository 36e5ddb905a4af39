import JvmAssembler.Proofs.Checked.Basic
import JvmAssembler.Proofs.Method.Certificate

/-! Entries hold the distances between their offsets, offsets of allocations and indices of the
pool, all as numbers of 16 bits. For the body of a method these are exact. -/

namespace JvmAssembler.Checked

section Between

variable {τ : Type} [DecidableEq τ]

/-- The shortest entry for locals and stack, given the locals of the entry before. -/
def between (delta : UInt16) (previous locals : List τ) : List τ → Option (MapEntry τ)
  | [] =>
    if locals.length ≤ previous.length then do
      let fewer ← sub previous.length locals.length
      if locals.isPrefixOf previous ∧ fewer < 4 then
        return if fewer = 0 then .same delta else .chop delta fewer
      else return .full delta locals []
    else do
      let more ← sub locals.length previous.length
      if previous.isPrefixOf locals ∧ more < 4 then
        return .append delta (locals.drop previous.length)
      else return .full delta locals []
  | stack => return MapEntry.between delta previous locals stack

theorem between_eq (delta : UInt16) (previous locals stack : List τ) :
    between delta previous locals stack = some (.between delta previous locals stack) := by
  cases stack with
  | cons entry stack => rfl
  | nil =>
      unfold between MapEntry.between
      by_cases hle : locals.length ≤ previous.length
      · rw [if_pos hle, sub_eq hle]
        simp only [Option.bind_eq_bind, Option.bind_some]
        split
        · by_cases heq : previous.length = locals.length
          · rw [if_pos (by omega), if_pos heq]
            rfl
          · rw [if_neg (by omega), if_neg heq]
            rfl
        · rename_i hchop
          have happend : ¬ (previous.isPrefixOf locals ∧ locals.length - previous.length < 4) := by
            rintro ⟨hbegins, -⟩
            have heq := (List.isPrefixOf_iff_prefix.mp hbegins).eq_of_length_le hle
            subst heq
            exact hchop ⟨List.isPrefixOf_iff_prefix.mpr (List.prefix_refl _), by omega⟩
          rw [if_neg happend]
          rfl
      · have hchop : ¬ (locals.isPrefixOf previous ∧ previous.length - locals.length < 4) :=
          fun h => hle (List.isPrefixOf_iff_prefix.mp h.1).length_le
        rw [if_neg hle, if_neg hchop, sub_eq (Nat.le_of_not_le hle)]
        simp only [Option.bind_eq_bind, Option.bind_some]
        split <;> rfl

end Between

/-- Distance of an entry from the one before. -/
def offsetDelta (previous : Option Nat) (offset : Nat) : Option UInt16 :=
  match previous with
  | none => uint16 offset
  | some previous => do
    let distance ← sub offset previous
    uint16 (← sub distance 1)

/-- Entries with their offsets for frames in ascending order of offsets. -/
def entries (previous : Option Nat) (previousLocals : List SymbolicType) :
    List (Nat × Frame) → Option (List (Nat × MapEntry SymbolicType))
  | [] => some []
  | (offset, f) :: rest => do
    let delta ← offsetDelta previous offset
    let locals := StackMap.localTypes f.locals.toList
    let entry ← between delta previousLocals locals (StackMap.stackTypes f)
    let others ← entries (some offset) locals rest
    return (offset, entry) :: others

theorem offsetDelta_eq {previous : Option Nat} {offset : Nat} (hlt : offset < 0x10000)
    (hprevious : ∀ before ∈ previous, before < offset) :
    offsetDelta previous offset = some (StackMap.offsetDelta previous offset) := by
  cases previous with
  | none => exact uint16_eq hlt
  | some before =>
      have hbefore : before < offset := hprevious before rfl
      simp only [offsetDelta, sub_eq (Nat.le_of_lt hbefore), Option.bind_eq_bind, Option.bind_some,
        sub_eq (Nat.sub_pos_of_lt hbefore)]
      exact uint16_eq (by omega)

theorem entries_eq {previous : Option Nat} {locals : List SymbolicType}
    {targets : List (Nat × Frame)} (hsorted : targets.Pairwise fun a b => a.1 < b.1)
    (hlt : ∀ target ∈ targets, target.1 < 0x10000)
    (hprevious : ∀ before ∈ previous, ∀ target ∈ targets, before < target.1) :
    entries previous locals targets = some (StackMap.entries previous locals targets) := by
  induction targets generalizing previous locals with
  | nil => rfl
  | cons target targets ih =>
      obtain ⟨offset, f⟩ := target
      obtain ⟨hfirst, hsorted⟩ := List.pairwise_cons.mp hsorted
      have hdelta : offsetDelta previous offset = some (StackMap.offsetDelta previous offset) :=
        offsetDelta_eq (hlt _ List.mem_cons_self) fun before hbefore =>
          hprevious before hbefore _ List.mem_cons_self
      have hrest : entries (some offset) (StackMap.localTypes f.locals.toList) targets = some _ :=
        ih hsorted (fun target htarget => hlt target (List.mem_cons_of_mem _ htarget))
          (fun before hbefore target htarget => by
            cases hbefore
            exact hfirst target htarget)
      simp only [entries, hdelta, between_eq, hrest, Option.bind_eq_bind, Option.bind_some]
      rfl

/-- The table for the frames at given offsets. -/
def build (initial : Frame) (targets : List (Nat × Frame)) :
    Option (List (Nat × MapEntry SymbolicType)) :=
  entries none (StackMap.localTypes initial.locals.toList) (StackMap.byOffset targets).toList

theorem build_eq (initial : Frame) {targets : List (Nat × Frame)}
    (hlt : ∀ target ∈ (StackMap.byOffset targets).toList, target.1 < 0x10000) :
    build initial targets = some (StackMap.build initial targets) :=
  entries_eq (StackMap.pairwise_toList _) hlt nofun

/-- The index of an entry, which is added at the end if the pool does not hold it. -/
def internEntry (entry : PoolEntry) : Checked PoolOverflow ConstantPool UInt16 := fun pool =>
  if hnew : pool.indices[entry]? = none then
    if hroom : pool.next + width entry ≤ 0x10000 then do
      let index ← uint16 pool.next
      return .ok index (pool.add entry hnew hroom)
    else some (.error ⟨entry, pool.next⟩ pool)
  else some (ConstantPool.internEntry entry pool)

def internClass (type : RefType) : Checked PoolOverflow ConstantPool UInt16 := do
  let name ← internEntry (.utf8 type.className)
  internEntry (.classRef name)

def internNameAndType (name descriptor : String) : Checked PoolOverflow ConstantPool UInt16 := do
  let name ← internEntry (.utf8 name)
  let descriptor ← internEntry (.utf8 descriptor)
  internEntry (.nameAndType name descriptor)

/-- The index of a constant. -/
def intern : Constant → Checked PoolOverflow ConstantPool UInt16
  | .integer value => internEntry (.integer value)
  | .float bits => internEntry (.float bits)
  | .long value => internEntry (.long value)
  | .double bits => internEntry (.double bits)
  | .string text => do
    let utf8 ← internEntry (.utf8 text)
    internEntry (.string utf8)
  | .classRef type => internClass type
  | .field field => do
    let owner ← internClass (.object field.owner)
    let nameAndType ← internNameAndType field.name.text field.type.text
    internEntry (.field owner nameAndType)
  | .method method => do
    let owner ← internClass method.owner
    let nameAndType ← internNameAndType method.name.text method.descriptor.text
    internEntry (.method owner nameAndType method.inInterface)

/-- Work on the pool. -/
def interning {α : Type} (x : Checked PoolOverflow ConstantPool α) :
    Checked CompileError ClassState α := fun s =>
  (x s.pool).map fun result => Emission.interning (fun _ => result) s

theorem internEntry_agrees (entry : PoolEntry) :
    Agrees (internEntry entry) (ConstantPool.internEntry entry) := by
  intro pool
  unfold internEntry
  by_cases hnew : pool.indices[entry]? = none
  · rw [dif_pos hnew, ConstantPool.internEntry_of_none hnew]
    by_cases hroom : pool.next + width entry ≤ 0x10000
    · have hpos := entry.width_pos
      rw [dif_pos hroom, dif_pos hroom, uint16_eq (by omega)]
      rfl
    · rw [dif_neg hroom, dif_neg hroom]
  · rw [dif_neg hnew]

theorem internClass_agrees (type : RefType) :
    Agrees (internClass type) (ConstantPool.internClass type) :=
  .bind (internEntry_agrees _) fun _ _ _ _ => internEntry_agrees _

theorem internNameAndType_agrees (name descriptor : String) :
    Agrees (internNameAndType name descriptor) (ConstantPool.internNameAndType name descriptor) :=
  .bind (internEntry_agrees _) fun _ _ _ _ =>
    .bind (internEntry_agrees _) fun _ _ _ _ => internEntry_agrees _

theorem intern_agrees (constant : Constant) :
    Agrees (intern constant) (ConstantPool.intern constant) := by
  cases constant with
  | string text => exact .bind (internEntry_agrees _) fun _ _ _ _ => internEntry_agrees _
  | classRef type => exact internClass_agrees type
  | field field =>
      refine .bind (internClass_agrees _) fun _ _ _ _ => ?_
      exact .bind (internNameAndType_agrees _ _) fun _ _ _ _ => internEntry_agrees _
  | method method =>
      refine .bind (internClass_agrees _) fun _ _ _ _ => ?_
      exact .bind (internNameAndType_agrees _ _) fun _ _ _ _ => internEntry_agrees _
  | _ => exact internEntry_agrees _

theorem Agrees.interning {α : Type} {g : Checked PoolOverflow ConstantPool α}
    {x : ConstantPool.Interning α} (h : Agrees g x) :
    Agrees (Checked.interning g) (Emission.interning x) := by
  intro s
  rw [Checked.interning, h s.pool, Option.map_some]
  rfl

section Traversals

variable {ε σ κ κ' τ τ' : Type}

theorem Agrees.traverse_type {f : κ → Checked ε σ κ'} {f' : κ → EStateM ε σ κ'}
    {g : τ → Checked ε σ τ'} {g' : τ → EStateM ε σ τ'} {type : VerificationType κ τ}
    (hf : ∀ class', Agrees (f class') (f' class'))
    (hg : ∀ site, type = .uninitialized site → Agrees (g site) (g' site)) :
    Agrees (type.traverse f g) (type.traverse f' g') := by
  cases type with
  | object class' => exact .bind (hf class') fun _ _ _ _ => .pure _
  | uninitialized site => exact .bind (hg site rfl) fun _ _ _ _ => .pure _
  | _ => exact .pure _

theorem Agrees.traverse_entry {f : τ → Checked ε σ τ'} {f' : τ → EStateM ε σ τ'}
    {entry : MapEntry τ} (h : ∀ type ∈ entry.types, Agrees (f type) (f' type)) :
    Agrees (entry.traverse f) (entry.traverse f') := by
  cases entry with
  | same delta | chop delta count => exact .pure _
  | oneStack delta type => exact .bind (h type List.mem_cons_self) fun _ _ _ _ => .pure _
  | append delta locals => exact .bind (.mapM h) fun _ _ _ _ => .pure _
  | full delta locals stack =>
      refine .bind (.mapM fun type htype => h type (List.mem_append_left _ htype)) fun _ _ _ _ => ?_
      refine .bind (.mapM fun type htype => h type (List.mem_append_right _ htype)) fun _ _ _ _ => ?_
      exact .pure _

end Traversals

/-- The offset of an allocation. -/
def siteOffset (body : Body) (site : Nat) : Option UInt16 := do
  let line ← body.lines[site]?
  uint16 line.offset

/-- A stack map entry with the indices of its classes. -/
def resolveEntry (body : Body) (entry : Nat × MapEntry SymbolicType) :
    Checked CompileError ClassState (MapEntry ResolvedType) := do
  Emission.report (.mapEntry entry.1 entry.2)
  entry.2.traverse fun type =>
    type.traverse (fun type => interning (internClass type)) fun site => siteOffset body site

theorem siteOffset_eq {body : Body} (hlaid : body.LaidOut) (hsize : body.codeSize ≤ maxCodeSize)
    {site : Nat} (h : site < body.lines.size) :
    siteOffset body site = some (body.siteOffset site) := by
  have hline : body.lines[site]? = some body.lines[site] := Array.getElem?_eq_getElem h
  have hstop := hlaid.stop_le hline
  have hoffset : body.lines[site].offset < 0x10000 := by
    have hmax : maxCodeSize = 65535 := rfl
    rw [Line.stop] at hstop
    omega
  rw [siteOffset, Body.siteOffset, hline]
  exact uint16_eq hoffset

theorem resolveEntry_agrees {body : Body} (hlaid : body.LaidOut)
    (hsize : body.codeSize ≤ maxCodeSize) {entry : Nat × MapEntry SymbolicType}
    (hsites : ∀ site, .uninitialized site ∈ entry.2.types → site < body.lines.size) :
    Agrees (resolveEntry body entry) (body.resolveEntry entry) := by
  refine .bind (.lift _) fun _ _ _ _ => .traverse_entry fun type htype => ?_
  refine .traverse_type (fun type => (internClass_agrees type).interning) fun site hsite => ?_
  subst hsite
  exact .of_eq_some (siteOffset_eq hlaid hsize (hsites site htype))

end JvmAssembler.Checked
