import JvmAssembler.Method.Emit
import JvmAssembler.Proofs.Constant.Resolve
import JvmAssembler.Proofs.Method.Stages

/-! Entries of the table are read one after the other, each relative to the offset and the locals of
the one before. The entries that are written for frames read back as the offsets and types of the
frames. -/

namespace JvmAssembler

namespace MapEntry

variable {τ τ' : Type}

/-- The offset of an entry, from that of the entry before: each entry but the first counts one
more. -/
def offsetAfter (previous : Option Nat) (entry : MapEntry τ) : Nat :=
  match previous with
  | none => entry.delta.toNat
  | some previous => previous + entry.delta.toNat + 1

/-- The locals of an entry, from those of the entry before. -/
def localsAfter (previous : List τ) : MapEntry τ → List τ
  | same _ | oneStack _ _ => previous
  | chop _ count => previous.take (previous.length - count)
  | append _ locals => previous ++ locals
  | full _ locals _ => locals

/-- The stack of an entry. -/
def stack : MapEntry τ → List τ
  | same _ | chop _ _ | append _ _ => []
  | oneStack _ type => [type]
  | full _ _ stack => stack

/-- All types that an entry lists. -/
def types : MapEntry τ → List τ
  | same _ | chop _ _ => []
  | oneStack _ type => [type]
  | append _ locals => locals
  | full _ locals stack => locals ++ stack

section Between

variable [DecidableEq τ]

theorem delta_between (delta : UInt16) (previous locals stack : List τ) :
    (between delta previous locals stack).delta = delta := by
  unfold between
  split
  · split
    · split <;> rfl
    · split <;> rfl
  · split <;> rfl
  · rfl

theorem localsAfter_between (delta : UInt16) (previous locals stack : List τ) :
    (between delta previous locals stack).localsAfter previous = locals := by
  unfold between
  split
  · split
    · rename_i hchop
      have hbegins : locals <+: previous := List.isPrefixOf_iff_prefix.mp hchop.1
      split
      · rename_i hlength
        exact (hbegins.eq_of_length hlength.symm).symm
      · have hle := hbegins.length_le
        show previous.take (previous.length - (previous.length - locals.length)) = locals
        rw [Nat.sub_sub_self hle]
        exact (List.prefix_iff_eq_take.mp hbegins).symm
    · split
      · rename_i happend
        have hbegins : previous <+: locals := List.isPrefixOf_iff_prefix.mp happend.1
        exact List.prefix_iff_eq_append.mp hbegins
      · rfl
  · split
    · rename_i hsame
      exact hsame.symm
    · rfl
  · rfl

theorem stack_between (delta : UInt16) (previous locals stack : List τ) :
    (between delta previous locals stack).stack = stack := by
  unfold between
  split
  · split
    · split <;> rfl
    · split <;> rfl
  · split <;> rfl
  · rfl

theorem mem_of_mem_types_between {delta : UInt16} {previous locals stack : List τ} {type : τ}
    (h : type ∈ (between delta previous locals stack).types) : type ∈ locals ++ stack := by
  unfold between at h
  split at h
  · split at h
    · split at h <;> cases h
    · split at h
      · exact List.mem_append_left _ (List.mem_of_mem_drop h)
      · exact h
  · split at h
    · exact List.mem_append_right _ h
    · exact h
  · exact h

end Between

end MapEntry

namespace StackMap

/-- The offsets, locals and stacks that entries stand for, after an entry with an offset and
locals. -/
def expand (previous : Option Nat) (locals : List SymbolicType) :
    List (MapEntry SymbolicType) → List (Nat × List SymbolicType × List SymbolicType)
  | [] => []
  | entry :: rest =>
    (entry.offsetAfter previous, entry.localsAfter locals, entry.stack)
      :: expand (some (entry.offsetAfter previous)) (entry.localsAfter locals) rest

/-- Offset, locals and stack of a frame as the table lists them. -/
def listed (target : Nat × Frame) : Nat × List SymbolicType × List SymbolicType :=
  (target.1, localTypes target.2.locals.toList, stackTypes target.2)

theorem offsetAfter_entryAfter {previous : Option Nat} {offset : Nat} (hlt : offset < 65536)
    (hprevious : ∀ before ∈ previous, before < offset) (locals : List SymbolicType) (f : Frame) :
    (entryAfter previous locals offset f).offsetAfter previous = offset := by
  have hentry : (entryAfter previous locals offset f).delta = offsetDelta previous offset :=
    MapEntry.delta_between _ _ _ _
  cases previous with
  | none =>
      show (entryAfter none locals offset f).delta.toNat = offset
      rw [hentry]
      exact UInt16.toNat_ofNat_of_lt' hlt
  | some before =>
      have hbefore : before < offset := hprevious before rfl
      have hdelta : (UInt16.ofNat (offset - before - 1)).toNat = offset - before - 1 :=
        UInt16.toNat_ofNat_of_lt' (by omega : offset - before - 1 < 65536)
      show before + (entryAfter (some before) locals offset f).delta.toNat + 1 = offset
      rw [hentry, offsetDelta, hdelta]
      omega

/-- The table for frames in ascending order of their offsets reads back. -/
theorem expand_entries {previous : Option Nat} {locals : List SymbolicType}
    {targets : List (Nat × Frame)} (hsorted : targets.Pairwise fun a b => a.1 < b.1)
    (hlt : ∀ target ∈ targets, target.1 < 65536)
    (hprevious : ∀ before ∈ previous, ∀ target ∈ targets, before < target.1) :
    expand previous locals ((entries previous locals targets).map Prod.snd) =
      targets.map listed := by
  induction targets generalizing previous locals with
  | nil => rfl
  | cons target targets ih =>
      obtain ⟨offset, f⟩ := target
      obtain ⟨hfirst, hrest⟩ := List.pairwise_cons.mp hsorted
      have hoffset := offsetAfter_entryAfter (hlt _ List.mem_cons_self)
        (fun before hbefore => hprevious before hbefore _ List.mem_cons_self) locals f
      have hlocals : (entryAfter previous locals offset f).localsAfter locals =
          localTypes f.locals.toList := MapEntry.localsAfter_between _ _ _ _
      have hstack : (entryAfter previous locals offset f).stack = stackTypes f :=
        MapEntry.stack_between _ _ _ _
      have hlater : expand (some offset) (localTypes f.locals.toList) _ = targets.map listed :=
        ih hrest (fun target htarget => hlt target (List.mem_cons_of_mem _ htarget)) (by
          rintro before ⟨⟩ target htarget
          exact hfirst target htarget)
      rw [entries, List.map_cons, expand, hoffset, hlocals, hstack, hlater]
      rfl

/-- Frames are listed in ascending order of their offsets. -/
theorem pairwise_toList (frames : Std.TreeMap Nat Frame) :
    frames.toList.Pairwise fun a b => a.1 < b.1 :=
  Std.TreeMap.ordered_keys_toList.imp fun hlt => Nat.compare_eq_lt.mp hlt

theorem mem_types_of_mem_entries {previous : Option Nat} {locals : List SymbolicType}
    {targets : List (Nat × Frame)} {entry : Nat × MapEntry SymbolicType} {type : SymbolicType}
    (hentry : entry ∈ entries previous locals targets) (htype : type ∈ entry.2.types) :
    ∃ target ∈ targets, type ∈ localTypes target.2.locals.toList ++ stackTypes target.2 := by
  induction targets generalizing previous locals with
  | nil => cases hentry
  | cons target targets ih =>
      rcases List.mem_cons.mp hentry with rfl | hentry
      · exact ⟨target, List.mem_cons_self, MapEntry.mem_of_mem_types_between htype⟩
      · obtain ⟨later, hlater, hmem⟩ := ih hentry
        exact ⟨later, List.mem_cons_of_mem _ hlater, hmem⟩

end StackMap

section Traversals

variable {α β γ τ τ' : Type}

theorem mapM_congr_of_forall₂ {f : β → Option γ} {g : α → Option γ} {as : List α} {bs : List β}
    (h : List.Forall₂ (fun a b => f b = g a) as bs) : bs.mapM f = as.mapM g := by
  induction h with
  | nil => rfl
  | cons hfirst _ ih => rw [List.mapM_cons, List.mapM_cons, hfirst, ih]

theorem mapM_eq_some_self {f : α → Option α} {as : List α} (h : ∀ a ∈ as, f a = some a) :
    as.mapM f = some as := by
  induction as with
  | nil => rfl
  | cons a as ih =>
      have hrest := ih fun b hb => h b (List.mem_cons_of_mem a hb)
      simp [List.mapM_cons, h a List.mem_cons_self, hrest]

theorem MapEntry.traverse_eq_some_self {f : τ → Option τ} {entry : MapEntry τ}
    (h : ∀ type ∈ entry.types, f type = some type) : entry.traverse f = some entry := by
  cases entry with
  | same delta | chop delta count => rfl
  | oneStack delta type => simp [traverse, h type List.mem_cons_self]
  | append delta locals =>
      have hlocals : locals.mapM f = some locals := mapM_eq_some_self h
      simp [traverse, hlocals]
  | full delta locals stack =>
      have hlocals : locals.mapM f = some locals :=
        mapM_eq_some_self fun type htype => h type (List.mem_append_left _ htype)
      have hstack : stack.mapM f = some stack :=
        mapM_eq_some_self fun type htype => h type (List.mem_append_right _ htype)
      simp [traverse, hlocals, hstack]

end Traversals

/-- The type that a resolved one stands for, from the pool and the places of allocations. -/
def ResolvedType.symbolic? (pool : ConstantPool) (site? : UInt16 → Option Nat)
    (type : ResolvedType) : Option SymbolicType :=
  type.traverse pool.classType? site?

/-- The entry that a resolved one stands for. -/
def MapEntry.symbolic? (pool : ConstantPool) (site? : UInt16 → Option Nat)
    (entry : MapEntry ResolvedType) : Option (MapEntry SymbolicType) :=
  entry.traverse (ResolvedType.symbolic? pool site?)

section Resolved

variable {body : Body} {s s' : ClassState}

/-- Turns types into resolved ones. -/
abbrev Body.resolveType (body : Body) (type : SymbolicType) : Emission ResolvedType :=
  type.traverse (fun type => Emission.interning (ConstantPool.internClass type))
    fun site => return body.siteOffset site

/-- What a reader sees of a type once it is resolved, if the reader takes offsets of allocations for
places in `σ`. -/
def Body.typeSeen {σ : Type} (body : Body) (site? : UInt16 → Option σ) (type : SymbolicType) :
    Option (VerificationType RefType σ) :=
  type.traverse some fun site => site? (body.siteOffset site)

/-- A resolved type is seen in every pool that has its class. -/
theorem Body.type_resolved {type : SymbolicType} {resolved : ResolvedType}
    (h : body.resolveType type s = .ok resolved s') :
    s.pool.Extends s'.pool ∧ ∀ pool, s'.pool.Extends pool →
      ∀ {σ : Type} (site? : UInt16 → Option σ),
        resolved.traverse pool.classType? site? = body.typeSeen site? type := by
  cases type with
  | object type =>
      obtain ⟨index, s₁, hindex, hreturn⟩ := exists_of_bind_eq_result h
      cases hreturn
      obtain ⟨grown, hgrown, rfl⟩ := Emission.exists_of_interning hindex
      obtain ⟨hext, htype, -⟩ := ConstantPool.internClass_spec hgrown
      refine ⟨hext, fun pool hpool σ site? => ?_⟩
      simp [typeSeen, VerificationType.traverse, ConstantPool.classType?_kept hpool htype]
  | _ =>
      cases h
      exact ⟨.refl _, fun _ _ _ _ => rfl⟩

theorem Body.types_resolved {types : List SymbolicType} {resolved : List ResolvedType}
    (h : types.mapM body.resolveType s = .ok resolved s') :
    s.pool.Extends s'.pool ∧ ∀ pool, s'.pool.Extends pool →
      ∀ {σ : Type} (site? : UInt16 → Option σ),
        resolved.mapM (VerificationType.traverse pool.classType? site?) =
          types.mapM (body.typeSeen site?) := by
  obtain ⟨hext, hall⟩ := forall₂_of_mapM_eq_result (R := fun s s' => s.pool.Extends s'.pool)
    (P := fun type resolved s => ∀ pool, s.pool.Extends pool →
      ∀ {σ : Type} (site? : UInt16 → Option σ),
        VerificationType.traverse pool.classType? site? resolved = body.typeSeen site? type)
    (fun s => .refl s.pool) (fun h h' => h.trans h')
    (fun htype hext pool hpool => htype pool (hext.trans hpool))
    (fun type _ {_ _ _} h => Body.type_resolved h) h
  refine ⟨hext, fun pool hpool σ site? => mapM_congr_of_forall₂ ?_⟩
  exact hall.imp fun type resolved htype => htype pool hpool site?

theorem Body.entry_resolved {entry : MapEntry SymbolicType} {resolved : MapEntry ResolvedType}
    (h : entry.traverse body.resolveType s = .ok resolved s') :
    s.pool.Extends s'.pool ∧ ∀ pool, s'.pool.Extends pool →
      ∀ {σ : Type} (site? : UInt16 → Option σ),
        resolved.traverse (VerificationType.traverse pool.classType? site?) =
          entry.traverse (body.typeSeen site?) := by
  cases entry with
  | same delta | chop delta count =>
      cases h
      exact ⟨.refl _, fun _ _ _ _ => rfl⟩
  | oneStack delta type =>
      obtain ⟨found, s₁, hfound, hreturn⟩ := exists_of_bind_eq_result h
      cases hreturn
      obtain ⟨hext, hseen⟩ := Body.type_resolved hfound
      refine ⟨hext, fun pool hpool σ site? => ?_⟩
      rw [MapEntry.traverse, MapEntry.traverse, hseen pool hpool]
  | append delta locals =>
      obtain ⟨found, s₁, hfound, hreturn⟩ := exists_of_bind_eq_result h
      cases hreturn
      obtain ⟨hext, hseen⟩ := Body.types_resolved hfound
      refine ⟨hext, fun pool hpool σ site? => ?_⟩
      rw [MapEntry.traverse, MapEntry.traverse, hseen pool hpool]
  | full delta locals stack =>
      obtain ⟨foundLocals, s₁, hlocals, h⟩ := exists_of_bind_eq_result h
      obtain ⟨foundStack, s₂, hstack, hreturn⟩ := exists_of_bind_eq_result h
      cases hreturn
      obtain ⟨hext, hseen⟩ := Body.types_resolved hlocals
      obtain ⟨hext', hseen'⟩ := Body.types_resolved hstack
      refine ⟨hext.trans hext', fun pool hpool σ site? => ?_⟩
      rw [MapEntry.traverse, MapEntry.traverse, hseen pool (hext'.trans hpool), hseen' pool hpool]

theorem Body.table_resolved {table : List (Nat × MapEntry SymbolicType)}
    {stackMap : List (MapEntry ResolvedType)}
    (h : table.mapM body.resolveEntry s = .ok stackMap s') :
    s.pool.Extends s'.pool ∧ ∀ pool, s'.pool.Extends pool →
      ∀ {σ : Type} (site? : UInt16 → Option σ),
        stackMap.mapM (MapEntry.traverse (VerificationType.traverse pool.classType? site?)) =
          (table.map Prod.snd).mapM (MapEntry.traverse (body.typeSeen site?)) := by
  obtain ⟨hext, hall⟩ := forall₂_of_mapM_eq_result (R := fun s s' => s.pool.Extends s'.pool)
    (P := fun entry resolved s => ∀ pool, s.pool.Extends pool →
      ∀ {σ : Type} (site? : UInt16 → Option σ),
        MapEntry.traverse (VerificationType.traverse pool.classType? site?) resolved =
          entry.2.traverse (body.typeSeen site?))
    (fun s => .refl s.pool) (fun h h' => h.trans h')
    (fun hentry hext pool hpool => hentry pool (hext.trans hpool)) (by
      intro entry _ s resolved s' hresolve
      obtain ⟨_, s₁, hreport, htraverse⟩ := exists_of_bind_eq_result hresolve
      cases hreport
      have hentry := Body.entry_resolved htraverse
      exact hentry) h
  refine ⟨hext, fun pool hpool σ site? => mapM_congr_of_forall₂ ?_⟩
  rw [List.forall₂_map_left_iff]
  exact hall.imp fun entry resolved hentry => hentry pool hpool site?

/-- The place of an allocation is found by its offset. -/
def Body.Locates (body : Body) (site? : UInt16 → Option Nat) (type : SymbolicType) : Prop :=
  ∀ site, type = .uninitialized site → site? (body.siteOffset site) = some site

theorem Body.Locates.typeSeen {site? : UInt16 → Option Nat} {type : SymbolicType}
    (h : body.Locates site? type) : body.typeSeen site? type = some type := by
  cases type with
  | uninitialized site => simp [Body.typeSeen, VerificationType.traverse, h site rfl]
  | _ => rfl

/-- The resolved table reads back in every pool that has its classes. -/
theorem Body.table_restored {site? : UInt16 → Option Nat}
    {table : List (Nat × MapEntry SymbolicType)}
    (hsites : ∀ entry ∈ table, ∀ type ∈ entry.2.types, body.Locates site? type)
    {stackMap : List (MapEntry ResolvedType)}
    (h : table.mapM body.resolveEntry s = .ok stackMap s') :
    s.pool.Extends s'.pool ∧ ∀ pool, s'.pool.Extends pool →
      stackMap.mapM (MapEntry.symbolic? pool site?) = some (table.map Prod.snd) := by
  obtain ⟨hext, hseen⟩ := Body.table_resolved h
  refine ⟨hext, fun pool hpool => (hseen pool hpool site?).trans (mapM_eq_some_self ?_)⟩
  intro entry hentry
  obtain ⟨target, htarget, rfl⟩ := List.mem_map.mp hentry
  exact MapEntry.traverse_eq_some_self fun type htype => (hsites target htarget type htype).typeSeen

end Resolved

end JvmAssembler
