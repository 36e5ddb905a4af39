import JvmAssembler.Proofs.Constant.Resolve
import JvmAssembler.Proofs.SlotVec

/-! A pool serves requests for constants, classes and texts, some of which may fail. Whatever was
answered stays true: an index resolves to what it was given for, and equal requests are answered
with one index. This rests on two facts about each request. It never takes an entry out of the pool,
also when it fails, and once it has been answered it is answered in the same way again, without a
change to the pool. -/

namespace JvmAssembler

namespace ConstantPool

/-- What a pool can be asked for. -/
inductive Request where
  | constant (constant : Constant)
  | classOf (type : RefType)
  | text (content : String)

/-- What an index can stand for. -/
inductive Meaning where
  | constant (constant : Constant)
  | text (content : String)
deriving DecidableEq

namespace Request

def work : Request → Interning UInt16
  | constant c => intern c
  | classOf type => internClass type
  | text content => internUtf8 content

def meaning : Request → Meaning
  | constant c => .constant c
  | classOf type => .constant (.classRef type)
  | text content => .text content

end Request

/-- What an index resolves to. -/
def meaning? (pool : ConstantPool) (index : UInt16) : Option Meaning :=
  match pool.text? index with
  | some text => some (.text text)
  | none => (pool.constant? index).map .constant

/-- The answers to requests that are made one after the other, leaving out those that fail, and the
pool after the last one. -/
def serve : List Request → ConstantPool → List (Request × UInt16) × ConstantPool
  | [], pool => ([], pool)
  | request :: requests, pool =>
    match request.work pool with
    | .ok index pool =>
      let (answers, pool) := serve requests pool
      ((request, index) :: answers, pool)
    | .error _ pool => serve requests pool

variable {pool pool' : ConstantPool} {index : UInt16}

theorem text?_eq_none_of_constant? {constant : Constant}
    (h : pool.constant? index = some constant) : pool.text? index = none := by
  unfold constant? at h
  unfold text?
  split
  · rename_i heq
    rw [heq] at h
    cases h
  · rfl

theorem meaning?_kept {meaning : Meaning} (hext : pool.Extends pool')
    (h : pool.meaning? index = some meaning) : pool'.meaning? index = some meaning := by
  unfold meaning? at h
  split at h
  · rename_i text htext
    cases h
    rw [meaning?, text?_kept hext htext]
  · obtain ⟨constant, hconstant, rfl⟩ := Option.map_eq_some_iff.mp h
    have hkept := constant?_kept hext hconstant
    rw [meaning?, text?_eq_none_of_constant? hkept, hkept, Option.map_some]

theorem meaning?_of_work {request : Request} (h : request.work pool = .ok index pool') :
    pool'.meaning? index = some request.meaning := by
  have hconstant : ∀ {c : Constant}, pool'.constant? index = some c →
      pool'.meaning? index = some (.constant c) := by
    intro c hc
    rw [meaning?, text?_eq_none_of_constant? hc, hc, Option.map_some]
  cases request with
  | constant c => exact hconstant (intern_spec h).2
  | classOf type =>
      have h : intern (.classRef type) pool = .ok index pool' := h
      exact hconstant (intern_spec h).2
  | text content =>
      rw [meaning?, (internUtf8_spec h).2]
      rfl

/-- Work that keeps all entries, and that changes nothing when it has been done before. -/
structure Recalls {α : Type} (work : Interning α) : Prop where
  kept : ∀ {pool pool' : ConstantPool} {e : PoolOverflow},
    work pool = .error e pool' → pool.Extends pool'
  again : ∀ {pool pool' : ConstantPool} {a : α}, work pool = .ok a pool' →
    pool.Extends pool' ∧ ∀ later, pool'.Extends later → work later = .ok a later

theorem Recalls.bind {α β : Type} {first : Interning α} {next : α → Interning β}
    (hfirst : Recalls first) (hnext : ∀ a, Recalls (next a)) : Recalls (first >>= next) where
  kept := by
    intro pool pool' e h
    change EStateM.bind first next pool = _ at h
    unfold EStateM.bind at h
    split at h
    · rename_i a pool₁ hpool₁
      exact (hfirst.again hpool₁).1.trans ((hnext a).kept h)
    · rename_i e' pool₁ hpool₁
      cases h
      exact hfirst.kept hpool₁
  again := by
    intro pool pool' b h
    obtain ⟨a, pool₁, hpool₁, h⟩ := exists_of_bind_eq_result h
    obtain ⟨hext, hagain⟩ := hfirst.again hpool₁
    obtain ⟨hext', hagain'⟩ := (hnext a).again h
    refine ⟨hext.trans hext', ?_⟩
    intro later hlater
    change EStateM.bind first next later = _
    rw [EStateM.bind, hagain later (hext'.trans hlater)]
    exact hagain' later hlater

/-- An entry that the pool holds is found. -/
theorem internEntry_of_get? {entry : PoolEntry} (h : pool.get? index = some entry) :
    internEntry entry pool = .ok index pool := by
  have hfound : pool.indices[entry]? = some index := (pool.indices_iff entry index).mpr h
  unfold internEntry
  split
  · rename_i other hother
    rw [hfound, Option.some.injEq] at hother
    rw [hother]
  · rename_i hnone
    rw [hfound] at hnone
    cases hnone

theorem recalls_internEntry (entry : PoolEntry) : Recalls (internEntry entry) where
  kept := by
    intro pool pool' e h
    unfold internEntry at h
    split at h
    · cases h
    · split at h
      · cases h
      · cases h
        exact .refl pool
  again := by
    intro pool pool' index h
    obtain ⟨hext, hget⟩ := internEntry_spec h
    exact ⟨hext, fun later hlater => internEntry_of_get? (hlater _ _ hget)⟩

/-- What holds of a request for an entry, and of two steps if it holds of each, holds of all
requests. -/
theorem Request.work_induction {P : Interning UInt16 → Prop}
    (hentry : ∀ entry, P (internEntry entry))
    (hbind : ∀ {first : Interning UInt16} {next : UInt16 → Interning UInt16}, P first →
      (∀ index, P (next index)) → P (first >>= next)) (request : Request) : P request.work := by
  have hclass : ∀ type, P (internClass type) := fun type =>
    hbind (hentry _) fun _ => hentry _
  have hmember : ∀ name descriptor, P (internNameAndType name descriptor) := fun _ _ =>
    hbind (hentry _) fun _ => hbind (hentry _) fun _ => hentry _
  cases request with
  | constant constant =>
      cases constant with
      | integer value | float bits | long value | double bits => exact hentry _
      | string text => exact hbind (hentry _) fun _ => hentry _
      | classRef type => exact hclass type
      | field field => exact hbind (hclass _) fun _ => hbind (hmember _ _) fun _ => hentry _
      | method method => exact hbind (hclass _) fun _ => hbind (hmember _ _) fun _ => hentry _
  | classOf type => exact hclass type
  | text content => exact hentry _

theorem Request.recalls_work (request : Request) : Recalls request.work :=
  request.work_induction recalls_internEntry .bind

/-- Requests for the same thing are the same work. -/
theorem Request.work_eq_of_meaning_eq {request other : Request}
    (h : request.meaning = other.meaning) : request.work = other.work := by
  cases request <;> cases other <;> cases h <;> rfl

theorem serve_extends (requests : List Request) (pool : ConstantPool) :
    pool.Extends (serve requests pool).2 := by
  induction requests generalizing pool with
  | nil => exact .refl pool
  | cons request requests ih =>
      rw [serve]
      cases hwork : request.work pool with
      | ok index pool' => exact (request.recalls_work.again hwork).1.trans (ih pool')
      | error e pool' => exact (request.recalls_work.kept hwork).trans (ih pool')

theorem serve_append (requests others : List Request) (pool : ConstantPool) :
    (serve (requests ++ others) pool).2 = (serve others (serve requests pool).2).2 := by
  induction requests generalizing pool with
  | nil => rfl
  | cons request requests ih =>
      rw [List.cons_append, serve, serve]
      cases request.work pool with
      | ok index pool' => exact ih pool'
      | error e pool' => exact ih pool'

/-- What was answered stands in the last pool, and would be answered in the same way there. -/
theorem answer_of_mem_serve {requests : List Request} {request : Request}
    (h : (request, index) ∈ (serve requests pool).1) :
    (serve requests pool).2.meaning? index = some request.meaning ∧
      request.work (serve requests pool).2 = .ok index (serve requests pool).2 := by
  induction requests generalizing pool with
  | nil => cases h
  | cons first requests ih =>
      rw [serve] at h ⊢
      cases hwork : first.work pool with
      | error e pool' =>
          simp only [hwork] at h ⊢
          exact ih h
      | ok found pool' =>
          simp only [hwork] at h ⊢
          rcases List.mem_cons.mp h with heq | hmem
          · cases heq
            have hext := serve_extends requests pool'
            exact ⟨meaning?_kept hext (meaning?_of_work hwork),
              (request.recalls_work.again hwork).2 _ hext⟩
          · exact ih hmem

/-- A pool in which all answers are right, and in which each entry stands at one index and in slots
of its own. -/
structure Faithful (answers : List (Request × UInt16)) (pool : ConstantPool) : Prop where
  resolves : ∀ {request : Request} {index : UInt16}, (request, index) ∈ answers →
    pool.meaning? index = some request.meaning
  index_eq_iff : ∀ {request request' : Request} {index index' : UInt16},
    (request, index) ∈ answers → (request', index') ∈ answers →
      (index = index' ↔ request.meaning = request'.meaning)
  index_unique : ∀ {index index' : UInt16} {entry : PoolEntry},
    pool.get? index = some entry → pool.get? index' = some entry → index = index'
  second_slot_empty : ∀ {index : UInt16} {entry : PoolEntry}, pool.get? index = some entry →
    (∃ value, entry = .long value) ∨ (∃ bits, entry = .double bits) →
      pool.entries.get? (index.toNat + 1) = none

/-- **Interning is faithful, stable and injective.** After any requests to a new pool, successful or
failing, every index that was returned resolves to what it was returned for, and two were the same
exactly if they were returned for the same thing. No entry stands at two indices, and none at the
index after a long or double. -/
theorem faithful_serve (requests : List Request) :
    Faithful (serve requests empty).1 (serve requests empty).2 where
  resolves := fun h => (answer_of_mem_serve h).1
  index_eq_iff := by
    intro request request' index index' h h'
    obtain ⟨hmeaning, hwork⟩ := answer_of_mem_serve h
    obtain ⟨hmeaning', hwork'⟩ := answer_of_mem_serve h'
    constructor
    · intro heq
      rw [heq, hmeaning', Option.some.injEq] at hmeaning
      exact hmeaning.symm
    · intro heq
      rw [Request.work_eq_of_meaning_eq heq, hwork'] at hwork
      cases hwork
      rfl
  index_unique := by
    intro index index' entry h h'
    have hfound := (indices_iff _ entry index).mpr h
    rw [(indices_iff _ entry index').mpr h', Option.some.injEq] at hfound
    exact hfound.symm
  second_slot_empty := by
    intro index entry h hwide
    have hwidth : width entry = 2 := by
      rcases hwide with ⟨_, rfl⟩ | ⟨_, rfl⟩ <;> rfl
    exact SlotVec.get?_eq_none_of_inside PoolEntry.width_pos h (Nat.lt_succ_self _) (by omega)

-- A long takes two indices, and is found again.
example : (serve [.constant (.long 5), .text "a", .constant (.long 5)] empty).1.map Prod.snd =
    [1, 3, 1] := by
  decide +kernel

end ConstantPool

end JvmAssembler
