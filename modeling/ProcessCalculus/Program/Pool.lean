import ProcessCalculus.Term.Node

/-!
# Pools

Values stored under identifiers that are issued in order. A value never leaves the pool; it can be
replaced or changed.

A pool has no bound. Storage under identifiers of 32 bits stops for good where it would issue the
last of them, so it holds one value less than there are identifiers; what is said of pools, and of
all that is built on them, is said of such storage up to that size, below which nothing depends on
the bound.

* `get?_allocate`, `get?_modify`: what is stored after an operation.
-/

namespace ProcessCalculus

/-- Values under the identifiers `0, 1, …`. -/
structure Pool (α : Type) where
  slots : Array α := #[]

namespace Pool

variable {α : Type}

instance : EmptyCollection (Pool α) := ⟨{}⟩

instance : Inhabited (Pool α) := ⟨∅⟩

/-- The number of values, which is also the next identifier. -/
def size (pool : Pool α) : Nat :=
  pool.slots.size

def get? (pool : Pool α) (id : ProcessId) : Option α :=
  pool.slots[id]?

/-- Stores a value under the next identifier. -/
def allocate (pool : Pool α) (a : α) : Pool α :=
  ⟨pool.slots.push a⟩

/-- Puts a value in the place of the one stored, if there is one. -/
def replace (pool : Pool α) (id : ProcessId) (a : α) : Pool α :=
  ⟨pool.slots.setIfInBounds id a⟩

/-- Changes the value stored under an identifier, if there is one. -/
def modify (pool : Pool α) (id : ProcessId) (f : α → α) : Pool α :=
  ⟨pool.slots.modify id f⟩

/-- The pool of what a function makes of the values. -/
def map {β : Type} (f : α → β) (pool : Pool α) : Pool β :=
  ⟨pool.slots.map f⟩

/-- The values in the order of their identifiers. -/
def toList (pool : Pool α) : List α :=
  pool.slots.toList

@[simp] theorem size_allocate (pool : Pool α) (a : α) : (pool.allocate a).size = pool.size + 1 := by
  simp [size, allocate]

@[simp] theorem size_modify (pool : Pool α) (id : ProcessId) (f : α → α) :
    (pool.modify id f).size = pool.size := by
  simp [size, modify]

theorem get?_allocate (pool : Pool α) (a : α) (id : ProcessId) :
    (pool.allocate a).get? id = if id = pool.size then some a else pool.get? id := by
  exact Array.getElem?_push

theorem get?_modify (pool : Pool α) (id : ProcessId) (f : α → α) (other : ProcessId) :
    (pool.modify id f).get? other = if id = other then (pool.get? id).map f else pool.get? other := by
  simp only [get?, modify, Array.getElem?_modify]
  split
  · subst id
    rfl
  · rfl

/-- A change that leaves what is stored as it is does not change the pool. -/
theorem modify_eq_self {pool : Pool α} {id : ProcessId} {f : α → α} (h : ∀ a, pool.get? id = some a → f a = a) :
    pool.modify id f = pool := by
  have hslots : (pool.modify id f).slots = pool.slots := by
    refine Array.ext_getElem? fun other => ?_
    have hother := pool.get?_modify id f other
    rw [get?] at hother
    rw [hother]
    split
    · rename_i hid
      subst hid
      cases hget : pool.get? id with
      | none => exact hget.symm
      | some a =>
        rw [Option.map_some, h a hget]
        exact hget.symm
    · rfl
  exact congrArg Pool.mk hslots

@[simp] theorem get?_map {β : Type} (f : α → β) (pool : Pool α) (id : ProcessId) :
    (pool.map f).get? id = (pool.get? id).map f :=
  Array.getElem?_map

theorem get?_eq_none_iff {pool : Pool α} {id : ProcessId} :
    pool.get? id = none ↔ pool.size ≤ id := by
  simp [get?, size]

end Pool

end ProcessCalculus
