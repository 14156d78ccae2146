import AllocatorBuilder.Block

/-!
# The slot pool

`freelist_base` keeps its recycled pointers in `_root`, a fixed-capacity stack: a
`boost::lockfree::stack<void *, fixed_sized<true>, capacity<PoolSize>>` in the shared
configuration and an `internal::stack<void *, PoolSize>` otherwise. Neither is among the sources,
so both are modelled from the spec's slot-pool contract — "`push(pointer) -> bool` (false if at
capacity, never blocks); `pop() -> (pointer, bool)` (false if empty, never blocks)" — as the same
last-in first-out stack. Each push and each pop is one atomic step, which is all the lock-free
stack promises, so one model serves both configurations.

The pool carries its capacity bound as a field: a pool over capacity cannot be built.
-/

namespace AllocatorBuilder

/-- Modelled from the spec: the slot pool, a fixed-capacity stack of pointers, top first. -/
structure Pool where
  /-- the pooled pointers, most recently pushed first -/
  slots : List Nat
  /-- `PoolSize` -/
  capacity : Nat
  /-- a pool never holds more than its capacity -/
  bounded : slots.length ≤ capacity

namespace Pool

theorem ext {p q : Pool} (hs : p.slots = q.slots) (hc : p.capacity = q.capacity) : p = q := by
  cases p; cases q; simp_all

/-- An empty pool of the given capacity. -/
def empty (capacity : Nat) : Pool := ⟨[], capacity, Nat.zero_le _⟩

/-- Modelled from the spec: `push`, `none` (the C++ `false`) when the pool is full. -/
def push (p : Pool) (x : Nat) : Option Pool :=
  if h : p.slots.length < p.capacity then some ⟨x :: p.slots, p.capacity, h⟩ else none

/-- Modelled from the spec: `pop`, the most recently pushed pointer, `none` (the C++ `false`) when
the pool is empty. -/
def pop : Pool → Option (Nat × Pool)
  | ⟨[], _, _⟩ => none
  | ⟨x :: xs, c, h⟩ => some (x, ⟨xs, c, Nat.le_of_succ_le h⟩)

@[simp] theorem empty_slots (c : Nat) : (empty c).slots = [] := rfl
@[simp] theorem empty_capacity (c : Nat) : (empty c).capacity = c := rfl

theorem push_eq_some {p q : Pool} {x : Nat} :
    p.push x = some q ↔ p.slots.length < p.capacity ∧ q.slots = x :: p.slots ∧
      q.capacity = p.capacity := by
  unfold push
  split
  · refine ⟨fun h => ?_, fun ⟨_, hs, hc⟩ => congrArg some (ext hs.symm hc.symm)⟩
    cases h; exact ⟨‹_›, rfl, rfl⟩
  · simp_all

@[simp] theorem push_eq_none {p : Pool} {x : Nat} : p.push x = none ↔ p.capacity ≤ p.slots.length := by
  unfold push; split <;> simp <;> omega

@[simp] theorem pop_eq_none {p : Pool} : p.pop = none ↔ p.slots = [] := by
  rcases p with ⟨_ | ⟨x, xs⟩, c, h⟩ <;> simp [pop]

theorem pop_eq_some {p q : Pool} {x : Nat} :
    p.pop = some (x, q) ↔ p.slots = x :: q.slots ∧ q.capacity = p.capacity := by
  rcases p with ⟨_ | ⟨y, ys⟩, c, h⟩
  · simp [pop]
  · simp only [pop, Option.some.injEq, Prod.mk.injEq, List.cons.injEq]
    exact ⟨fun ⟨hx, hq⟩ => hq ▸ ⟨⟨hx, rfl⟩, rfl⟩, fun ⟨⟨hx, hs⟩, hc⟩ => ⟨hx, ext hs hc.symm⟩⟩

end Pool

end AllocatorBuilder
