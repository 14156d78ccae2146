import AllocatorBuilder.Freelist
import Mathlib.Logic.Relation
import Mathlib.Data.Option.Defs

/-!
# The free list under concurrent callers

In the shared configuration `_root` is a `boost::lockfree::stack`: each `push` and each `pop` is one
atomic action, and between two of them any other call may run. A call of `freelist_base` is then a
sequence of atomic actions (pops, pushes, requests to the delegate), and the free list with its
callers is a transition system:

* `Pc` — where a call stands between two actions, with the local variables it holds there;
* `Pc.step` — one action of a call, given the delegate's answer to the request it makes
  (`Pc.request`);
* `FreelistSystem`, `Step` — the pool, the delegate's live memory, the blocks callers hold and the
  calls in progress; a step starts a call or advances one. In the single-owner configuration a call
  starts only when none is in progress, so calls run one after another;
* `Answers` — the delegate's contract: it answers `allocate(k)` with the empty block or with a
  fresh region of exactly `k` bytes.

`performAll` runs a schedule of actions, and `reachable_performAll` makes a schedule whose actions
are enabled in turn a reachable state, so a concrete interleaving is checked by evaluation.

The truncated strategy's push loop counts on the pool, found empty by the failed pop, having room
for the `N - 1` sub-blocks. A single owner is alone between the pop and the pushes, and no push
fails once `N - 1 ≤ PoolSize` (`single_owner_batch_push_succeeds`). Shared, another caller may
return a block in between, and the last push fails: the call reaches `BOOST_ASSERT(false)`
(`shared_batch_push_fails`).

A single owner that gives a block back to a pool with room gets it back from its next `allocate`,
without a word to the delegate, and the free list is as it was (`deallocate_allocate_cancel`).
-/

namespace AllocatorBuilder

/-- The delegate's contract: while `live` is in use it answers `allocate(k)` with the empty block,
or with a fresh region of exactly `k > 0` bytes above null, inside the address space and disjoint
from `live`. -/
def Answers (live : Finset Nat) (k : Nat) (r : Block) : Prop :=
  r = Block.empty ∨ (0 < k ∧ r.length = k ∧ 0 < r.ptr ∧ r.ptr + k ≤ wordMod ∧ Disjoint r.region live)

instance (live : Finset Nat) (k : Nat) (r : Block) : Decidable (Answers live k r) :=
  inferInstanceAs (Decidable (_ ∨ _))

/-- Where a call of `freelist_base` stands between two atomic actions, with the local variables it
holds there. -/
inductive Pc where
  /-- `allocate(n)` entered: test the bounds, then pop -/
  | allocate (n : Nat)
  /-- the pop failed, truncated strategy: request `blockSize * N` -/
  | batch
  /-- holding the batch at `base`: push sub-block `i` next -/
  | subBlock (base i : Nat)
  /-- the push of sub-block `i` failed, past `BOOST_ASSERT(false)`: hand the sub-block back -/
  | release (base i : Nat)
  /-- `return _allocator.allocate(blockSize)` -/
  | single
  /-- the pop failed, per-block strategy: iteration `i` of the loop requests a block -/
  | each (i : Nat)
  /-- iteration `i` obtained `b`: push `b.ptr` next -/
  | pushEach (i : Nat) (b : Block)
  /-- `deallocate(b)` entered: test `b && owns(b)`, then push -/
  | deallocate (b : Block)
  /-- the push failed: hand `b` to the delegate -/
  | forward (b : Block)
  deriving DecidableEq, Repr

/-- What a call does after an action: go on at a program point, or return a block to its caller
(`deallocate` returns what it leaves in the caller's block). -/
inductive Next where
  | go (pc : Pc)
  | ret (b : Block)
  deriving DecidableEq, Repr

namespace Pc

variable (cfg : FreelistConfig) (lower upper : Nat)

/-- The size a call asks the delegate for at this point, if it asks. -/
def request : Pc → Option Nat
  | batch => some (FreelistBase.batchRequest cfg upper)
  | single => some upper
  | each i => if i < FreelistBase.perBlockIterations cfg then some upper else none
  | _ => none

/-- One atomic action of a call on the pool and the delegate's live memory, `r` being the
delegate's answer to the call's request (unused when it makes none). The bounds are
`[lower, upper]`, and `blockSize` is `upper`. -/
def step (pool : Pool) (live : Finset Nat) (r : Block) : Pc → Next × Pool × Finset Nat
  | allocate n =>
    if lower ≤ n ∧ n ≤ upper then
      match pool.pop with
      | some (p, pool') => (.ret ⟨p, upper⟩, pool', live)
      | none => (.go (if cfg.supportsTruncatedDeallocation then batch else each 0), pool, live)
    else (.ret Block.empty, pool, live)
  | batch =>
    if r.toBool then (.go (subBlock r.ptr 1), pool, live ∪ r.region) else (.go single, pool, live)
  | subBlock base i =>
    if i < cfg.numberOfBatchAllocations then
      match pool.push (FreelistBase.subBlock base upper i) with
      | some pool' => (.go (subBlock base (i + 1)), pool', live)
      | none => (.go (release base i), pool, live)
    else (.ret ⟨base, upper⟩, pool, live)
  | release base i =>
    (.go (subBlock base (i + 1)), pool,
      live \ Block.region ⟨FreelistBase.subBlock base upper i, upper⟩)
  | single => (.ret r, pool, live ∪ r.region)
  | each i =>
    if i < FreelistBase.perBlockIterations cfg then (.go (pushEach i r), pool, live ∪ r.region)
    else (.go single, pool, live)
  | pushEach i b =>
    match pool.push b.ptr with
    | some pool' => (.go (each (i + 1)), pool', live)
    | none => (.ret b, pool, live)
  | deallocate b =>
    if b.toBool && (b.toBool && decide (lower ≤ b.length) && decide (b.length ≤ upper)) then
      match pool.push b.ptr with
      | some pool' => (.ret Block.empty, pool', live)
      | none => (.go (forward b), pool, live)
    else (.ret b, pool, live)
  | forward b => (.ret Block.empty, pool, live \ b.region)

/-- No action changes the pool's capacity. -/
@[simp] theorem step_capacity (pool : Pool) (live : Finset Nat) (r : Block) (pc : Pc) :
    (pc.step cfg lower upper pool live r).2.1.capacity = pool.capacity := by
  cases pc <;> simp only [step] <;> repeat' split
  all_goals first
    | rfl
    | exact (Pool.pop_eq_some.1 ‹_›).2
    | exact (Pool.push_eq_some.1 ‹_›).2.2

/-- `deallocate` of an owned block into a pool with room pushes its pointer and resets the
caller's block. -/
theorem step_deallocate_push {pool pool' : Pool} (live : Finset Nat) (r : Block) {b : Block}
    (hb : b.toBool) (hl : lower ≤ b.length) (hu : b.length ≤ upper)
    (hp : pool.push b.ptr = some pool') :
    (deallocate b).step cfg lower upper pool live r = (.ret Block.empty, pool', live) := by
  simp [step, hb, hl, hu, hp]

/-- `allocate` within the bounds from a non-empty pool returns its top pointer at the upper
bound's size. -/
theorem step_allocate_pop {pool pool' : Pool} (live : Finset Nat) (r : Block) {n p : Nat}
    (hn : lower ≤ n ∧ n ≤ upper) (hp : pool.pop = some (p, pool')) :
    (allocate n).step cfg lower upper pool live r = (.ret ⟨p, upper⟩, pool', live) := by
  simp [step, hn, hp]

end Pc

/-- A free list with its callers. -/
structure FreelistSystem where
  /-- `_root` -/
  pool : Pool
  /-- the addresses the delegate has handed out and not taken back -/
  live : Finset Nat
  /-- the blocks callers hold, as `allocate` and `deallocate` left them -/
  held : List Block
  /-- the calls in progress -/
  calls : List Pc

namespace FreelistSystem

/-- A new free list: an empty pool, nothing live or held, no call in progress. -/
def init (cfg : FreelistConfig) : FreelistSystem := ⟨Pool.empty cfg.poolSize, ∅, [], []⟩

/-- The call between `pre` and `post` goes on as its action says. -/
def resume (s : FreelistSystem) (pre post : List Pc) : Next × Pool × Finset Nat → FreelistSystem
  | (.go pc, pool, live) => { s with pool := pool, live := live, calls := pre ++ pc :: post }
  | (.ret b, pool, live) =>
    { s with pool := pool, live := live, held := b :: s.held, calls := pre ++ post }

@[simp] theorem resume_pool (s : FreelistSystem) (pre post : List Pc) (x : Next × Pool × Finset Nat) :
    (s.resume pre post x).pool = x.2.1 := by
  rcases x with ⟨_ | _, _, _⟩ <;> rfl

variable (cfg : FreelistConfig) (lower upper : Nat) (D : Finset Nat → Nat → Block → Prop)

/-- One step of the free list with its callers, the delegate answering as `D` allows. In the
single-owner configuration a call starts only when none is in progress. A caller deallocates only
a block it holds, and gives it up in doing so. -/
inductive Step : FreelistSystem → FreelistSystem → Prop
  | allocate (s : FreelistSystem) (n : Nat) : (cfg.shared ∨ s.calls = []) →
      Step s { s with calls := .allocate n :: s.calls }
  | deallocate (s : FreelistSystem) (b : Block) : b ∈ s.held → (cfg.shared ∨ s.calls = []) →
      Step s { s with held := s.held.erase b, calls := .deallocate b :: s.calls }
  | advance (s : FreelistSystem) (pre post : List Pc) (pc : Pc) (r : Block) :
      s.calls = pre ++ pc :: post → (∀ k ∈ pc.request cfg upper, D s.live k r) →
      Step s (s.resume pre post (pc.step cfg lower upper s.pool s.live r))

/-- The states a new free list reaches. -/
def Reachable (s : FreelistSystem) : Prop :=
  Relation.ReflTransGen (Step cfg lower upper D) (init cfg) s

/-- An invariant of a new free list that every step from a reachable state keeps holds of every
reachable state. -/
theorem Reachable.invariant {I : FreelistSystem → Prop} (h0 : I (init cfg))
    (hs : ∀ s s', Reachable cfg lower upper D s → I s → Step cfg lower upper D s s' → I s')
    {s : FreelistSystem} (h : Reachable cfg lower upper D s) : I s := by
  induction h with
  | refl => exact h0
  | tail hr hst ih => exact hs _ _ hr ih hst

/-- No step changes the pool's capacity. -/
theorem Step.capacity {s s' : FreelistSystem} (h : Step cfg lower upper D s s') :
    s'.pool.capacity = s.pool.capacity := by
  cases h <;> simp

theorem Reachable.capacity {s : FreelistSystem} (h : Reachable cfg lower upper D s) :
    s.pool.capacity = cfg.poolSize :=
  Reachable.invariant cfg lower upper D (I := fun s => s.pool.capacity = cfg.poolSize) rfl
    (fun _ _ _ hs hst => (hst.capacity).trans hs) h

/-! ## Schedules -/

/-- A scheduler's choice: start a call, or advance the call at index `i`, the delegate answering
its request with `r`. -/
inductive Action where
  | allocate (n : Nat)
  | deallocate (b : Block)
  | advance (i : Nat) (r : Block)

/-- Whether an action can be taken in `s`. -/
def Enabled (s : FreelistSystem) : Action → Prop
  | .allocate _ => cfg.shared ∨ s.calls = []
  | .deallocate b => b ∈ s.held ∧ (cfg.shared ∨ s.calls = [])
  | .advance i r => ∃ pc ∈ s.calls[i]?, ∀ k ∈ pc.request cfg upper, D s.live k r

instance [∀ live k r, Decidable (D live k r)] (s : FreelistSystem) :
    (a : Action) → Decidable (Enabled cfg upper D s a)
  | .allocate _ => inferInstanceAs (Decidable (_ ∨ _))
  | .deallocate _ => inferInstanceAs (Decidable (_ ∧ _))
  | .advance _ _ => inferInstanceAs (Decidable (∃ _ ∈ _, _))

/-- The state an action leads to, when it is enabled. -/
def perform (s : FreelistSystem) : Action → FreelistSystem
  | .allocate n => { s with calls := .allocate n :: s.calls }
  | .deallocate b => { s with held := s.held.erase b, calls := .deallocate b :: s.calls }
  | .advance i r =>
    match s.calls[i]? with
    | some pc =>
      s.resume (s.calls.take i) (s.calls.drop (i + 1)) (pc.step cfg lower upper s.pool s.live r)
    | none => s

/-- The state a schedule leads to. -/
def performAll (s : FreelistSystem) (acts : List Action) : FreelistSystem :=
  acts.foldl (perform cfg lower upper) s

/-- Whether each action of a schedule is enabled when its turn comes. -/
def valid [∀ live k r, Decidable (D live k r)] (s : FreelistSystem) : List Action → Bool
  | [] => true
  | a :: as => decide (Enabled cfg upper D s a) && valid (perform cfg lower upper s a) as

theorem step_perform {s : FreelistSystem} {a : Action} (h : Enabled cfg upper D s a) :
    Step cfg lower upper D s (perform cfg lower upper s a) := by
  cases a with
  | allocate n => exact .allocate s n h
  | deallocate b => exact .deallocate s b h.1 h.2
  | advance i r =>
    obtain ⟨pc, hpc, hr⟩ := h
    obtain ⟨hi, rfl⟩ := List.getElem?_eq_some_iff.1 hpc
    have hcalls : s.calls = s.calls.take i ++ s.calls[i] :: s.calls.drop (i + 1) := by
      rw [← List.drop_eq_getElem_cons hi, List.take_append_drop]
    simp only [perform, Option.mem_def.1 hpc]
    exact .advance s _ _ _ r hcalls hr

/-- A schedule whose actions are enabled in turn is a run. -/
theorem run_performAll [∀ live k r, Decidable (D live k r)] {s : FreelistSystem}
    {acts : List Action} (hv : valid cfg lower upper D s acts) :
    Relation.ReflTransGen (Step cfg lower upper D) s (performAll cfg lower upper s acts) := by
  induction acts generalizing s with
  | nil => exact .refl
  | cons a as ih =>
    simp only [valid, Bool.and_eq_true, decide_eq_true_eq] at hv
    exact .head (step_perform cfg lower upper D hv.1) (ih hv.2)

/-- **A valid schedule runs.** From a reachable state, a schedule whose actions are enabled in
turn leads to a reachable state. -/
theorem reachable_performAll [∀ live k r, Decidable (D live k r)] {s : FreelistSystem}
    {acts : List Action} (h : Reachable cfg lower upper D s) (hv : valid cfg lower upper D s acts) :
    Reachable cfg lower upper D (performAll cfg lower upper s acts) :=
  h.trans (run_performAll cfg lower upper D hv)

/-! ## The batch pushes -/

/-- **The assertion is reached when shared.** Shared, truncated, `PoolSize = 1`, `N = 2`, bounds
`[8, 8]`, a delegate that never fails. One caller allocates twice: the batch `[16, 32)` is cut into
`16`, returned, and `24`, pooled and then popped. A call `A` of `allocate(8)` finds the pool empty;
before it pushes, another caller deallocates `16`, filling the pool; `A` obtains the batch
`[32, 48)` and its push of sub-block `40` fails. -/
theorem shared_batch_push_fails :
    let cfg : FreelistConfig := ⟨true, true, 1, 2, by decide, by decide⟩
    let s := performAll cfg 8 8 (init cfg)
      [.allocate 8, .advance 0 .empty, .advance 0 ⟨16, 16⟩, .advance 0 .empty, .advance 0 .empty,
        .allocate 8, .advance 0 .empty,
        .allocate 8, .advance 0 .empty, .deallocate ⟨16, 8⟩, .advance 0 .empty,
        .advance 0 ⟨32, 16⟩, .advance 0 .empty]
    Reachable cfg 8 8 Answers s ∧ Pc.release 32 1 ∈ s.calls := by
  intro cfg s
  exact ⟨reachable_performAll cfg 8 8 Answers .refl (by decide), by decide⟩

end FreelistSystem

namespace Pc

/-- What a call may assume of the pool while it is alone: empty when the batch is requested, and
holding the `i - 1` sub-blocks pushed so far when sub-block `i` is next; a failed push never
happens. -/
def Alone (pool : Pool) : Pc → Prop
  | batch => pool.slots = []
  | subBlock _ i => pool.slots.length + 1 = i
  | release _ _ => False
  | _ => True

end Pc

/-- What a call may assume after an action, if it goes on. -/
def Next.Alone (pool : Pool) : Next → Prop
  | .go pc => pc.Alone pool
  | .ret _ => True

namespace Pc

variable (cfg : FreelistConfig) (lower upper : Nat)

/-- Alone, a call keeps what it assumes: the pop it failed left the pool empty, each push adds
one pointer, and the pool, of capacity `PoolSize ≥ N - 1`, has room for every sub-block. -/
theorem alone_step (hN : cfg.numberOfBatchAllocations - 1 ≤ cfg.poolSize) {pool : Pool}
    (hcap : pool.capacity = cfg.poolSize) (live : Finset Nat) (r : Block) {pc : Pc}
    (h : pc.Alone pool) :
    (pc.step cfg lower upper pool live r).1.Alone (pc.step cfg lower upper pool live r).2.1 := by
  cases pc with
  | allocate n =>
    simp only [step]; split
    · split
      · trivial
      · split <;> simp_all [Next.Alone, Alone]
    · trivial
  | batch =>
    simp only [step]; split
    · simp [Next.Alone, Alone, show pool.slots = [] from h]
    · trivial
  | subBlock base i =>
    simp only [Alone] at h
    simp only [step]; split
    · split
      · rename_i hp
        simp [Next.Alone, Alone, (Pool.push_eq_some.1 hp).2.1, h]
      · rename_i hp
        rw [Pool.push_eq_none] at hp
        omega
    · trivial
  | release => exact h.elim
  | _ =>
    -- every other action returns or goes to a point that assumes nothing
    simp only [step]; repeat' split
    all_goals trivial

end Pc

namespace FreelistSystem

variable (cfg : FreelistConfig) (lower upper : Nat) (D : Finset Nat → Nat → Block → Prop)

/-- The single-owner invariant: at most one call is in progress, and what it assumes of the pool
holds. -/
def Solo (s : FreelistSystem) : Prop := s.calls.length ≤ 1 ∧ ∀ pc ∈ s.calls, pc.Alone s.pool

theorem Step.solo (hsh : cfg.shared = false)
    (hN : cfg.numberOfBatchAllocations - 1 ≤ cfg.poolSize) {s s' : FreelistSystem}
    (hcap : s.pool.capacity = cfg.poolSize) (h : Solo s) (hst : Step cfg lower upper D s s') :
    Solo s' := by
  cases hst with
  | allocate n hc =>
    have hc : s.calls = [] := by simpa [hsh] using hc
    simp [Solo, Pc.Alone, hc]
  | deallocate b _ hc =>
    have hc : s.calls = [] := by simpa [hsh] using hc
    simp [Solo, Pc.Alone, hc]
  | advance pre post pc r hcalls _ =>
    have hlen := h.1
    rw [hcalls] at hlen
    obtain ⟨rfl, rfl⟩ : pre = [] ∧ post = [] := by
      simp only [List.length_append, List.length_cons] at hlen
      exact ⟨List.length_eq_zero.1 (by omega), List.length_eq_zero.1 (by omega)⟩
    have ha := Pc.alone_step cfg lower upper hN hcap s.live r (h.2 pc (by simp [hcalls]))
    revert ha
    rcases pc.step cfg lower upper s.pool s.live r with ⟨_ | _, pool, live⟩ <;>
      simp [resume, Solo, Next.Alone]

/-- **One owner never reaches the assertion.** In the single-owner configuration with
`N - 1 ≤ PoolSize`, whatever the delegate answers, no call of a reachable state stands past a
failed push of a batch sub-block. -/
theorem single_owner_batch_push_succeeds (hsh : cfg.shared = false)
    (hN : cfg.numberOfBatchAllocations - 1 ≤ cfg.poolSize) {s : FreelistSystem}
    (h : Reachable cfg lower upper D s) (base i : Nat) : Pc.release base i ∉ s.calls := by
  have hs : Solo s := Reachable.invariant cfg lower upper D (by simp [Solo, init])
    (fun _ _ hr hs hst => hst.solo cfg lower upper D hsh hN (hr.capacity) hs) h
  exact fun hm => hs.2 _ hm

/-- The defaults `N = 8`, `PoolSize = 1024`, single-owner, once a batch is fetched and its first
sub-block pushed. -/
theorem single_owner_batch_push_succeeds_on_defaults :
    let cfg : FreelistConfig := ⟨false, true, 1024, 8, by decide, by decide⟩
    let s := performAll cfg 2 2 (init cfg)
      [.allocate 2, .advance 0 .empty, .advance 0 ⟨16, 16⟩, .advance 0 .empty]
    cfg.shared = false ∧ cfg.numberOfBatchAllocations - 1 ≤ cfg.poolSize ∧
      Reachable cfg 2 2 Answers s ∧ Pc.release 16 1 ∉ s.calls := by
  intro cfg s
  have hr : Reachable cfg 2 2 Answers s := reachable_performAll cfg 2 2 Answers .refl (by decide)
  exact ⟨rfl, by decide, hr, single_owner_batch_push_succeeds cfg 2 2 Answers rfl (by decide) hr _ _⟩

/-! ## Deallocate then allocate -/

/-- In the single-owner configuration the only step from a state with one call in progress
advances that call. -/
theorem Step.eq_advance (hsh : cfg.shared = false) {s s' : FreelistSystem} {pc : Pc}
    (hc : s.calls = [pc]) (hst : Step cfg lower upper D s s') :
    ∃ r, s' = s.resume [] [] (pc.step cfg lower upper s.pool s.live r) := by
  cases hst with
  | allocate n h => simp [hsh, hc] at h
  | deallocate b _ h => simp [hsh, hc] at h
  | advance pre post pc' r hcalls _ =>
    rw [hc] at hcalls
    cases pre with
    | nil =>
      obtain ⟨rfl, rfl⟩ := List.cons_eq_cons.1 hcalls
      exact ⟨r, rfl⟩
    | cons _ pre => simp at hcalls

/-- **Deallocate then allocate cancel.** Single-owner, from a reachable state between calls whose
pool has room: a caller deallocates a block `b` it holds, non-empty and within the bounds, then
allocates `n` within the bounds. Whatever the scheduler and the delegate do next, each call takes
one action and the caller gets `{b.ptr, upper}` back, with the free list as it was: the same pool,
the same delegate memory, no call in progress. The run asks the delegate nothing, so it is open
even to a delegate that never answers. -/
theorem deallocate_allocate_cancel (hsh : cfg.shared = false) {s : FreelistSystem}
    (h : Reachable cfg lower upper D s) (hc : s.calls = [])
    (hlen : s.pool.slots.length < cfg.poolSize) {b : Block} (hb : b ∈ s.held) (hb0 : b.toBool)
    (hbl : lower ≤ b.length) (hbu : b.length ≤ upper) {n : Nat} (hn : lower ≤ n ∧ n ≤ upper) :
    (∀ s₂, Step cfg lower upper D (perform cfg lower upper s (.deallocate b)) s₂ →
      ∀ s₄, Step cfg lower upper D (perform cfg lower upper s₂ (.allocate n)) s₄ →
        s₄ = { s with held := ⟨b.ptr, upper⟩ :: Block.empty :: s.held.erase b }) ∧
    Relation.ReflTransGen (Step cfg lower upper fun _ _ _ => False) s
      (performAll cfg lower upper s
        [.deallocate b, .advance 0 .empty, .allocate n, .advance 0 .empty]) := by
  obtain ⟨pool', hpush⟩ : ∃ pool', s.pool.push b.ptr = some pool' :=
    Option.ne_none_iff_exists'.1 (by rw [Ne, Pool.push_eq_none, h.capacity]; omega)
  have hpop : pool'.pop = some (b.ptr, s.pool) := by
    obtain ⟨-, hs, hcap⟩ := Pool.push_eq_some.1 hpush
    exact Pool.pop_eq_some.2 ⟨hs, hcap.symm⟩
  have hd (r : Block) := Pc.step_deallocate_push cfg lower upper s.live r hb0 hbl hbu hpush
  have ha (r : Block) := Pc.step_allocate_pop cfg lower upper s.live r hn hpop
  have h₁ : (perform cfg lower upper s (.deallocate b)).calls = [.deallocate b] := by
    simp [perform, hc]
  refine ⟨fun s₂ h₂ s₄ h₄ => ?_, run_performAll cfg lower upper _ ?_⟩
  · obtain ⟨r₁, rfl⟩ := Step.eq_advance cfg lower upper D hsh h₁ h₂
    simp only [perform, resume, hd, List.nil_append] at h₄
    obtain ⟨r₂, rfl⟩ := Step.eq_advance cfg lower upper D hsh rfl h₄
    simp [resume, ha, hc]
  · simp [valid, Enabled, perform, resume, hb, hc, hd, ha, Pc.request]

/-- Single-owner, truncated, `PoolSize = 4`, `N = 2`, bounds `[8, 8]`: one `allocate(8)` cuts the
batch `[16, 32)`, pools `24` and hands out `[16, 24)`, which the caller then returns before it
allocates again. -/
theorem deallocate_allocate_cancel_after_batch :
    let cfg : FreelistConfig := ⟨false, true, 4, 2, by decide, by decide⟩
    let s := performAll cfg 8 8 (init cfg)
      [.allocate 8, .advance 0 .empty, .advance 0 ⟨16, 16⟩, .advance 0 .empty, .advance 0 .empty]
    cfg.shared = false ∧ Reachable cfg 8 8 Answers s ∧ s.calls = [] ∧
      s.pool.slots.length < cfg.poolSize ∧ ⟨16, 8⟩ ∈ s.held ∧
      (∀ s₂, Step cfg 8 8 Answers (perform cfg 8 8 s (.deallocate ⟨16, 8⟩)) s₂ →
        ∀ s₄, Step cfg 8 8 Answers (perform cfg 8 8 s₂ (.allocate 8)) s₄ →
          s₄ = { s with held := ⟨16, 8⟩ :: Block.empty :: s.held.erase ⟨16, 8⟩ }) ∧
      Relation.ReflTransGen (Step cfg 8 8 fun _ _ _ => False) s
        (performAll cfg 8 8 s
          [.deallocate ⟨16, 8⟩, .advance 0 .empty, .allocate 8, .advance 0 .empty]) := by
  intro cfg s
  have hr : Reachable cfg 8 8 Answers s := reachable_performAll cfg 8 8 Answers .refl (by decide)
  have hc : s.calls = [] := by decide
  have hlen : s.pool.slots.length < cfg.poolSize := by decide
  have hb : ⟨16, 8⟩ ∈ s.held := by decide
  exact ⟨rfl, hr, hc, hlen, hb, deallocate_allocate_cancel cfg 8 8 Answers rfl hr hc hlen hb
    (by decide) (by decide) (by decide) (by decide)⟩

end FreelistSystem

/-! ## Every block handed out has the block size -/

namespace Pc

variable (cfg : FreelistConfig) (lower upper : Nat)

/-- A block a call may return as it is, the one a loop iteration obtained or the one being
deallocated, is empty or has the upper bound's size. -/
def Rounded : Pc → Prop
  | pushEach _ b | deallocate b => b.length = 0 ∨ b.length = upper
  | _ => True

end Pc

/-- A call goes on rounded, or returns an empty block or one of the upper bound's size. -/
def Next.Rounded (upper : Nat) : Next → Prop
  | .go pc => pc.Rounded upper
  | .ret b => b.length = 0 ∨ b.length = upper

namespace Pc

variable (cfg : FreelistConfig) (lower upper : Nat)

/-- Every action of a rounded call leaves it rounded, for a delegate that answers each request with
a block of the size asked or the empty one. -/
theorem rounded_step {D : Finset Nat → Nat → Block → Prop}
    (hD : ∀ live k r, D live k r → r.length = 0 ∨ r.length = k) {pool : Pool} {live : Finset Nat}
    {r : Block} {pc : Pc} (hpc : pc.Rounded upper) (hr : ∀ k ∈ pc.request cfg upper, D live k r) :
    Next.Rounded upper (pc.step cfg lower upper pool live r).1 := by
  have hans : ∀ k, pc.request cfg upper = some k → r.length = 0 ∨ r.length = k :=
    fun k hk => hD live k r (hr k hk)
  cases pc <;> simp only [step] <;> repeat' split
  all_goals first
    | trivial
    | exact .inl rfl
    | exact .inr rfl
    | exact hpc
    | exact hans upper (by simp [request, *])

end Pc

namespace FreelistSystem

variable (cfg : FreelistConfig) (lower upper : Nat) (D : Finset Nat → Nat → Block → Prop)

/-- Every block held is empty or of the upper bound's size, and every call in progress rounded. -/
def Rounded (upper : Nat) (s : FreelistSystem) : Prop :=
  (∀ b ∈ s.held, b.length = 0 ∨ b.length = upper) ∧ ∀ pc ∈ s.calls, pc.Rounded upper

/-- Every step keeps the state rounded, for a delegate that answers each request with a block of
the size asked or the empty one. -/
theorem Step.rounded (hD : ∀ live k r, D live k r → r.length = 0 ∨ r.length = k)
    {s s' : FreelistSystem} (hst : Step cfg lower upper D s s') (h : Rounded upper s) :
    Rounded upper s' := by
  obtain ⟨hh, hc⟩ := h
  cases hst with
  | allocate n _ => exact ⟨hh, List.forall_mem_cons.2 ⟨trivial, hc⟩⟩
  | deallocate b hb _ =>
    exact ⟨fun c hm => hh c (List.mem_of_mem_erase hm), List.forall_mem_cons.2 ⟨hh b hb, hc⟩⟩
  | advance pre post pc r hcalls hr =>
    rw [hcalls, List.forall_mem_append, List.forall_mem_cons] at hc
    obtain ⟨hpre, hpc, hpost⟩ := hc
    have hnext : Next.Rounded upper (pc.step cfg lower upper s.pool s.live r).1 :=
      Pc.rounded_step cfg lower upper hD hpc hr
    generalize pc.step cfg lower upper s.pool s.live r = x at hnext ⊢
    obtain ⟨_ | b, pool, live⟩ := x <;>
      simp only [Rounded, resume, List.forall_mem_append, List.forall_mem_cons]
    · exact ⟨hh, hpre, hnext, hpost⟩
    · exact ⟨⟨hnext, hh⟩, hpre, hpost⟩

/-- **Every block a caller holds has the block size.** `allocate` hands out the upper bound's size
whatever was asked ("the result is aligned to the upper boundary"), and an empty block otherwise:
in every state a new free list reaches, single-owner or shared, under every interleaving, every
block a caller holds is empty or exactly `upper` bytes long, for every delegate that answers a
request with a block of the size asked or the empty one. This holds also where the ownership law
fails: a pooled null pointer comes back as `{nullptr, upper}`. -/
theorem held_rounded (hD : ∀ live k r, D live k r → r.length = 0 ∨ r.length = k)
    {s : FreelistSystem} (h : Reachable cfg lower upper D s) :
    ∀ b ∈ s.held, b.length = 0 ∨ b.length = upper :=
  (Reachable.invariant cfg lower upper D (I := Rounded upper) ⟨by simp [init], by simp [init]⟩
    (fun _ _ _ hs hst => hst.rounded cfg lower upper D hD hs) h).1

/-- Per-block strategy, single owner, `PoolSize = 1`, `N = 2`, bounds `[8, 8]`: the delegate fails
the loop's request, the null pointer is pooled and the final request returns `[16, 24)`; a second
`allocate(8)` pops the null pointer. Both blocks held are `8` bytes long. -/
theorem held_rounded_null_slot :
    let cfg : FreelistConfig := ⟨false, false, 1, 2, by decide, by decide⟩
    let s := performAll cfg 8 8 (init cfg)
      [.allocate 8, .advance 0 .empty, .advance 0 .empty, .advance 0 .empty, .advance 0 .empty,
        .advance 0 ⟨16, 8⟩, .allocate 8, .advance 0 .empty]
    (∀ live k r, Answers live k r → r.length = 0 ∨ r.length = k) ∧ Reachable cfg 8 8 Answers s ∧
      s.held = [⟨0, 8⟩, ⟨16, 8⟩] ∧ ∀ b ∈ s.held, b.length = 0 ∨ b.length = 8 := by
  intro cfg s
  have hD : ∀ live k r, Answers live k r → r.length = 0 ∨ r.length = k := by
    rintro live k r (rfl | ⟨-, hk, -⟩)
    exacts [.inl rfl, .inr hk]
  have hr : Reachable cfg 8 8 Answers s := reachable_performAll cfg 8 8 Answers .refl (by decide)
  exact ⟨hD, hr, by decide, held_rounded cfg 8 8 Answers hD hr⟩

end FreelistSystem

end AllocatorBuilder
