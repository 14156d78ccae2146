import AllocatorBuilder.Freelist

/-!
# One delegate round per `N` allocations

Batching is what `freelist_base` is built for ("allocating in a bunch to gain of having the
allocator code in the cache"). A call that finds the pool empty fetches `NumberOfBatchAllocations`
blocks at once: the truncated strategy cuts one request into `N` sub-blocks and pools `1 .. N-1`
of them (`pushSubBlocks`), the per-block strategy pools `N - 1` single requests (`allocateEach`).
When the pool has room for them, the next `N - 1` calls are served from the pool and never reach
the delegate.

`allocateRepeat` makes `k` calls `allocate(n)` in a row and counts those that found the pool
empty. A miss fills the pool with `N - 1` pointers (`allocate_miss`), a hit pops one
(`allocate_pop`), so from an empty pool a cycle of `N` calls misses once and empties the pool again
(`allocateRepeat_cycle`), and `k * N` calls miss exactly `k` times (`allocateRepeat_misses`). The
per-block strategy asks nothing of the delegate for this count, since it pools whatever pointer it
gets; the truncated one needs its batch request granted, or it falls back to one block and the
pool stays empty.

The pool is a stack, so what comes back goes out again last in, first out. `callEach` makes calls
in turn and keeps what each returns: `k` owned blocks handed back to a pool with room for them are
pushed in turn (`callEach_deallocate`), `k` calls in bounds pop them in turn
(`callEach_allocate`), and together they return the blocks in reverse order and leave the free
list as it was, without a call of the delegate (`deallocate_allocate_lifo`).
-/

namespace AllocatorBuilder

namespace FreelistBase

variable {σ : Type} (cfg : FreelistConfig) (A : Delegate σ)

/-- `k` calls `allocate(n)` in a row: the free list after them, and how many of them found the
pool empty and went to the delegate. -/
def allocateRepeat (n : Nat) : Nat → FreelistBase σ → FreelistBase σ × Nat
  | 0, f => (f, 0)
  | k + 1, f =>
    ((allocateRepeat n k (allocate cfg A f n).1).1,
      (if f.root.slots = [] then 1 else 0) + (allocateRepeat n k (allocate cfg A f n).1).2)

/-- Calls in a row compose: `a + b` calls are `a` calls, then `b` more from where they end. -/
theorem allocateRepeat_add (n a b : Nat) (f : FreelistBase σ) :
    allocateRepeat cfg A n (a + b) f =
      ((allocateRepeat cfg A n b (allocateRepeat cfg A n a f).1).1,
        (allocateRepeat cfg A n a f).2 +
          (allocateRepeat cfg A n b (allocateRepeat cfg A n a f).1).2) := by
  induction a generalizing f with
  | zero => simp [allocateRepeat]
  | succ a ih => rw [Nat.succ_add]; simp only [allocateRepeat, ih, Nat.add_assoc]

theorem allocate_lowerBound (f : FreelistBase σ) (n : Nat) :
    (allocate cfg A f n).1.lowerBound = f.lowerBound := by
  have h := congrArg lowerBound (call_eq cfg A f (.allocate n))
  exact h

theorem allocate_upperBound (f : FreelistBase σ) (n : Nat) :
    (allocate cfg A f n).1.upperBound = f.upperBound := by
  have h := congrArg upperBound (call_eq cfg A f (.allocate n))
  exact h

/-- No push or pop changes the pool's capacity, so neither loop does, nor any call. -/
theorem pushSubBlocks_capacity (base blockSize : Nat) :
    ∀ (i k : Nat) (s : σ × Pool), (pushSubBlocks A base blockSize i k s).2.capacity = s.2.capacity
  | _, 0, _ => rfl
  | i, k + 1, (a, pool) => by
    unfold pushSubBlocks
    split
    · rename_i pool' h
      exact (pushSubBlocks_capacity base blockSize _ _ _).trans (Pool.push_eq_some.1 h).2.2
    · exact pushSubBlocks_capacity base blockSize _ _ _

theorem allocateEach_capacity (blockSize : Nat) :
    ∀ (k : Nat) (s : σ × Pool), (allocateEach A blockSize k s).2.1.capacity = s.2.capacity
  | 0, _ => rfl
  | k + 1, (a, pool) => by
    unfold allocateEach; dsimp only
    split
    · rename_i pool' h
      exact (allocateEach_capacity blockSize _ _).trans (Pool.push_eq_some.1 h).2.2
    · rfl

theorem allocate_capacity (f : FreelistBase σ) (n : Nat) :
    (allocate cfg A f n).1.root.capacity = f.root.capacity := by
  unfold allocate
  split
  · split
    · rename_i h
      exact (Pool.pop_eq_some.1 h).2
    · split
      · unfold allocateTruncated; dsimp only
        split
        · exact pushSubBlocks_capacity A _ _ _ _ _
        · rfl
      · have h := allocateEach_capacity A f.upperBound (perBlockIterations cfg) (f.allocator, f.root)
        unfold allocatePerBlock
        split <;> rename_i he <;> rw [he] at h <;> exact h
  · rfl

/-- Calls in a row change neither the bounds nor the pool's capacity. -/
theorem allocateRepeat_frame (n : Nat) :
    ∀ (k : Nat) (f : FreelistBase σ),
      (allocateRepeat cfg A n k f).1.root.capacity = f.root.capacity ∧
        (allocateRepeat cfg A n k f).1.upperBound = f.upperBound ∧
        (allocateRepeat cfg A n k f).1.lowerBound = f.lowerBound
  | 0, _ => ⟨rfl, rfl, rfl⟩
  | k + 1, f => by
    obtain ⟨hc, hu, hl⟩ := allocateRepeat_frame n k (allocate cfg A f n).1
    exact ⟨hc.trans (allocate_capacity cfg A f n), hu.trans (allocate_upperBound cfg A f n),
      hl.trans (allocate_lowerBound cfg A f n)⟩

/-- The batch loop with room for all its sub-blocks pushes every one of them. -/
theorem pushSubBlocks_room (base blockSize : Nat) :
    ∀ (k i : Nat) (a : σ) (pool : Pool), pool.slots.length + k ≤ pool.capacity →
      (pushSubBlocks A base blockSize i k (a, pool)).2.slots.length = pool.slots.length + k
  | 0, _, _, _, _ => rfl
  | k + 1, i, a, pool, h => by
    have hlt : pool.slots.length < pool.capacity := by omega
    have ih := pushSubBlocks_room base blockSize k (i + 1) a
      ⟨subBlock base blockSize i :: pool.slots, pool.capacity, hlt⟩
      (by simp only [List.length_cons]; omega)
    simp only [pushSubBlocks, Pool.push, hlt, dite_true]
    exact ih.trans (by simp only [List.length_cons]; omega)

/-- The per-block loop with room for all its blocks pushes every one and never returns early. -/
theorem allocateEach_room (blockSize : Nat) :
    ∀ (k : Nat) (a : σ) (pool : Pool), pool.slots.length + k ≤ pool.capacity →
      ∃ a' pool', allocateEach A blockSize k (a, pool) = (a', pool', none) ∧
        pool'.slots.length = pool.slots.length + k
  | 0, a, pool, _ => ⟨a, pool, rfl, rfl⟩
  | k + 1, a, pool, h => by
    have hlt : pool.slots.length < pool.capacity := by omega
    obtain ⟨a', pool', he, hl⟩ := allocateEach_room blockSize k (A.allocate a blockSize).1
      ⟨(A.allocate a blockSize).2.ptr :: pool.slots, pool.capacity, hlt⟩
      (by simp only [List.length_cons]; omega)
    refine ⟨a', pool', ?_, hl.trans (by simp only [List.length_cons]; omega)⟩
    simp only [allocateEach, Pool.push, hlt, dite_true, he]

/-- **A hit pops.** In bounds and with a pointer pooled, a call pops it and touches nothing else. -/
theorem allocate_pop {f : FreelistBase σ} {n : Nat} (hn : f.lowerBound ≤ n ∧ n ≤ f.upperBound)
    {x : Nat} {xs : List Nat} (hf : f.root.slots = x :: xs) :
    (allocate cfg A f n).1.root.slots = xs := by
  obtain ⟨a, ⟨_ | ⟨y, ys⟩, c, h⟩, lo, up⟩ := f
  · cases hf
  · obtain ⟨rfl, rfl⟩ := List.cons.inj hf
    simp only at hn
    simp [allocate, hn, Pool.pop]

/-- In bounds, `k` calls on `k` pooled pointers all hit and empty the pool. -/
theorem allocateRepeat_hits {n : Nat} :
    ∀ (k : Nat) (f : FreelistBase σ), f.lowerBound ≤ n ∧ n ≤ f.upperBound →
      f.root.slots.length = k →
      (allocateRepeat cfg A n k f).2 = 0 ∧ (allocateRepeat cfg A n k f).1.root.slots = []
  | 0, f, _, hl => ⟨rfl, List.length_eq_zero.1 hl⟩
  | k + 1, f, hn, hl => by
    obtain ⟨x, xs, hf⟩ := List.exists_cons_of_length_eq_add_one hl
    have ih := allocateRepeat_hits k (allocate cfg A f n).1
      (by simpa only [allocate_lowerBound, allocate_upperBound] using hn)
      (by rw [allocate_pop cfg A hn hf]; simpa [hf] using hl)
    simpa only [allocateRepeat, hf, List.cons_ne_nil, ↓reduceIte, Nat.zero_add] using ih

variable {cfg A}

/-- **A miss fills the pool.** In bounds and with an empty pool that has room for a batch, a call
leaves `N - 1` pointers in the pool, under either strategy; the truncated one needs its batch
request granted. -/
theorem allocate_miss (hN : 0 < cfg.numberOfBatchAllocations) {f : FreelistBase σ}
    (hP : cfg.numberOfBatchAllocations - 1 ≤ f.root.capacity)
    (hA : cfg.supportsTruncatedDeallocation = true →
      ∀ a, (A.allocate a (batchRequest cfg f.upperBound)).2.toBool)
    {n : Nat} (hn : f.lowerBound ≤ n ∧ n ≤ f.upperBound) (hf : f.root.slots = []) :
    (allocate cfg A f n).1.root.slots.length = cfg.numberOfBatchAllocations - 1 := by
  have hpop : f.root.pop = none := Pool.pop_eq_none.2 hf
  have hroom : f.root.slots.length + (cfg.numberOfBatchAllocations - 1) ≤ f.root.capacity := by
    simp only [hf, List.length_nil, Nat.zero_add]; exact hP
  simp only [allocate, hn, and_self, ↓reduceIte, hpop]
  split
  · -- truncated: the granted batch's sub-blocks all fit
    rename_i ht
    have hb := hA ht f.allocator
    have hr := pushSubBlocks_room A (A.allocate f.allocator (batchRequest cfg f.upperBound)).2.ptr
      f.upperBound _ 1 (A.allocate f.allocator (batchRequest cfg f.upperBound)).1 f.root hroom
    unfold allocateTruncated; dsimp only
    split
    · simpa [hf] using hr
    · exact absurd hb ‹_›
  · -- per block: every block of the loop fits
    have hit : perBlockIterations cfg = cfg.numberOfBatchAllocations - 1 := by
      simp [perBlockIterations, Nat.pos_iff_ne_zero.1 hN]
    obtain ⟨a', pool', he, hl⟩ := allocateEach_room A f.upperBound _ f.allocator f.root hroom
    simp only [allocatePerBlock, hit, he]
    simpa [hf] using hl

/-- From an empty pool, a cycle of `N` calls misses once and leaves the pool empty. -/
theorem allocateRepeat_cycle (hN : 0 < cfg.numberOfBatchAllocations) {f : FreelistBase σ}
    (hP : cfg.numberOfBatchAllocations - 1 ≤ f.root.capacity)
    (hA : cfg.supportsTruncatedDeallocation = true →
      ∀ a, (A.allocate a (batchRequest cfg f.upperBound)).2.toBool)
    {n : Nat} (hn : f.lowerBound ≤ n ∧ n ≤ f.upperBound) (hf : f.root.slots = []) :
    (allocateRepeat cfg A n cfg.numberOfBatchAllocations f).2 = 1 ∧
      (allocateRepeat cfg A n cfg.numberOfBatchAllocations f).1.root.slots = [] := by
  obtain ⟨m, hm⟩ : ∃ m, cfg.numberOfBatchAllocations = m + 1 :=
    ⟨_, (Nat.succ_pred_eq_of_pos hN).symm⟩
  have h := allocateRepeat_hits cfg A m (allocate cfg A f n).1
    (by simpa only [allocate_lowerBound, allocate_upperBound] using hn)
    (by rw [allocate_miss hN hP hA hn hf, hm]; rfl)
  rw [hm]
  simp only [allocateRepeat, hf, ↓reduceIte]
  exact ⟨by rw [h.1], h.2⟩

/-- **One delegate round per `N` allocations.** From an empty pool with room for a batch, `k * N`
in-bounds calls `allocate(n)` in a row go to the delegate exactly `k` times, once per `N`, and leave
the pool empty: the batch serves the `N - 1` calls after each miss. This holds for every pool size,
batch size `N ≥ 1`, bounds and delegate under the per-block strategy, and under the truncated
strategy for every delegate that grants the batch request. -/
theorem allocateRepeat_misses (hN : 0 < cfg.numberOfBatchAllocations) {f : FreelistBase σ}
    (hP : cfg.numberOfBatchAllocations - 1 ≤ f.root.capacity)
    (hA : cfg.supportsTruncatedDeallocation = true →
      ∀ a, (A.allocate a (batchRequest cfg f.upperBound)).2.toBool)
    {n : Nat} (hn : f.lowerBound ≤ n ∧ n ≤ f.upperBound) (hf : f.root.slots = []) (k : Nat) :
    (allocateRepeat cfg A n (k * cfg.numberOfBatchAllocations) f).2 = k ∧
      (allocateRepeat cfg A n (k * cfg.numberOfBatchAllocations) f).1.root.slots = [] := by
  induction k with
  | zero => simp [allocateRepeat, hf]
  | succ k ih =>
    obtain ⟨hc, hu, hl⟩ := allocateRepeat_frame cfg A n (k * cfg.numberOfBatchAllocations) f
    have hcyc := allocateRepeat_cycle hN (hc ▸ hP) (hu ▸ hA) (by rw [hu, hl]; exact hn) ih.2
    rw [Nat.succ_mul, allocateRepeat_add]
    exact ⟨by rw [ih.1, hcyc.1], hcyc.2⟩

/-- Per-block strategy, `PoolSize = 4`, `N = 2`, bounds `[8, 8]`, the bump delegate: six calls
`allocate(8)` in a row go to the delegate three times. -/
theorem allocateRepeat_misses_three_cycles :
    let cfg : FreelistConfig := ⟨false, false, 4, 2, by decide, by decide⟩
    let f := init cfg ((4096 : Nat), (0 : Nat)) 8 8
    (allocateRepeat cfg Delegate.bump 8 (3 * cfg.numberOfBatchAllocations) f).2 = 3 ∧
      (allocateRepeat cfg Delegate.bump 8 (3 * cfg.numberOfBatchAllocations) f).1.root.slots = [] :=
  allocateRepeat_misses (by decide) (by decide) (fun h => absurd h (by decide)) (by decide) rfl 3

/-! ## Returned blocks come back last in, first out -/

section Lifo

variable (cfg A)

/-- Calls in turn on the sequential free list: the free list after them, and what each returned. -/
def callEach (f : FreelistBase σ) : List Call → FreelistBase σ × List Block
  | [] => (f, [])
  | c :: cs =>
    ((callEach (f.call cfg A c).1 cs).1, (f.call cfg A c).2 :: (callEach (f.call cfg A c).1 cs).2)

theorem callEach_append (f : FreelistBase σ) (xs ys : List Call) :
    callEach cfg A f (xs ++ ys) =
      ((callEach cfg A (callEach cfg A f xs).1 ys).1,
        (callEach cfg A f xs).2 ++ (callEach cfg A (callEach cfg A f xs).1 ys).2) := by
  induction xs generalizing f with
  | nil => rfl
  | cons x xs ih => rw [List.cons_append, callEach, callEach, ih, List.cons_append]

/-- An owned block pushes its pointer when the pool has room, and the caller's block is reset. -/
theorem deallocate_push {f : FreelistBase σ} {b : Block} (hb : f.owns b)
    (hroom : f.root.slots.length < f.root.capacity) :
    deallocate A f b =
      ({ f with root := ⟨b.ptr :: f.root.slots, f.root.capacity, hroom⟩ }, Block.empty) := by
  have hb' : b.toBool := by simp only [owns, Bool.and_eq_true] at hb; exact hb.1.1
  simp [deallocate, hb, hb', Pool.push, hroom]

/-- `k` owned blocks handed back to a pool with room for them are pushed in turn, the last on top;
the delegate is not called. -/
theorem callEach_deallocate {f : FreelistBase σ} {bs : List Block} (hown : ∀ b ∈ bs, f.owns b)
    (hroom : f.root.slots.length + bs.length ≤ f.root.capacity) :
    ∃ pool : Pool, pool.slots = (bs.map Block.ptr).reverse ++ f.root.slots ∧
      pool.capacity = f.root.capacity ∧
      callEach cfg A f (bs.map .deallocate) =
        ({ f with root := pool }, List.replicate bs.length Block.empty) := by
  induction bs generalizing f with
  | nil => exact ⟨f.root, rfl, rfl, rfl⟩
  | cons b bs ih =>
    have hlt : f.root.slots.length < f.root.capacity := by
      simp only [List.length_cons] at hroom; omega
    obtain ⟨pool, hs, hc, he⟩ := ih (f := { f with root := ⟨b.ptr :: f.root.slots, _, hlt⟩ })
      (fun c hc => hown c (List.mem_cons_of_mem _ hc))
      (by simp only [List.length_cons] at hroom ⊢; omega)
    refine ⟨pool, by simp [hs], hc, ?_⟩
    simp only [List.map_cons, callEach, call, he, List.length_cons, List.replicate_succ,
      deallocate_push A (hown b (List.mem_cons_self _ _)) hlt]

/-- In bounds, calls `allocate(n)` pop the pooled pointers in turn and return them at the upper
bound's size; the delegate is not called. -/
theorem callEach_allocate {f : FreelistBase σ} {n : Nat}
    (hn : f.lowerBound ≤ n ∧ n ≤ f.upperBound) {ps rest : List Nat} (hf : f.root.slots = ps ++ rest) :
    ∃ pool : Pool, pool.slots = rest ∧ pool.capacity = f.root.capacity ∧
      callEach cfg A f (List.replicate ps.length (.allocate n)) =
        ({ f with root := pool }, ps.map fun p => ⟨p, f.upperBound⟩) := by
  induction ps generalizing f with
  | nil => exact ⟨f.root, hf, rfl, rfl⟩
  | cons p ps ih =>
    have hb : (ps ++ rest).length ≤ f.root.capacity := by
      have := f.root.bounded
      rw [hf] at this; simp only [List.cons_append, List.length_cons] at this; omega
    have hpop : f.root.pop = some (p, ⟨ps ++ rest, f.root.capacity, hb⟩) :=
      Pool.pop_eq_some.2 ⟨hf, rfl⟩
    obtain ⟨pool, hs, hc, he⟩ := ih (f := { f with root := ⟨ps ++ rest, _, hb⟩ }) hn rfl
    refine ⟨pool, hs, hc, ?_⟩
    simp only [List.length_cons, List.replicate_succ, callEach, call, allocate, hn, and_self,
      ↓reduceIte, hpop, he, List.map_cons]

variable {cfg A}

/-- **Returned blocks come back last in, first out.** For every configuration, delegate and state
of the sequential free list, `k` owned blocks handed back to a pool with room for all of them,
then `k` calls `allocate(n)` in bounds, return the blocks' pointers at the upper bound's size, the
last one handed back first, and leave the free list exactly as it was: the pool as before, the
delegate never called. -/
theorem deallocate_allocate_lifo (f : FreelistBase σ) (bs : List Block) {n : Nat}
    (hown : ∀ b ∈ bs, f.owns b) (hroom : f.root.slots.length + bs.length ≤ f.root.capacity)
    (hn : f.lowerBound ≤ n ∧ n ≤ f.upperBound) :
    callEach cfg A f (bs.map .deallocate ++ List.replicate bs.length (.allocate n)) =
      (f, List.replicate bs.length Block.empty ++
        bs.reverse.map fun b => ⟨b.ptr, f.upperBound⟩) := by
  obtain ⟨pool, hs, hc, he⟩ := callEach_deallocate cfg A hown hroom
  have hlen : ((bs.map Block.ptr).reverse).length = bs.length := by simp
  obtain ⟨pool', hs', hc', he'⟩ := callEach_allocate cfg A (f := { f with root := pool }) hn hs
  rw [callEach_append, he, ← hlen, he', Pool.ext hs' (hc'.trans hc)]
  simp [List.map_reverse]

/-- `PoolSize = 4`, bounds `[8, 8]`, one pointer pooled: `[4096, 4104)` and `[8192, 8200)` handed
back, then two calls `allocate(8)`, return `8192` first and `4096` second. -/
theorem deallocate_allocate_lifo_two :
    let cfg : FreelistConfig := ⟨false, true, 4, 2, by decide, by decide⟩
    let f : FreelistBase (Nat × Nat) := ⟨(16384, 0), ⟨[12288], 4, by decide⟩, 8, 8⟩
    (∀ b ∈ [⟨4096, 8⟩, ⟨8192, 8⟩], f.owns b) ∧ f.root.slots.length + 2 ≤ f.root.capacity ∧
      (f.lowerBound ≤ 8 ∧ 8 ≤ f.upperBound) ∧
      callEach cfg Delegate.bump f
          ([⟨4096, 8⟩, ⟨8192, 8⟩].map .deallocate ++ List.replicate 2 (.allocate 8)) =
        (f, List.replicate 2 Block.empty ++ [⟨8192, 8⟩, ⟨4096, 8⟩]) :=
  ⟨by decide, by decide, by decide,
    deallocate_allocate_lifo (f := ⟨(16384, 0), ⟨[12288], 4, by decide⟩, 8, 8⟩)
      [⟨4096, 8⟩, ⟨8192, 8⟩] (by decide) (by decide) (by decide)⟩

end Lifo

end FreelistBase

end AllocatorBuilder
