import AllocatorBuilder.Pool

/-!
# The free list: `freelist_base`

`freelist_base<Shared, Allocator, MinSize, MaxSize, PoolSize, NumberOfBatchAllocations>` recycles
blocks whose size lies in `[lowerBound, upperBound]`. It hands out every block at the upper bound's
size, keeps up to `PoolSize` returned pointers in its pool, and on a miss fetches
`NumberOfBatchAllocations` blocks at once from its delegate `Allocator`, with one of two strategies
chosen by `Allocator::supports_truncated_deallocation`:

* **truncated** — one request for `blockSize * N` bytes, cut into sub-blocks `base + i * blockSize`
  of which `1 .. N-1` are pushed (`pushSubBlocks`) and sub-block `0` returned;
* **per block** — up to `N - 1` single requests pushed one by one (`allocateEach`), then one more
  returned.

Both products and the loop bound `N - 1` are computed in the code's fixed-width arithmetic
(`size_t` and `unsigned`), and the model computes them the same way (`batchRequest`, `subBlock`,
`perBlockIterations`). The delegate is a parameter over its own state `σ`, as the C++ template
parameter is; `Delegate.bump` is a concrete one for runs on fixed inputs.
-/

namespace AllocatorBuilder

/-- The template arguments of `freelist_base` that shape its code. `PoolSize` and
`NumberOfBatchAllocations` are `unsigned`. -/
structure FreelistConfig where
  /-- `Shared`: the lock-free pool, for concurrent callers -/
  shared : Bool
  /-- `Allocator::supports_truncated_deallocation`, which selects the batch strategy -/
  supportsTruncatedDeallocation : Bool
  /-- `PoolSize` -/
  poolSize : Nat
  /-- `NumberOfBatchAllocations` -/
  numberOfBatchAllocations : Nat
  poolSize_lt : poolSize < 2 ^ 32
  batch_lt : numberOfBatchAllocations < 2 ^ 32

/-- The operations `freelist_base` calls on its `Allocator` member, over the delegate's state `σ`.
`deallocate` also returns what it leaves in the caller's block. -/
structure Delegate (σ : Type) where
  /-- `allocate(n)` -/
  allocate : σ → Nat → σ × Block
  /-- `deallocate(b)` -/
  deallocate : σ → Block → σ × Block

/-- A bump-pointer delegate for runs on fixed inputs. Its state is the next free address and a
number of requests still to fail; it answers `allocate(k)` with the empty block while failing or
when `k = 0`, and otherwise with the fresh region `[next, next + k)`. It never reuses memory, so
every answer is the empty block or a fresh region of exactly `k` bytes. -/
def Delegate.bump : Delegate (Nat × Nat) where
  allocate
    | (next, fails + 1), _ => ((next, fails), Block.empty)
    | (next, 0), k => if k = 0 then ((next, 0), Block.empty) else ((next + k, 0), ⟨next, k⟩)
  deallocate s _ := (s, Block.empty)

/-- A delegate that answers from a script: each request takes the next answer, or the empty block
once the script is spent, and a block handed back is dropped, the caller's block reset. It replays
a run whose answers were chosen elsewhere. -/
def Delegate.script : Delegate (List Block) where
  allocate
    | [], _ => ([], Block.empty)
    | r :: rs, _ => (rs, r)
  deallocate rs _ := (rs, Block.empty)

/-- A delegate that answers from a script, as `Delegate.script` does, and keeps the addresses it
has handed out and not taken back: the delegate the interleaving model's steps act on, adding an
answer's region to the live memory and removing a block handed back. -/
def Delegate.tracked : Delegate (List Block × Finset Nat) where
  allocate
    | ([], live), _ => (([], live), Block.empty)
    | (r :: rs, live), _ => ((rs, live ∪ r.region), r)
  deallocate a b := ((a.1, a.2 \ b.region), Block.empty)

/-- The state of a `freelist_base`: its delegate, its pool `_root` and its two bounds. -/
structure FreelistBase (σ : Type) where
  /-- `_allocator` -/
  allocator : σ
  /-- `_root` -/
  root : Pool
  /-- `_lowerBound` -/
  lowerBound : Nat
  /-- `_upperBound` -/
  upperBound : Nat

namespace FreelistBase

variable {σ : Type} (cfg : FreelistConfig) (A : Delegate σ)

/-- `freelist_base(minSize, maxSize)`: an empty pool in front of the delegate. -/
def init (a : σ) (minSize maxSize : Nat) : FreelistBase σ :=
  ⟨a, Pool.empty cfg.poolSize, minSize, maxSize⟩

/-- The truncated strategy's request, `blockSize * NumberOfBatchAllocations` in `size_t`. -/
def batchRequest (blockSize : Nat) : Nat := blockSize * cfg.numberOfBatchAllocations % wordMod

/-- The address of sub-block `i`, `static_cast<char *>(base) + i * blockSize`, the product taken
in `size_t`. -/
def subBlock (base blockSize i : Nat) : Nat := base + i * blockSize % wordMod

@[simp] theorem subBlock_zero (base blockSize : Nat) : subBlock base blockSize 0 = base := by
  simp [subBlock]

/-- Sub-block `1` lies `blockSize` after the base while `blockSize` fits in `size_t`. -/
theorem subBlock_one {base blockSize : Nat} (h : blockSize < wordMod) :
    subBlock base blockSize 1 = base + blockSize := by
  simp [subBlock, Nat.mod_eq_of_lt h]

/-- Consecutive sub-blocks lie `blockSize` apart while the offsets do not wrap. -/
theorem subBlock_succ {base blockSize i : Nat} (h : (i + 1) * blockSize < wordMod) :
    subBlock base blockSize (i + 1) = subBlock base blockSize i + blockSize := by
  have h' : i * blockSize < wordMod := lt_of_le_of_lt (Nat.mul_le_mul_right _ (Nat.le_succ i)) h
  rw [subBlock, subBlock, Nat.mod_eq_of_lt h, Nat.mod_eq_of_lt h', Nat.succ_mul, Nat.add_assoc]

/-- The truncated strategy's loop `for (size_t i = 1; i < N; i++)`, at index `i` with `k`
iterations left: push sub-block `i`, and return it to the delegate when the pool is full. -/
def pushSubBlocks (base blockSize : Nat) : Nat → Nat → σ × Pool → σ × Pool
  | _, 0, s => s
  | i, k + 1, (a, pool) =>
    match pool.push (subBlock base blockSize i) with
    | some pool' => pushSubBlocks base blockSize (i + 1) k (a, pool')
    | none =>
      pushSubBlocks base blockSize (i + 1) k
        ((A.deallocate a ⟨subBlock base blockSize i, blockSize⟩).1, pool)

/-- The per-block loop's bound `NumberOfBatchAllocations - 1`, an `unsigned` subtraction: it wraps
to `2^32 - 1` at `0`. -/
def perBlockIterations : Nat :=
  if cfg.numberOfBatchAllocations = 0 then 2 ^ 32 - 1 else cfg.numberOfBatchAllocations - 1

/-- The bound is the subtraction modulo `2^32`. -/
theorem perBlockIterations_eq_mod :
    perBlockIterations cfg = (cfg.numberOfBatchAllocations + (2 ^ 32 - 1)) % 2 ^ 32 := by
  have := cfg.batch_lt
  unfold perBlockIterations; split <;> omega

/-- The per-block strategy's loop `for (size_t i = 0; i < N - 1; i++)`, `k` iterations left:
allocate one block and push its pointer; when the pool is full, stop and return that block. -/
def allocateEach (blockSize : Nat) : Nat → σ × Pool → σ × Pool × Option Block
  | 0, (a, pool) => (a, pool, none)
  | k + 1, (a, pool) =>
    let (a', b) := A.allocate a blockSize
    match pool.push b.ptr with
    | some pool' => allocateEach blockSize k (a', pool')
    | none => (a', pool, some b)

/-- The truncated strategy after a failed pop: one batch request; if it fails, one single request
for `blockSize`. -/
def allocateTruncated (f : FreelistBase σ) : FreelistBase σ × Block :=
  let blockSize := f.upperBound
  let (a, batch) := A.allocate f.allocator (batchRequest cfg blockSize)
  if batch.toBool then
    let (a', pool) :=
      pushSubBlocks A batch.ptr blockSize 1 (cfg.numberOfBatchAllocations - 1) (a, f.root)
    ({ f with allocator := a', root := pool }, ⟨batch.ptr, blockSize⟩)
  else
    let (a', r) := A.allocate a blockSize
    ({ f with allocator := a' }, r)

/-- The per-block strategy after a failed pop: the loop, then one last single request unless the
loop returned early. -/
def allocatePerBlock (f : FreelistBase σ) : FreelistBase σ × Block :=
  match allocateEach A f.upperBound (perBlockIterations cfg) (f.allocator, f.root) with
  | (a, pool, some b) => ({ f with allocator := a, root := pool }, b)
  | (a, pool, none) =>
    let (a', r) := A.allocate a f.upperBound
    ({ f with allocator := a', root := pool }, r)

/-- `allocate(n)`: the empty block outside the bounds; otherwise a pooled pointer at the upper
bound's size, or fresh memory from the delegate. -/
def allocate (f : FreelistBase σ) (n : Nat) : FreelistBase σ × Block :=
  if f.lowerBound ≤ n ∧ n ≤ f.upperBound then
    match f.root.pop with
    | some (p, pool) => ({ f with root := pool }, ⟨p, f.upperBound⟩)
    | none =>
      if cfg.supportsTruncatedDeallocation then allocateTruncated cfg A f
      else allocatePerBlock cfg A f
  else (f, Block.empty)

/-- **A failed delegate request pools `nullptr`.** The per-block loop pushes `b.ptr` without
testing `b`, which the truncated strategy does test. With `PoolSize = 1`, `N = 2`, bounds `[8, 8]`
and a delegate that fails its first request, the first `allocate(8)` pools the null pointer and the
second pops it: it returns `{nullptr, 8}`, a block with a null pointer and a non-zero length. -/
theorem allocate_after_failed_request_returns_null :
    let cfg : FreelistConfig := ⟨false, false, 1, 2, by decide, by decide⟩
    let f := init cfg ((4096 : Nat), (1 : Nat)) 8 8
    ((allocate cfg Delegate.bump f 8).1.allocate cfg Delegate.bump 8).2 = ⟨0, 8⟩ := by
  decide

/-- **The strategies part at `N = 0`.** From an empty pool of capacity `1`, with the same
always-succeeding delegate and bounds `[8, 8]`, the truncated strategy asks for `8 * 0 = 0` bytes,
falls back to one block and leaves the pool empty, while the per-block loop's bound `0u - 1`
wraps to `2^32 - 1`, so it fills the pool before returning a block. -/
theorem allocate_strategies_differ_at_zero_batch :
    let truncated : FreelistConfig := ⟨false, true, 1, 0, by decide, by decide⟩
    let perBlock : FreelistConfig := ⟨false, false, 1, 0, by decide, by decide⟩
    (allocate truncated Delegate.bump (init truncated ((4096 : Nat), (0 : Nat)) 8 8) 8).1.root.slots
        = [] ∧
      (allocate perBlock Delegate.bump (init perBlock ((4096 : Nat), (0 : Nat)) 8 8) 8).1.root.slots
        = [4096] := by
  decide

/-- **The batch request wraps.** With the default `N = 8` and `upperBound = 2^61 + 1`, the request
`upperBound * 8` is `8` in `size_t`; the delegate hands out `[4096, 4104)` (its bump pointer
stops at `4104`), yet the pool receives sub-block `1` at `4096 + 2^61 + 1`, far outside it. -/
theorem allocate_batch_request_wraps :
    let cfg : FreelistConfig := ⟨false, true, 1024, 8, by decide, by decide⟩
    let r := allocate cfg Delegate.bump (init cfg ((4096 : Nat), (0 : Nat)) 0 (2 ^ 61 + 1)) 8
    batchRequest cfg (2 ^ 61 + 1) = 8 ∧ r.1.allocator = (4104, 0) ∧
      4096 + (2 ^ 61 + 1) ∈ r.1.root.slots := by
  decide

/-- `owns(b)`: a size-range test, not a pointer-membership test. -/
def owns (f : FreelistBase σ) (b : Block) : Bool :=
  b.toBool && decide (f.lowerBound ≤ b.length) && decide (b.length ≤ f.upperBound)

/-- `deallocate(b)`: push an owned block's pointer and reset the caller's block, or forward the
block to the delegate when the pool is full. Any other block is left alone. Returns what the
caller's block holds afterwards. -/
def deallocate (f : FreelistBase σ) (b : Block) : FreelistBase σ × Block :=
  if b.toBool && f.owns b then
    match f.root.push b.ptr with
    | some pool => ({ f with root := pool }, Block.empty)
    | none =>
      let (a, b') := A.deallocate f.allocator b
      ({ f with allocator := a }, b')
  else (f, b)

/-- A call a client makes on a `freelist_base`. -/
inductive Call where
  | allocate (n : Nat)
  | deallocate (b : Block)
  deriving DecidableEq, Repr

/-- One call: the free list after it, and the block it returns (`deallocate` returns what it leaves
in the caller's block). -/
def call (f : FreelistBase σ) : Call → FreelistBase σ × Block
  | .allocate n => allocate cfg A f n
  | .deallocate b => deallocate A f b

/-- No call moves the bounds. -/
theorem call_eq (f : FreelistBase σ) (c : Call) :
    (f.call cfg A c).1 =
      { f with allocator := (f.call cfg A c).1.allocator, root := (f.call cfg A c).1.root } := by
  cases c <;> simp only [call, allocate, deallocate, allocateTruncated, allocatePerBlock] <;>
    repeat' split
  all_goals rfl

/-- The loop of `~freelist_base`: deallocate each popped pointer as a block of `blockSize`. -/
def drain (blockSize : Nat) : List Nat → σ → σ
  | [], a => a
  | p :: ps, a => drain blockSize ps (A.deallocate a ⟨p, blockSize⟩).1

/-- `~freelist_base`: pop the pool empty, returning every pointer to the delegate at the upper
bound's size. The pops meet the pointers in the order the list holds them. -/
def destroy (f : FreelistBase σ) : σ := drain A f.upperBound f.root.slots f.allocator

end FreelistBase

end AllocatorBuilder
