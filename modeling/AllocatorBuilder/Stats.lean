import AllocatorBuilder.Block

/-!
# The statistics decorator: `AllocatorWithStats`

`AllocatorWithStats<Allocator, Flags>` forwards every call to its delegate and counts. Each of the
seventeen `size_t` counters declared by `MEMBER_ACCESSORS` is gated by one bit of `Flags` through
the generic helpers `up`, `upOK` and `add`; `updateHighTide` derives the peak from the allocated
and deallocated byte counters. When `Flags` asks for per-allocation state (caller time, file or
line), the delegate is wrapped in an `AffixAllocator` that stores an `AllocationInfo` just before
each block, and those records form a doubly linked list rooted at `_root`, newest first.

The model keeps the code's shapes:

* the counters are a function `Counter → BitVec 64`, so that the `size_t` arithmetic and the signed
  deltas of `add` wrap exactly as in C++, and a helper takes the counter whose option it tests
  (every call site passes a counter together with its own option);
* the records live in `mem`, the memory at their addresses, and the list operations are the
  code's field writes in the code's order;
* the delegate's answers are arguments (`result`, `ok`): the decorator's code is deterministic
  once they are fixed, and a run of the decorator is a list of `Call`s carrying them.

The `AffixAllocator` and the `Block` header are not among the sources; `prefixOf` and
`AffixAllocator.relocate` are modelled from the spec. `owns` is left out: it calls the non-const
`up` from a const member, so it does not compile once instantiated.
-/

namespace AllocatorBuilder

/-- The single-bit `StatsOptions`. -/
inductive StatsOptions
  | numOwns | numAllocate | numAllocateOK | numExpand | numExpandOK | numReallocate
  | numReallocateOK | numReallocateInPlace | numDeallocate | numDeallocateAll
  | bytesAllocated | bytesDeallocated | bytesExpanded | bytesContracted | bytesMoved
  | bytesSlack | bytesHighTide
  | callerSize | callerFile | callerFunction | callerLine | callerTime
  deriving DecidableEq, Repr

namespace StatsOptions

/-- The bit position `k` of an option `1u << k`. -/
def bit : StatsOptions → Nat
  | numOwns => 0 | numAllocate => 1 | numAllocateOK => 2 | numExpand => 3 | numExpandOK => 4
  | numReallocate => 5 | numReallocateOK => 6 | numReallocateInPlace => 7 | numDeallocate => 8
  | numDeallocateAll => 9 | bytesAllocated => 10 | bytesDeallocated => 11 | bytesExpanded => 12
  | bytesContracted => 13 | bytesMoved => 14 | bytesSlack => 15 | bytesHighTide => 16
  | callerSize => 17 | callerFile => 18 | callerFunction => 19 | callerLine => 20
  | callerTime => 21

/-- The option's value `1u << k`. -/
def mask (o : StatsOptions) : Nat := 1 <<< o.bit

end StatsOptions

/-- `Flags & option`: whether a flag set enables an option. -/
def enabled (flags : Nat) (o : StatsOptions) : Bool := flags &&& o.mask != 0

/-- `HasPerAllocationState`: the flag set asks for the caller's time, file or line. -/
def hasPerAllocationState (flags : Nat) : Bool :=
  flags &&& (StatsOptions.callerTime.mask ||| StatsOptions.callerFile.mask |||
    StatsOptions.callerLine.mask) != 0

/-- The counters `MEMBER_ACCESSORS` declares. -/
inductive Counter
  | numOwns | numAllocate | numAllocateOK | numExpand | numExpandOK | numReallocate
  | numReallocateOK | numReallocateInPlace | numDeallocate | numDeallocateAll
  | bytesAllocated | bytesDeallocated | bytesExpanded | bytesContracted | bytesMoved
  | bytesSlack | bytesHighTide
  deriving DecidableEq, Repr

/-- The option that gates a counter: the one of the same name. -/
def Counter.option : Counter → StatsOptions
  | .numOwns => .numOwns | .numAllocate => .numAllocate | .numAllocateOK => .numAllocateOK
  | .numExpand => .numExpand | .numExpandOK => .numExpandOK | .numReallocate => .numReallocate
  | .numReallocateOK => .numReallocateOK | .numReallocateInPlace => .numReallocateInPlace
  | .numDeallocate => .numDeallocate | .numDeallocateAll => .numDeallocateAll
  | .bytesAllocated => .bytesAllocated | .bytesDeallocated => .bytesDeallocated
  | .bytesExpanded => .bytesExpanded | .bytesContracted => .bytesContracted
  | .bytesMoved => .bytesMoved | .bytesSlack => .bytesSlack | .bytesHighTide => .bytesHighTide

/-- A per-allocation record, stored by the `AffixAllocator` just before its block. Pointers
(`const char*`, links) are addresses, `0` for `nullptr`; the time point is a tick count. -/
structure AllocationInfo where
  /-- `callerSize` -/
  callerSize : Nat
  /-- `callerFile` -/
  callerFile : Nat
  /-- `callerFunction` -/
  callerFunction : Nat
  /-- `callerLine` -/
  callerLine : Int
  /-- `callerTime` -/
  callerTime : Nat
  /-- the link to the next newer record -/
  previous : Nat
  /-- the link to the next older record -/
  next : Nat
  deriving DecidableEq, Repr, Inhabited

/-- `sizeof(AllocationInfo)` on an LP64 target: seven 8-byte fields, the `int` padded. -/
def AllocationInfo.size : Nat := 56

/-- Modelled from the spec: `Traits::AffixExtractor<...>::prefix`, the record sits immediately
before the block ("stores a header of a fixed, known size immediately adjacent"). -/
def prefixOf (b : Block) : Nat := b.ptr - AllocationInfo.size

/-- The bytes a block takes together with the record before it, `[ptr - 56, ptr + length)`. -/
def Block.withRecord (b : Block) : Block := ⟨prefixOf b, AllocationInfo.size + b.length⟩

/-- Modelled from the spec: what the `AffixAllocator` delegate does to the records when a
reallocation moves a block, the record travels with it ("storage for the node physically travels
with the block"). -/
def AffixAllocator.relocate (mem : Nat → AllocationInfo) (old new : Block) :
    Nat → AllocationInfo :=
  if old.toBool && new.toBool && old.ptr != new.ptr then
    Function.update mem (prefixOf new) (mem (prefixOf old))
  else mem

/-- The state of an `AllocatorWithStats`: `_root`, the counters, and the memory its records live
in. -/
structure AllocatorWithStats where
  /-- `_root`, the newest record, `0` for `nullptr` -/
  root : Nat
  /-- the `size_t` counters -/
  counters : Counter → BitVec 64
  /-- the records, by address -/
  mem : Nat → AllocationInfo

namespace AllocatorWithStats

variable (Flags : Nat)

/-- The constructor: every counter `0`, `_root` null; memory is whatever it holds. -/
def init (mem : Nat → AllocationInfo) : AllocatorWithStats := ⟨0, fun _ => 0, mem⟩

/-- `up(option, value)`: count one when the option is enabled. -/
def up (k : Counter) (c : Counter → BitVec 64) : Counter → BitVec 64 :=
  if enabled Flags k.option then Function.update c k (c k + 1) else c

/-- `upOK(option, value, ok)`: count one when the option is enabled and `ok` holds. -/
def upOK (k : Counter) (ok : Bool) (c : Counter → BitVec 64) : Counter → BitVec 64 :=
  if enabled Flags k.option && ok then Function.update c k (c k + 1) else c

/-- `add(option, value, delta)`: add a (two's-complement) delta when the option is enabled. -/
def add (k : Counter) (delta : BitVec 64) (c : Counter → BitVec 64) : Counter → BitVec 64 :=
  if enabled Flags k.option then Function.update c k (c k + delta) else c

/-- `set(option, field, t)` on a record: write the field when the option is enabled. -/
def set (o : StatsOptions) (write : AllocationInfo → AllocationInfo) (i : AllocationInfo) :
    AllocationInfo :=
  if enabled Flags o then write i else i

/-- `updateHighTide()`: raise the high tide to `bytesAllocated - bytesDeallocated` (in `size_t`)
when that is larger. -/
def updateHighTide (c : Counter → BitVec 64) : Counter → BitVec 64 :=
  if enabled Flags .bytesHighTide then
    let currentlyAllocated := c .bytesAllocated - c .bytesDeallocated
    if c .bytesHighTide < currentlyAllocated then Function.update c .bytesHighTide currentlyAllocated
    else c
  else c

/-! ### What each helper changes -/

/-- `up` is `add` of one, and `upOK` is `up` when `ok` holds. -/
theorem up_eq_add (k : Counter) (c : Counter → BitVec 64) : up Flags k c = add Flags k 1 c := rfl

theorem upOK_eq (k : Counter) (ok : Bool) (c : Counter → BitVec 64) :
    upOK Flags k ok c = if ok then add Flags k 1 c else c := by
  cases ok <;> simp [upOK, add]

@[simp] theorem up_ne {k j : Counter} (h : j ≠ k) (c : Counter → BitVec 64) :
    up Flags k c j = c j := by
  unfold up; split <;> simp [Function.update_noteq h]

@[simp] theorem upOK_ne {k j : Counter} (h : j ≠ k) (ok : Bool) (c : Counter → BitVec 64) :
    upOK Flags k ok c j = c j := by
  unfold upOK; split <;> simp [Function.update_noteq h]

@[simp] theorem add_ne {k j : Counter} (h : j ≠ k) (d : BitVec 64) (c : Counter → BitVec 64) :
    add Flags k d c j = c j := by
  unfold add; split <;> simp [Function.update_noteq h]

theorem add_self {k : Counter} (h : enabled Flags k.option) (d : BitVec 64)
    (c : Counter → BitVec 64) : add Flags k d c k = c k + d := by
  simp [add, h]

theorem up_self {k : Counter} (h : enabled Flags k.option) (c : Counter → BitVec 64) :
    up Flags k c k = c k + 1 :=
  add_self Flags h 1 c

theorem upOK_self {k : Counter} (h : enabled Flags k.option) (ok : Bool) (c : Counter → BitVec 64) :
    upOK Flags k ok c k = if ok then c k + 1 else c k := by
  cases ok <;> simp [upOK, h]

@[simp] theorem updateHighTide_ne {j : Counter} (h : j ≠ .bytesHighTide)
    (c : Counter → BitVec 64) : updateHighTide Flags c j = c j := by
  unfold updateHighTide; split
  · dsimp only; split <;> simp [Function.update_noteq h]
  · rfl

/-- Write one record in memory. -/
def writeInfo (mem : Nat → AllocationInfo) (p : Nat) (write : AllocationInfo → AllocationInfo) :
    Nat → AllocationInfo :=
  Function.update mem p (write (mem p))

/-- The per-allocation branch of `allocate`: fill the record at `stat` and link it as the new head. -/
def link (s : AllocatorWithStats) (stat n file function : Nat) (line : Int) (now : Nat) :
    AllocatorWithStats :=
  let mem := writeInfo s.mem stat fun i => i
    |> set Flags .callerSize (fun i => { i with callerSize := n })
    |> set Flags .callerFile (fun i => { i with callerFile := file })
    |> set Flags .callerFunction (fun i => { i with callerFunction := function })
    |> set Flags .callerLine (fun i => { i with callerLine := line })
    |> set Flags .callerTime (fun i => { i with callerTime := now })
  if s.root ≠ 0 then
    let mem := writeInfo mem s.root fun i => { i with previous := stat }
    let mem := writeInfo mem stat fun i => { i with next := s.root }
    let mem := writeInfo mem stat fun i => { i with previous := 0 }
    { s with mem := mem, root := stat }
  else
    let mem := writeInfo mem stat fun i => { i with previous := 0 }
    let mem := writeInfo mem stat fun i => { i with next := 0 }
    { s with mem := mem, root := stat }

/-- The per-allocation branch of `deallocate`: unlink the record at `stat`, reading each link from
memory as the code does, after the writes before it. -/
def unlink (s : AllocatorWithStats) (stat : Nat) : AllocatorWithStats :=
  let mem₁ := if (s.mem stat).previous ≠ 0 then
      writeInfo s.mem (s.mem stat).previous fun i => { i with next := (s.mem stat).next }
    else s.mem
  let mem₂ := if (mem₁ stat).next ≠ 0 then
      writeInfo mem₁ (mem₁ stat).next fun i => { i with previous := (mem₁ stat).previous }
    else mem₁
  { s with mem := mem₂, root := if stat = s.root then (mem₂ stat).previous else s.root }

@[simp] theorem link_counters (s : AllocatorWithStats) (stat n file function : Nat) (line : Int)
    (now : Nat) : (link Flags s stat n file function line now).counters = s.counters := by
  unfold link; split <;> rfl

@[simp] theorem unlink_counters (s : AllocatorWithStats) (stat : Nat) :
    (unlink s stat).counters = s.counters := rfl

/-- `allocate(n, file, function, line)` once the delegate has answered `result`; `now` is the
clock's reading. -/
def allocate (s : AllocatorWithStats) (n file function : Nat) (line : Int) (now : Nat)
    (result : Block) : AllocatorWithStats :=
  let c := s.counters
    |> up Flags .numAllocate
    |> upOK Flags .numAllocateOK (decide (0 < n) && result.toBool)
    |> add Flags .bytesAllocated (BitVec.ofNat 64 result.length)
    |> updateHighTide Flags
  let s := { s with counters := c }
  if result.toBool && hasPerAllocationState Flags then
    link Flags s (prefixOf result) n file function line now
  else s

theorem allocate_counters (s : AllocatorWithStats) (n file function : Nat) (line : Int)
    (now : Nat) (result : Block) :
    (allocate Flags s n file function line now result).counters =
      updateHighTide Flags (add Flags .bytesAllocated (BitVec.ofNat 64 result.length)
        (upOK Flags .numAllocateOK (decide (0 < n) && result.toBool)
          (up Flags .numAllocate s.counters))) := by
  unfold allocate; split <;> simp

/-- `deallocate(b)`, before the block is forwarded to the delegate. -/
def deallocate (s : AllocatorWithStats) (b : Block) : AllocatorWithStats :=
  let c := s.counters
    |> up Flags .numDeallocate
    |> add Flags .bytesDeallocated (BitVec.ofNat 64 b.length)
  let s := { s with counters := c }
  if b.toBool && hasPerAllocationState Flags then unlink s (prefixOf b) else s

theorem deallocate_counters (s : AllocatorWithStats) (b : Block) :
    (deallocate Flags s b).counters =
      add Flags .bytesDeallocated (BitVec.ofNat 64 b.length) (up Flags .numDeallocate s.counters) := by
  unfold deallocate; split <;> simp

/-- The counters a successful `reallocate` from `originalBlock` to `b` updates before
`updateHighTide`. -/
def reallocated (originalBlock b : Block) (c : Counter → BitVec 64) : Counter → BitVec 64 :=
  let c := up Flags .numReallocateOK c
  let delta : BitVec 64 := BitVec.ofNat 64 b.length - BitVec.ofNat 64 originalBlock.length
  if b.ptr = originalBlock.ptr then
    let c := up Flags .numReallocateInPlace c
    if BitVec.slt 0 delta then
      c |> add Flags .bytesAllocated delta |> add Flags .bytesExpanded delta
    else
      c |> add Flags .bytesDeallocated (-delta) |> add Flags .bytesContracted (-delta)
  else
    c |> add Flags .bytesAllocated (BitVec.ofNat 64 b.length)
      |> add Flags .bytesMoved (BitVec.ofNat 64 originalBlock.length)
      |> add Flags .bytesDeallocated (BitVec.ofNat 64 originalBlock.length)

@[simp] theorem reallocated_highTide (originalBlock b : Block) (c : Counter → BitVec 64) :
    reallocated Flags originalBlock b c .bytesHighTide = c .bytesHighTide := by
  unfold reallocated; dsimp only; split_ifs <;> simp

/-- `reallocate(b, n)` once the delegate has answered: `ok` is its verdict and `result` the block
it leaves. The decorator does not touch its records; the delegate moves them with their block. -/
def reallocate (s : AllocatorWithStats) (b : Block) (ok : Bool) (result : Block) :
    AllocatorWithStats :=
  let c := up Flags .numReallocate s.counters
  if ok then
    { s with
      counters := updateHighTide Flags (reallocated Flags b result c)
      mem := if hasPerAllocationState Flags then AffixAllocator.relocate s.mem b result else s.mem }
  else { s with counters := c }

theorem reallocate_counters (s : AllocatorWithStats) (b : Block) (ok : Bool) (result : Block) :
    (reallocate Flags s b ok result).counters =
      if ok then updateHighTide Flags (reallocated Flags b result (up Flags .numReallocate s.counters))
      else up Flags .numReallocate s.counters := by
  unfold reallocate; split <;> rfl

/-- `expand(b, delta)` once the delegate has answered `ok`, leaving `result`. -/
def expand (s : AllocatorWithStats) (b : Block) (ok : Bool) (result : Block) :
    AllocatorWithStats :=
  let c := up Flags .numExpand s.counters
  if ok then
    let grown := BitVec.ofNat 64 result.length - BitVec.ofNat 64 b.length
    { s with counters := c
        |> up Flags .numExpandOK
        |> add Flags .bytesExpanded grown
        |> add Flags .bytesAllocated grown
        |> updateHighTide Flags }
  else { s with counters := c }

theorem expand_counters (s : AllocatorWithStats) (b : Block) (ok : Bool) (result : Block) :
    (expand Flags s b ok result).counters =
      if ok then
        updateHighTide Flags (add Flags .bytesAllocated
          (BitVec.ofNat 64 result.length - BitVec.ofNat 64 b.length)
          (add Flags .bytesExpanded (BitVec.ofNat 64 result.length - BitVec.ofNat 64 b.length)
            (up Flags .numExpandOK (up Flags .numExpand s.counters))))
      else up Flags .numExpand s.counters := by
  unfold expand; split <;> rfl

end AllocatorWithStats

/-! ## Runs -/

/-- One call a client makes, with what the delegate answers: the block it returns, and for
`reallocate` and `expand` its verdict and the block it leaves in the caller's handle. -/
inductive Call
  | allocate (n file function : Nat) (line : Int) (now : Nat) (result : Block)
  | deallocate (b : Block)
  | reallocate (b : Block) (n : Nat) (ok : Bool) (result : Block)
  | expand (b : Block) (delta : Nat) (ok : Bool) (result : Block)

namespace AllocatorWithStats

variable (Flags : Nat)

/-- The decorator's effect of one call. -/
def exec (s : AllocatorWithStats) : Call → AllocatorWithStats
  | .allocate n file function line now result => allocate Flags s n file function line now result
  | .deallocate b => deallocate Flags s b
  | .reallocate b _ ok result => reallocate Flags s b ok result
  | .expand b _ ok result => expand Flags s b ok result

/-- The decorator after a sequence of calls. -/
def run (s : AllocatorWithStats) (calls : List Call) : AllocatorWithStats :=
  calls.foldl (exec Flags) s

@[simp] theorem run_nil (s : AllocatorWithStats) : run Flags s [] = s := rfl

@[simp] theorem run_cons (s : AllocatorWithStats) (c : Call) (cs : List Call) :
    run Flags s (c :: cs) = run Flags (exec Flags s c) cs := rfl

end AllocatorWithStats

namespace Call

/-- The client's live blocks after a call, newest first: a successful allocation adds its block, a
deallocation removes one, and a successful resize replaces the old block by the new one. -/
def live (L : List Block) : Call → List Block
  | .allocate _ _ _ _ _ result => if result.toBool then result :: L else L
  | .deallocate b => L.erase b
  | .reallocate b _ ok result | .expand b _ ok result =>
    if ok then (if result.toBool then result :: L.erase b else L.erase b) else L

/-- The client's side of the contract: it passes only blocks it holds (or empty ones), and the
delegate leaves a block alone when it reports failure. -/
def Admissible (L : List Block) : Call → Prop
  | .allocate .. => True
  | .deallocate b => b ∈ L ∨ b.length = 0
  | .reallocate b _ ok result | .expand b _ ok result =>
    (b ∈ L ∨ b.length = 0) ∧ (ok = false → result = b)

/-- The delegate's side of the contract: a block it hands out lies in the address space and shares
no byte with the client's other live blocks. -/
def Fresh (L : List Block) : Call → Prop
  | .allocate _ _ _ _ _ result => result.InSpace ∧ ∀ c ∈ L, Disjoint result.region c.region
  | .deallocate _ => True
  | .reallocate b _ ok result | .expand b _ ok result =>
    ok = true → result.InSpace ∧ ∀ c ∈ L.erase b, Disjoint result.region c.region

instance (L : List Block) : (c : Call) → Decidable (c.Admissible L)
  | .allocate .. => inferInstanceAs (Decidable True)
  | .deallocate b => inferInstanceAs (Decidable (b ∈ L ∨ b.length = 0))
  | .reallocate b _ ok r | .expand b _ ok r =>
    inferInstanceAs (Decidable ((b ∈ L ∨ b.length = 0) ∧ (ok = false → r = b)))

instance (L : List Block) : (c : Call) → Decidable (c.Fresh L)
  | .allocate _ _ _ _ _ r => inferInstanceAs (Decidable (r.InSpace ∧ ∀ c ∈ L, Disjoint r.region c.region))
  | .deallocate _ => inferInstanceAs (Decidable True)
  | .reallocate b _ ok r | .expand b _ ok r =>
    inferInstanceAs (Decidable (ok = true → r.InSpace ∧ ∀ c ∈ L.erase b, Disjoint r.region c.region))

/-- The delegate's side of the contract where the decorator keeps a record before each block: a
block it hands out holding bytes, with its record, shares no byte with another live block or that
block's record. The model's memory keeps one whole record per address, which is how the memory
behaves exactly when no two records, and no record and block, overlap. -/
def Separate (L : List Block) : Call → Prop
  | .allocate _ _ _ _ _ result =>
    result.toBool → ∀ c ∈ L, Disjoint result.withRecord.region c.withRecord.region
  | .deallocate _ => True
  | .reallocate b _ ok result | .expand b _ ok result =>
    ok = true → result.toBool → ∀ c ∈ L.erase b, Disjoint result.withRecord.region c.withRecord.region

instance (L : List Block) : (c : Call) → Decidable (c.Separate L)
  | .allocate _ _ _ _ _ r =>
    inferInstanceAs (Decidable (r.toBool → ∀ c ∈ L, Disjoint r.withRecord.region c.withRecord.region))
  | .deallocate _ => inferInstanceAs (Decidable True)
  | .reallocate b _ ok r | .expand b _ ok r => inferInstanceAs (Decidable
    (ok = true → r.toBool → ∀ c ∈ L.erase b, Disjoint r.withRecord.region c.withRecord.region))

/-- The live blocks after a sequence of calls. -/
def liveAfter (L : List Block) (calls : List Call) : List Block := calls.foldl live L

/-- Every call of a sequence meets `P` in the live blocks it finds. -/
def Run (P : List Block → Call → Prop) : List Block → List Call → Prop
  | _, [] => True
  | L, c :: cs => P L c ∧ Run P (c.live L) cs

instance Run.decidable (P : List Block → Call → Prop) [∀ L c, Decidable (P L c)] :
    (L : List Block) → (calls : List Call) → Decidable (Run P L calls)
  | _, [] => isTrue trivial
  | L, c :: cs =>
    have := Run.decidable P (c.live L) cs
    inferInstanceAs (Decidable (P L c ∧ Run P (c.live L) cs))

/-- The largest live total over a run: before the first call and after each. -/
def peak (L : List Block) : List Call → Nat
  | [] => bytes L
  | c :: cs => max (bytes L) (peak (c.live L) cs)

@[simp] theorem liveAfter_nil (L : List Block) : liveAfter L [] = L := rfl

@[simp] theorem liveAfter_cons (L : List Block) (c : Call) (cs : List Call) :
    liveAfter L (c :: cs) = liveAfter (c.live L) cs := rfl

@[simp] theorem run_nil_iff (P : List Block → Call → Prop) (L : List Block) : Run P L [] := trivial

@[simp] theorem run_cons_iff (P : List Block → Call → Prop) (L : List Block) (c : Call)
    (cs : List Call) : Run P L (c :: cs) ↔ P L c ∧ Run P (c.live L) cs := Iff.rfl

end Call

end AllocatorBuilder
