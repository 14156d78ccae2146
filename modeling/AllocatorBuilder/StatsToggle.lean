import AllocatorBuilder.Stats

/-!
# The counters: toggled independently, summed over runs

Every counter update goes through `up`, `upOK` or `add`, gated by the counter's own option, so a
counter whose option is off never moves (`counter_disabled_run`), and a counter's value depends on
no other counter's option — with one exception. `updateHighTide` reads `bytesAllocated` and
`bytesDeallocated`, which only move when their own options are on: with `bytesHighTide` alone the
high tide stays `0`, with all three it is the peak of live bytes. So two flag sets that both enable
a counter agree on it, provided, for the high tide, they also agree on the two byte counters'
options (`counters_toggle_independently`).

The two-run statement is a simulation: `Agree F G` relates the counters of a run under `F` and one
under `G` fed the same calls, and every helper, hence every call, preserves it.

The same shape gives composition: every helper adds to its counter an amount fixed by the call,
so two runs whose counters differ by `e` before a call differ by `e` after it, the high tide
apart (`Shifted`). The counters but the high tide after `xs ++ ys` are therefore those after `xs`
plus those a new decorator reaches on `ys` (`counters_append`). And two documented counters are
never maintained at all: `numDeallocateAll` and `bytesSlack` stay `0` under every flag set
(`unmaintained_counters_zero`).

Last, the event counters are compared with their comments in `StatsOptions`, written down as a
table (`Counter.documented`): each enabled `numXxx` counter holds the number of calls its comment
names, as long as the delegate hands out blocks that are null exactly when empty
(`event_counters_documented`). The comment of `numAllocateOK` asks for a non-null block where the
code tests the length, and the free list's `{nullptr, n}` blocks are where the two part.
-/

namespace AllocatorBuilder

namespace AllocatorWithStats

/-! ## A disabled counter stays put -/

section Disabled

variable {Flags : Nat} {k : Counter} (h : enabled Flags k.option = false)
include h

theorem add_disabled (k' : Counter) (d : BitVec 64) (c : Counter → BitVec 64) :
    add Flags k' d c k = c k := by
  unfold add; split
  · by_cases e : k = k'
    · subst e; simp_all
    · simp [Function.update_noteq e]
  · rfl

theorem up_disabled (k' : Counter) (c : Counter → BitVec 64) : up Flags k' c k = c k :=
  add_disabled h k' 1 c

theorem upOK_disabled (k' : Counter) (ok : Bool) (c : Counter → BitVec 64) :
    upOK Flags k' ok c k = c k := by
  rw [upOK_eq]; split
  · exact add_disabled h k' 1 c
  · rfl

theorem updateHighTide_disabled (c : Counter → BitVec 64) : updateHighTide Flags c k = c k := by
  by_cases e : k = .bytesHighTide
  · subst e; simp_all [updateHighTide, Counter.option]
  · exact updateHighTide_ne Flags e c

theorem reallocated_disabled (b r : Block) (c : Counter → BitVec 64) :
    reallocated Flags b r c k = c k := by
  unfold reallocated; dsimp only
  split_ifs <;> simp only [add_disabled h, up_disabled h]

/-- A counter whose option is off is not touched by any call. -/
theorem counter_disabled_exec (s : AllocatorWithStats) (c : Call) :
    (exec Flags s c).counters k = s.counters k := by
  cases c with
  | allocate =>
    simp only [exec, allocate_counters, updateHighTide_disabled h, add_disabled h,
      upOK_disabled h, up_disabled h]
  | deallocate => simp only [exec, deallocate_counters, add_disabled h, up_disabled h]
  | reallocate b n ok r =>
    simp only [exec, reallocate_counters]
    split <;> simp only [updateHighTide_disabled h, reallocated_disabled h, up_disabled h]
  | expand b n ok r =>
    simp only [exec, expand_counters]
    split <;> simp only [updateHighTide_disabled h, add_disabled h, up_disabled h]

theorem counter_disabled_run (s : AllocatorWithStats) (calls : List Call) :
    (run Flags s calls).counters k = s.counters k := by
  induction calls generalizing s with
  | nil => rfl
  | cons c cs ih => rw [run_cons, ih, counter_disabled_exec h]

end Disabled

/-! ## Two flag sets, one sequence of calls -/

/-- The counters of a run under `F` and a run under `G` agree on every counter both flag sets treat
alike: same option, and for the high tide also the same byte options. -/
def Agree (F G : Nat) (c d : Counter → BitVec 64) : Prop :=
  ∀ k, enabled F k.option = enabled G k.option →
    (k = .bytesHighTide → enabled F .bytesAllocated = enabled G .bytesAllocated ∧
      enabled F .bytesDeallocated = enabled G .bytesDeallocated) → c k = d k

namespace Agree

variable {F G : Nat} {c d : Counter → BitVec 64}

theorem add (A : Agree F G c d) (k' : Counter) (x : BitVec 64) :
    Agree F G (add F k' x c) (add G k' x d) := by
  intro k hk ht
  have e := A k hk ht
  unfold AllocatorWithStats.add
  by_cases h : k = k'
  · subst h; rw [hk]; split <;> simp [e]
  · split <;> split <;> simp [Function.update_noteq h, e]

theorem up (A : Agree F G c d) (k' : Counter) : Agree F G (up F k' c) (up G k' d) :=
  A.add k' 1

theorem upOK (A : Agree F G c d) (k' : Counter) (ok : Bool) :
    Agree F G (upOK F k' ok c) (upOK G k' ok d) := by
  rw [upOK_eq, upOK_eq]; split
  · exact A.add k' 1
  · exact A

/-- `updateHighTide` keeps the agreement: for the high tide itself, both runs read the same three
counters under the same options. -/
theorem updateHighTide (A : Agree F G c d) :
    Agree F G (updateHighTide F c) (updateHighTide G d) := by
  intro k hk ht
  by_cases h : k = .bytesHighTide
  · subst h
    obtain ⟨hA, hD⟩ := ht rfl
    have eH := A .bytesHighTide hk (fun _ => ⟨hA, hD⟩)
    have eA := A .bytesAllocated hA (fun h => by cases h)
    have eD := A .bytesDeallocated hD (fun h => by cases h)
    simp only [AllocatorWithStats.updateHighTide, eH, eA, eD]
    rw [show enabled F StatsOptions.bytesHighTide = enabled G StatsOptions.bytesHighTide from hk]
    split_ifs <;> simp [eH]
  · rw [updateHighTide_ne F h, updateHighTide_ne G h]; exact A k hk ht

theorem reallocated (A : Agree F G c d) (b r : Block) :
    Agree F G (reallocated F b r c) (reallocated G b r d) := by
  unfold AllocatorWithStats.reallocated; dsimp only
  split_ifs
  · exact ((A.up _).up _ |>.add _ _).add _ _
  · exact ((A.up _).up _ |>.add _ _).add _ _
  · exact ((A.up _ |>.add _ _).add _ _).add _ _

/-- **One call keeps the agreement.** -/
theorem exec {s t : AllocatorWithStats} (A : Agree F G s.counters t.counters) (c : Call) :
    Agree F G (exec F s c).counters (exec G t c).counters := by
  cases c with
  | allocate n file function line now r =>
    simp only [AllocatorWithStats.exec, allocate_counters]
    exact ((A.up _ |>.upOK _ _).add _ _).updateHighTide
  | deallocate b =>
    simp only [AllocatorWithStats.exec, deallocate_counters]
    exact (A.up _).add _ _
  | reallocate b n ok r =>
    simp only [AllocatorWithStats.exec, reallocate_counters]
    split
    · exact ((A.up _).reallocated _ _).updateHighTide
    · exact A.up _
  | expand b n ok r =>
    simp only [AllocatorWithStats.exec, expand_counters]
    split
    · exact ((((A.up _).up _).add _ _).add _ _).updateHighTide
    · exact A.up _

theorem run {s t : AllocatorWithStats} (A : Agree F G s.counters t.counters) (calls : List Call) :
    Agree F G (run F s calls).counters (run G t calls).counters := by
  induction calls generalizing s t with
  | nil => exact A
  | cons c cs ih => exact ih (A.exec c)

end Agree

/-- **Counters toggle independently.** Fed the same calls (with the same delegate answers), a run
under any flag set keeps every disabled counter at `0`, and two runs under flag sets `F` and `G`
agree on every counter both enable — for `bytesHighTide`, as soon as `F` and `G` also agree on
`bytesAllocated` and `bytesDeallocated`, from which the high tide is computed. -/
theorem counters_toggle_independently (F G : Nat) (mem mem' : Nat → AllocationInfo)
    (calls : List Call) :
    (∀ k, enabled F k.option = false → (run F (init mem) calls).counters k = 0) ∧
    ∀ k, enabled F k.option → enabled G k.option →
      (k = .bytesHighTide → enabled F .bytesAllocated = enabled G .bytesAllocated ∧
        enabled F .bytesDeallocated = enabled G .bytesDeallocated) →
      (run F (init mem) calls).counters k = (run G (init mem') calls).counters k := by
  refine ⟨fun k hk => counter_disabled_run hk _ calls, fun k hF hG ht => ?_⟩
  exact Agree.run (s := init mem) (t := init mem') (fun _ _ _ => rfl) calls k (by rw [hF, hG]) ht

/-- **The high tide is not independent.** `bytesHighTide` "measures the maximum bytes allocated
over the time", `8` after one `allocate(8)`, and under `bytesAllocated | bytesDeallocated |
bytesHighTide` it holds `8`. Under `bytesHighTide` alone the byte counters it is computed from
never move and it stays `0`, although both flag sets enable it. -/
theorem high_tide_depends_on_byte_flags :
    enabled 68608 .bytesHighTide ∧ enabled 65536 .bytesHighTide ∧
      (run 68608 (init fun _ => default) [.allocate 8 0 0 0 0 ⟨4096, 8⟩]).counters .bytesHighTide
        = 8 ∧
      (run 65536 (init fun _ => default) [.allocate 8 0 0 0 0 ⟨4096, 8⟩]).counters .bytesHighTide
        = 0 := by
  decide

/-! ## Counters as running sums -/

/-- The counters `d` are the counters `c` moved by `e`, except possibly the high tide. -/
def Shifted (e c d : Counter → BitVec 64) : Prop :=
  ∀ k, k ≠ .bytesHighTide → d k = c k + e k

namespace Shifted

variable {Flags : Nat} {e c d : Counter → BitVec 64}

theorem add (S : Shifted e c d) (k' : Counter) (x : BitVec 64) :
    Shifted e (add Flags k' x c) (add Flags k' x d) := by
  intro k hk
  unfold AllocatorWithStats.add
  split
  · by_cases h : k = k'
    · subst h; simp only [Function.update_same, S k hk]; ac_rfl
    · simp only [Function.update_noteq h, S k hk]
  · exact S k hk

theorem up (S : Shifted e c d) (k' : Counter) : Shifted e (up Flags k' c) (up Flags k' d) :=
  S.add k' 1

theorem upOK (S : Shifted e c d) (k' : Counter) (ok : Bool) :
    Shifted e (upOK Flags k' ok c) (upOK Flags k' ok d) := by
  rw [upOK_eq, upOK_eq]; split
  · exact S.add k' 1
  · exact S

theorem updateHighTide (S : Shifted e c d) :
    Shifted e (updateHighTide Flags c) (updateHighTide Flags d) := fun k hk => by
  rw [updateHighTide_ne Flags hk, updateHighTide_ne Flags hk]; exact S k hk

theorem reallocated (S : Shifted e c d) (b r : Block) :
    Shifted e (reallocated Flags b r c) (reallocated Flags b r d) := by
  unfold AllocatorWithStats.reallocated; dsimp only
  split_ifs
  · exact ((S.up _).up _ |>.add _ _).add _ _
  · exact ((S.up _).up _ |>.add _ _).add _ _
  · exact ((S.up _ |>.add _ _).add _ _).add _ _

/-- One call moves every counter but the high tide by an amount that does not depend on the
counters it starts from. -/
theorem exec {s t : AllocatorWithStats} (S : Shifted e s.counters t.counters) (c : Call) :
    Shifted e (exec Flags s c).counters (exec Flags t c).counters := by
  cases c with
  | allocate n file function line now r =>
    simp only [AllocatorWithStats.exec, allocate_counters]
    exact ((S.up _ |>.upOK _ _).add _ _).updateHighTide
  | deallocate b =>
    simp only [AllocatorWithStats.exec, deallocate_counters]
    exact (S.up _).add _ _
  | reallocate b n ok r =>
    simp only [AllocatorWithStats.exec, reallocate_counters]
    split
    · exact ((S.up _).reallocated _ _).updateHighTide
    · exact S.up _
  | expand b n ok r =>
    simp only [AllocatorWithStats.exec, expand_counters]
    split
    · exact ((((S.up _).up _).add _ _).add _ _).updateHighTide
    · exact S.up _

theorem run {s t : AllocatorWithStats} (S : Shifted e s.counters t.counters) (calls : List Call) :
    Shifted e (run Flags s calls).counters (run Flags t calls).counters := by
  induction calls generalizing s t with
  | nil => exact S
  | cons c cs ih => exact ih (S.exec c)

end Shifted

/-- **The counters add up over runs.** Under every flag set, every counter but the high tide
after a run `xs ++ ys` is its value after `xs` plus its value after `ys` on a new decorator: what a
run adds to such a counter depends on the run alone, not on the counts it finds. Statistics of
consecutive runs can be summed. The high tide, a running maximum (`high_tide_is_peak`), cannot. -/
theorem counters_append (Flags : Nat) (s : AllocatorWithStats) (mem : Nat → AllocationInfo)
    (xs ys : List Call) {k : Counter} (hk : k ≠ .bytesHighTide) :
    (run Flags s (xs ++ ys)).counters k =
      (run Flags s xs).counters k + (run Flags (init mem) ys).counters k := by
  have S : Shifted (run Flags s xs).counters (init mem).counters (run Flags s xs).counters :=
    fun j _ => (BitVec.zero_add _).symm
  rw [run, List.foldl_append, ← run, ← run, (S.run ys) k hk, BitVec.add_comm]

/-- Under `bytesAllocated | bytesDeallocated`: an `allocate(8)` then a `deallocate` of its block
count `8` and `8`; the two runs' `bytesDeallocated` add up. -/
theorem counters_append_allocate_deallocate :
    Counter.bytesDeallocated ≠ .bytesHighTide ∧
      (run 3072 (init fun _ => default)
          ([.allocate 8 0 0 0 0 ⟨4096, 8⟩] ++ [.deallocate ⟨4096, 8⟩])).counters .bytesDeallocated =
        (run 3072 (init fun _ => default) [.allocate 8 0 0 0 0 ⟨4096, 8⟩]).counters
            .bytesDeallocated +
          (run 3072 (init fun _ => default) [.deallocate ⟨4096, 8⟩]).counters .bytesDeallocated :=
  ⟨by decide, counters_append 3072 _ _ _ _ (by decide)⟩

/-- A counter no member function updates: `numDeallocateAll` counts calls of a `deallocateAll`
the class does not have, and nothing computes `bytesSlack`. -/
theorem exec_unmaintained (Flags : Nat) (s : AllocatorWithStats) (c : Call) {k : Counter}
    (hk : k = .numDeallocateAll ∨ k = .bytesSlack) : (exec Flags s c).counters k = s.counters k := by
  rcases hk with rfl | rfl <;> cases c <;>
    simp (disch := decide) only [exec, allocate_counters, deallocate_counters, reallocate_counters,
      expand_counters, reallocated, ite_apply, updateHighTide_ne, add_ne, upOK_ne, up_ne, ite_self]

/-- **Two documented counters are never maintained.** Under every flag set, whatever the calls and
the delegate's answers, `numDeallocateAll()` ("counts the number of calls to deallocateAll") and
`bytesSlack()` stay `0` on a new decorator: the class has no `deallocateAll`, and no member
function adds to `_bytesSlack`. -/
theorem unmaintained_counters_zero (Flags : Nat) (mem : Nat → AllocationInfo) (calls : List Call) :
    (run Flags (init mem) calls).counters .numDeallocateAll = 0 ∧
      (run Flags (init mem) calls).counters .bytesSlack = 0 := by
  have h : ∀ k, (k = .numDeallocateAll ∨ k = .bytesSlack) → ∀ (s : AllocatorWithStats) calls,
      (run Flags s calls).counters k = s.counters k := by
    intro k hk s calls
    induction calls generalizing s with
    | nil => rfl
    | cons c cs ih => rw [run_cons, ih, exec_unmaintained Flags s c hk]
  exact ⟨h _ (.inl rfl) _ calls, h _ (.inr rfl) _ calls⟩

end AllocatorWithStats

/-! ## The event counters count what their documentation says -/

/-- What the comments of `StatsOptions` say an event counter counts: "the number of calls to
#allocate", "... that succeeded, i.e. they were for more than zero bytes and returned a non-null
block", "... that resulted in an in-place reallocation (no memory moved)", and so on. Written from
the comments, not from the code: a non-null block is a test of the pointer, where the code tests
the block itself (`n > 0 && result`, by `operator bool` a test of the length). `numOwns` counts calls
of `owns`, which is left out, and the byte counters are not counts of calls. -/
def Counter.documented : Counter → Option (Call → Bool)
  | .numAllocate => some fun | .allocate .. => true | _ => false
  | .numAllocateOK => some fun | .allocate n _ _ _ _ r => decide (0 < n) && r.ptr != 0 | _ => false
  | .numExpand => some fun | .expand .. => true | _ => false
  | .numExpandOK => some fun | .expand _ _ ok _ => ok | _ => false
  | .numReallocate => some fun | .reallocate .. => true | _ => false
  | .numReallocateOK => some fun | .reallocate _ _ ok _ => ok | _ => false
  | .numReallocateInPlace => some fun | .reallocate b _ ok r => ok && decide (r.ptr = b.ptr) | _ => false
  | .numDeallocate => some fun | .deallocate _ => true | _ => false
  | .numDeallocateAll => some fun _ => false
  | _ => none

/-- The delegate's answer to an `allocate` keeps the block invariant: null exactly when empty. -/
def Call.AnswerWellFormed : Call → Prop
  | .allocate _ _ _ _ _ r => r.WellFormed
  | _ => True

instance : DecidablePred Call.AnswerWellFormed
  | .allocate _ _ _ _ _ r => inferInstanceAs (Decidable r.WellFormed)
  | .deallocate _ | .reallocate .. | .expand .. => isTrue trivial

namespace AllocatorWithStats

/-- One call moves an enabled event counter by one exactly when the call is one it counts, as soon
as the delegate's answer keeps the block invariant. -/
theorem exec_documented (Flags : Nat) (s : AllocatorWithStats) {c : Call} (hw : c.AnswerWellFormed)
    {k : Counter} {p : Call → Bool} (hk : k.documented = some p) (hen : enabled Flags k.option) :
    (exec Flags s c).counters k = if p c then s.counters k + 1 else s.counters k := by
  cases c <;> simp only [Call.AnswerWellFormed] at hw <;>
    simp only [exec, allocate_counters, deallocate_counters, reallocate_counters, expand_counters,
      reallocated, ite_apply] <;>
    cases k <;> simp only [Counter.documented, Option.some.injEq, reduceCtorEq] at hk <;> subst hk <;>
    simp (disch := first | decide | assumption) only [updateHighTide_ne, add_ne, upOK_ne, up_ne,
      up_self Flags hen, upOK_self Flags hen, Block.WellFormed.toBool_eq, ite_apply, ite_self,
      Bool.and_eq_true, decide_eq_true_eq, ite_and, Bool.false_eq_true, ↓reduceIte]

/-- **The event counters count what their documentation says.** Under every flag set, after every
run on a new decorator in which the delegate's `allocate` answers keep the block invariant, each
enabled event counter holds, modulo `2^64`, the number of calls of the run its `StatsOptions`
comment says it counts: every `allocate`, those for more than zero bytes that returned a non-null
block, every `expand`, the successful ones, every `reallocate`, the successful ones, those in
place, every `deallocate`, and no call for `numDeallocateAll`. -/
theorem event_counters_documented (Flags : Nat) (mem : Nat → AllocationInfo) (calls : List Call)
    (hw : ∀ c ∈ calls, c.AnswerWellFormed) {k : Counter} {p : Call → Bool}
    (hk : k.documented = some p) (hen : enabled Flags k.option) :
    (run Flags (init mem) calls).counters k = BitVec.ofNat 64 (calls.countP p) := by
  suffices h : ∀ s : AllocatorWithStats, (run Flags s calls).counters k =
      s.counters k + BitVec.ofNat 64 (calls.countP p) by
    rw [h]; exact BitVec.zero_add _
  induction calls with
  | nil => intro s; simp
  | cons c cs ih =>
    intro s
    rw [List.forall_mem_cons] at hw
    rw [run_cons, ih hw.2, exec_documented Flags s hw.1 hk hen, List.countP_cons]
    split
    · rw [BitVec.ofNat_add, BitVec.add_assoc]; exact congrArg _ (BitVec.add_comm _ _)
    · rfl

/-- Under `numAllocateOK` alone: of a request for zero bytes, a served `allocate(8)` and a failed
one, only the served one is counted. -/
theorem event_counters_documented_allocate_ok :
    Counter.numAllocateOK.documented =
        some (fun | .allocate n _ _ _ _ r => decide (0 < n) && r.ptr != 0 | _ => false) ∧
      (∀ c ∈ [Call.allocate 0 0 0 0 0 ⟨0, 0⟩, .allocate 8 0 0 0 0 ⟨4096, 8⟩,
        .allocate 8 0 0 0 0 ⟨0, 0⟩], c.AnswerWellFormed) ∧
      enabled 4 Counter.numAllocateOK.option ∧
      (run 4 (init fun _ => default) [.allocate 0 0 0 0 0 ⟨0, 0⟩, .allocate 8 0 0 0 0 ⟨4096, 8⟩,
        .allocate 8 0 0 0 0 ⟨0, 0⟩]).counters .numAllocateOK = 1 :=
  ⟨rfl, by decide, by decide, (event_counters_documented 4 _ _ (by decide) (k := .numAllocateOK) rfl
    (by decide)).trans (by decide)⟩

/-- Where code and comment part: the free list serves a request from a recycled slot with the
block `{nullptr, n}`, which breaks the invariant; the code's test counts it as a success, the
comment's "non-null block" does not. -/
example : (run 4 (init fun _ => default) [.allocate 8 0 0 0 0 ⟨0, 8⟩]).counters .numAllocateOK = 1 ∧
    Counter.numAllocateOK.documented.map ([Call.allocate 8 0 0 0 0 ⟨0, 8⟩].countP ·) = some 0 := by
  decide

end AllocatorWithStats

end AllocatorBuilder
