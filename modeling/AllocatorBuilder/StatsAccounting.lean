import AllocatorBuilder.Stats
import Mathlib.Data.BitVec
import Mathlib.Tactic.LinearCombination

/-!
# Byte accounting and the high tide

With `bytesAllocated` and `bytesDeallocated` enabled, their `size_t` difference — the value
`updateHighTide` computes — is the total length of the client's live blocks modulo `2^64` after
every admissible run, whatever the delegate answers (`bytes_balance`). Each call moves the live
total and the balance by the same amounts, `Call.added` and `Call.removed` (`Call.bytes_live`,
`balance_exec_eq`); an induction over the run does the rest.

With `bytesHighTide` enabled as well, the high tide is the largest live total seen so far
(`high_tide_is_peak`). This needs the delegate's side of the contract (`Call.Fresh`): the live
blocks stay pairwise disjoint and inside the address space, so their total stays below `2^64`
(`bytes_lt_wordMod`) and the subtraction in `updateHighTide` is exact. The calls that skip
`updateHighTide` — `deallocate`, a failed `reallocate` or `expand` — add nothing to the live total,
so no peak is missed. Outside the contract the high tide need not be the peak, but it is still a
high-water mark: no call lowers it (`highTide_monotone`).

The traffic counters split the same traffic finer. `bytesAllocated` less `bytesExpanded` is the
bytes of the new blocks `allocate` and a moving `reallocate` take, and `bytesDeallocated` less
`bytesContracted` and `bytesMoved` is the bytes `deallocate` hands back, after every run, in the
contract or not (`traffic_split`).
-/

namespace AllocatorBuilder

/-! ## The client's live blocks -/

namespace Call

/-- The bytes a call adds to the client's live blocks. -/
def added : Call → Nat
  | .allocate _ _ _ _ _ r => r.length
  | .deallocate _ => 0
  | .reallocate _ _ ok r | .expand _ _ ok r => if ok then r.length else 0

/-- The bytes a call takes from the client's live blocks. -/
def removed : Call → Nat
  | .allocate .. => 0
  | .deallocate b => b.length
  | .reallocate b _ ok _ | .expand b _ ok _ => if ok then b.length else 0

/-- Whether a call ends in `updateHighTide`: an allocation always, a resize when it succeeds. -/
def updatesHighTide : Call → Bool
  | .allocate .. => true
  | .deallocate _ => false
  | .reallocate _ _ ok _ | .expand _ _ ok _ => ok

/-- Replacing a live (or empty) block by another moves the total by the difference. -/
theorem bytes_replace {L : List Block} {b r : Block} (hb : b ∈ L ∨ b.length = 0) :
    bytes (if r.toBool then r :: L.erase b else L.erase b) + b.length = bytes L + r.length := by
  have h : bytes (L.erase b) + b.length = bytes L := by
    rcases hb with hb | hb
    · exact bytes_erase hb
    · simp [bytes_erase_of_length_zero L hb, hb]
  split
  · rw [bytes_cons]; omega
  · simp_all

/-- An admissible call moves the live total by what it adds and removes. -/
theorem bytes_live {L : List Block} {c : Call} (hc : c.Admissible L) :
    bytes (c.live L) + c.removed = bytes L + c.added := by
  cases c with
  | allocate n file function line now r =>
    simp only [live, removed, added]; split
    · rw [bytes_cons]; omega
    · simp_all
  | deallocate b =>
    rcases hc with hb | hb
    · exact bytes_erase hb
    · simp [live, removed, added, bytes_erase_of_length_zero L hb, hb]
  | reallocate b n ok r | expand b n ok r =>
    cases ok
    · simp [live, removed, added]
    · exact bytes_replace hc.1

/-- A call that skips `updateHighTide` adds nothing. -/
theorem added_of_not_updatesHighTide {c : Call} (h : c.updatesHighTide = false) : c.added = 0 := by
  cases c <;> simp_all [updatesHighTide, added]

/-- The delegate's contract keeps the live blocks disjoint and inside the address space. -/
theorem live_fresh {L : List Block} {c : Call} (hd : PairwiseDisjoint L)
    (hs : ∀ b ∈ L, b.InSpace) (hf : c.Fresh L) :
    PairwiseDisjoint (c.live L) ∧ ∀ b ∈ c.live L, b.InSpace := by
  have erase : ∀ x, PairwiseDisjoint (L.erase x) ∧ ∀ b ∈ L.erase x, b.InSpace :=
    fun x => ⟨hd.sublist (L.erase_sublist x), fun b hb => hs b ((L.erase_sublist x).subset hb)⟩
  have cons : ∀ {r : Block} {M : List Block}, PairwiseDisjoint M → (∀ b ∈ M, b.InSpace) →
      r.InSpace → (∀ b ∈ M, Disjoint r.region b.region) →
      PairwiseDisjoint (r :: M) ∧ ∀ b ∈ r :: M, b.InSpace :=
    fun hM hMs hr hrM => ⟨List.pairwise_cons.mpr ⟨hrM, hM⟩, List.forall_mem_cons.2 ⟨hr, hMs⟩⟩
  cases c with
  | allocate n file function line now r =>
    simp only [live]; split
    · exact cons hd hs hf.1 hf.2
    · exact ⟨hd, hs⟩
  | deallocate b => exact erase b
  | reallocate b n ok r | expand b n ok r =>
    simp only [live]
    split
    · obtain ⟨hr, hrL⟩ := hf ‹_›
      split
      · exact cons (erase b).1 (erase b).2 hr hrL
      · exact erase b
    · exact ⟨hd, hs⟩

theorem bytes_le_peak (L : List Block) (calls : List Call) : bytes L ≤ peak L calls := by
  cases calls <;> simp [peak]

end Call

/-! ## The balance -/

namespace AllocatorWithStats

/-- `bytesAllocated - bytesDeallocated` in `size_t`, as `updateHighTide` computes it. -/
def balance (c : Counter → BitVec 64) : BitVec 64 := c .bytesAllocated - c .bytesDeallocated

@[simp] theorem balance_updateHighTide {Flags : Nat} (c : Counter → BitVec 64) :
    balance (updateHighTide Flags c) = balance c := by
  simp [balance]

/-- Moving a `size_t` difference along a `Nat` equation of totals. -/
theorem ofNat_shift {X : BitVec 64} {L L' a r : Nat} (hl : L' + r = L + a)
    (hb : X = BitVec.ofNat 64 L) : X + BitVec.ofNat 64 a - BitVec.ofNat 64 r = BitVec.ofNat 64 L' := by
  have e := congrArg (BitVec.ofNat 64) hl
  simp only [BitVec.ofNat_add] at e
  rw [hb]; linear_combination -e

section Balance

variable {Flags : Nat} (hA : enabled Flags .bytesAllocated) (hD : enabled Flags .bytesDeallocated)
include hA hD

/-- A successful reallocation moves the balance by the new length less the old one, whether the
block grew or shrank in place or moved. -/
theorem balance_reallocated (b r : Block) (c : Counter → BitVec 64) :
    balance (reallocated Flags b r c) =
      balance c + BitVec.ofNat 64 r.length - BitVec.ofNat 64 b.length := by
  have sA := add_self Flags (k := .bytesAllocated) hA
  have sD := add_self Flags (k := .bytesDeallocated) hD
  unfold reallocated; dsimp only
  split_ifs <;> simp (disch := decide) only [balance, add_ne, up_ne, sA, sD] <;> ring

/-- Every call moves the balance by what it adds to and removes from the live blocks. -/
theorem balance_exec_eq (s : AllocatorWithStats) (c : Call) :
    balance (exec Flags s c).counters =
      balance s.counters + BitVec.ofNat 64 c.added - BitVec.ofNat 64 c.removed := by
  have sA := add_self Flags (k := .bytesAllocated) hA
  have sD := add_self Flags (k := .bytesDeallocated) hD
  cases c with
  | allocate =>
    simp (disch := decide) only [exec, allocate_counters, balance, Call.added, Call.removed,
      updateHighTide_ne, upOK_ne, up_ne, add_ne, sA, BitVec.sub_zero]
    ring
  | deallocate =>
    simp (disch := decide) only [exec, deallocate_counters, balance, Call.added, Call.removed,
      up_ne, add_ne, sD, BitVec.add_zero]
    ring
  | reallocate b n ok r =>
    cases ok
    · simp [exec, reallocate_counters, balance, Call.added, Call.removed]
    · simp only [exec, reallocate_counters, if_true, balance_updateHighTide]
      rw [balance_reallocated hA hD]
      simp (disch := decide) only [balance, Call.added, Call.removed, if_true, up_ne]
  | expand b n ok r =>
    cases ok
    · simp [exec, expand_counters, balance, Call.added, Call.removed]
    · simp (disch := decide) only [exec, expand_counters, if_true, balance, Call.added,
        Call.removed, updateHighTide_ne, up_ne, add_ne, sA]
      ring

/-- **One call keeps the books.** If the balance is the client's live total before an admissible
call, it is the live total after it. -/
theorem balance_exec {s : AllocatorWithStats} {L : List Block} {c : Call}
    (hb : balance s.counters = BitVec.ofNat 64 (bytes L)) (hc : c.Admissible L) :
    balance (exec Flags s c).counters = BitVec.ofNat 64 (bytes (c.live L)) := by
  rw [balance_exec_eq hA hD]
  exact ofNat_shift (Call.bytes_live hc) hb

theorem balance_run {s : AllocatorWithStats} {L : List Block} {calls : List Call}
    (hb : balance s.counters = BitVec.ofNat 64 (bytes L)) (h : Call.Run Call.Admissible L calls) :
    balance (run Flags s calls).counters = BitVec.ofNat 64 (bytes (Call.liveAfter L calls)) := by
  induction calls generalizing s L with
  | nil => exact hb
  | cons c cs ih => exact ih (balance_exec hA hD hb h.1) h.2

/-- **Byte accounting.** After any run in which the client passes only blocks it holds and the
delegate leaves a block alone when it fails, `bytesAllocated() - bytesDeallocated()` in `size_t`
is the total length of the live blocks modulo `2^64`. -/
theorem bytes_balance (mem : Nat → AllocationInfo) (calls : List Call)
    (h : Call.Run Call.Admissible [] calls) :
    let s := run Flags (init mem) calls
    s.counters .bytesAllocated - s.counters .bytesDeallocated =
      BitVec.ofNat 64 (bytes (Call.liveAfter [] calls)) :=
  balance_run hA hD (by simp [balance, init]) h

end Balance

/-- The spec's sequence: allocate(100), allocate(50), deallocate(first), allocate(200). -/
def specSequence : List Call :=
  [.allocate 100 0 0 0 0 ⟨4096, 100⟩, .allocate 50 0 0 0 0 ⟨8192, 50⟩, .deallocate ⟨4096, 100⟩,
    .allocate 200 0 0 0 0 ⟨12288, 200⟩]

theorem bytes_balance_on_spec_sequence :
    let s := run 3072 (init fun _ => default) specSequence
    s.counters .bytesAllocated - s.counters .bytesDeallocated =
      BitVec.ofNat 64 (bytes (Call.liveAfter [] specSequence)) :=
  bytes_balance (by decide) (by decide) _ _ (by decide)

/-! ## The high tide -/

section HighTide

variable {Flags : Nat} (hH : enabled Flags .bytesHighTide)

include hH in
/-- `updateHighTide` raises the high tide to the balance. -/
theorem highTide_updateHighTide (c : Counter → BitVec 64) :
    (updateHighTide Flags c .bytesHighTide).toNat =
      max (c .bytesHighTide).toNat (balance c).toNat := by
  have e : c .bytesAllocated - c .bytesDeallocated = balance c := rfl
  simp only [updateHighTide, hH, if_true, e]
  split_ifs with h
  · rw [Function.update_same]; rw [BitVec.lt_def] at h; omega
  · rw [BitVec.lt_def] at h; omega

include hH in
/-- The high tide after a call: raised to the new balance when the call ends in `updateHighTide`,
untouched otherwise. -/
theorem highTide_exec (s : AllocatorWithStats) (c : Call) :
    ((exec Flags s c).counters .bytesHighTide).toNat =
      if c.updatesHighTide then
        max (s.counters .bytesHighTide).toNat (balance (exec Flags s c).counters).toNat
      else (s.counters .bytesHighTide).toNat := by
  cases c with
  | allocate | deallocate =>
    simp (disch := decide) only [exec, allocate_counters, deallocate_counters, add_ne, upOK_ne,
      up_ne, highTide_updateHighTide hH, balance_updateHighTide, Call.updatesHighTide,
      Bool.false_eq_true, ↓reduceIte]
  | reallocate b n ok r | expand b n ok r =>
    cases ok <;>
    simp (disch := decide) only [exec, reallocate_counters, expand_counters, add_ne, up_ne,
      reallocated_highTide, highTide_updateHighTide hH, balance_updateHighTide,
      Call.updatesHighTide, Bool.false_eq_true, ↓reduceIte]

/-- What a run keeps true, with `P` the largest live total seen so far. -/
structure Tide (s : AllocatorWithStats) (L : List Block) (P : Nat) : Prop where
  balance_eq : balance s.counters = BitVec.ofNat 64 (bytes L)
  disjoint : PairwiseDisjoint L
  inSpace : ∀ b ∈ L, b.InSpace
  highTide_eq : (s.counters .bytesHighTide).toNat = P
  bytes_le : bytes L ≤ P

theorem Tide.init (mem : Nat → AllocationInfo) : Tide (init mem) [] 0 :=
  ⟨by simp [balance, AllocatorWithStats.init], List.Pairwise.nil, by simp, rfl, le_rfl⟩

variable (hA : enabled Flags .bytesAllocated) (hD : enabled Flags .bytesDeallocated)
include hA hD hH

/-- **One call keeps the tide.** A call that ends in `updateHighTide` meets an exact balance, so
it records the new live total if it is a peak; any other call adds nothing. -/
theorem Tide.exec {s : AllocatorWithStats} {L : List Block} {P : Nat} {c : Call}
    (T : Tide s L P) (hc : c.Admissible L) (hf : c.Fresh L) :
    Tide (exec Flags s c) (c.live L) (max P (bytes (c.live L))) := by
  have hb := balance_exec hA hD T.balance_eq hc
  obtain ⟨hd, hs⟩ := Call.live_fresh T.disjoint T.inSpace hf
  have hlt : bytes (c.live L) < 2 ^ 64 := bytes_lt_wordMod hd hs
  refine ⟨hb, hd, hs, ?_, le_max_right _ _⟩
  rw [highTide_exec hH, hb, BitVec.toNat_ofNat, Nat.mod_eq_of_lt hlt, T.highTide_eq]
  split
  · rfl
  · rename_i hu
    have := Call.bytes_live hc
    have := Call.added_of_not_updatesHighTide (by simpa using hu)
    have := T.bytes_le
    omega

theorem Tide.run {s : AllocatorWithStats} {L : List Block} {P : Nat} {calls : List Call}
    (T : Tide s L P) (h : Call.Run (fun L c => c.Admissible L ∧ c.Fresh L) L calls) :
    Tide (run Flags s calls) (Call.liveAfter L calls) (max P (Call.peak L calls)) := by
  induction calls generalizing s L P with
  | nil => simpa [Call.peak, max_eq_left T.bytes_le] using T
  | cons c cs ih =>
    have e : max (max P (bytes (c.live L))) (Call.peak (c.live L) cs) =
        max P (Call.peak L (c :: cs)) := by
      rw [Call.peak, max_assoc, max_eq_right (Call.bytes_le_peak _ cs), ← max_assoc,
        max_eq_left T.bytes_le]
    exact e ▸ ih (T.exec hH hA hD h.1.1 h.1.2) h.2

/-- **The high tide is the peak of live bytes.** After any run that also meets the delegate's
contract, `bytesHighTide()` is the largest live total over the initial state and the state after
each call, and `bytesAllocated - bytesDeallocated` is the live total exactly: it never wraps. -/
theorem high_tide_is_peak (mem : Nat → AllocationInfo) (calls : List Call)
    (h : Call.Run (fun L c => c.Admissible L ∧ c.Fresh L) [] calls) :
    let s := run Flags (init mem) calls
    (s.counters .bytesHighTide).toNat = Call.peak [] calls ∧
      (s.counters .bytesAllocated - s.counters .bytesDeallocated).toNat =
        bytes (Call.liveAfter [] calls) := by
  have T := (Tide.init mem).run hH hA hD h
  refine ⟨by simpa using T.highTide_eq, ?_⟩
  have hlt : bytes (Call.liveAfter [] calls) < 2 ^ 64 := bytes_lt_wordMod T.disjoint T.inSpace
  exact (congrArg BitVec.toNat T.balance_eq).trans (Nat.mod_eq_of_lt hlt)

end HighTide

example : Call.peak [] specSequence = 250 := by decide

theorem high_tide_on_spec_sequence :
    let s := run 68608 (init fun _ => default) specSequence
    (s.counters .bytesHighTide).toNat = Call.peak [] specSequence ∧
      (s.counters .bytesAllocated - s.counters .bytesDeallocated).toNat =
        bytes (Call.liveAfter [] specSequence) :=
  high_tide_is_peak (by decide) (by decide) (by decide) _ _ (by decide)

/-! ### The high tide never goes down -/

/-- `updateHighTide` never lowers the high tide. -/
theorem le_updateHighTide (Flags : Nat) (c : Counter → BitVec 64) :
    (c .bytesHighTide).toNat ≤ (updateHighTide Flags c .bytesHighTide).toNat := by
  unfold updateHighTide; dsimp only
  split_ifs with _ h
  · rw [Function.update_same]; rw [BitVec.lt_def] at h; omega
  all_goals exact le_rfl

theorem highTide_le_exec (Flags : Nat) (s : AllocatorWithStats) (c : Call) :
    (s.counters .bytesHighTide).toNat ≤ ((exec Flags s c).counters .bytesHighTide).toNat := by
  cases c with
  | allocate =>
    rw [exec, allocate_counters]
    refine le_of_eq_of_le ?_ (le_updateHighTide Flags _)
    simp (disch := decide) only [add_ne, upOK_ne, up_ne]
  | deallocate => simp (disch := decide) only [exec, deallocate_counters, add_ne, up_ne, le_refl]
  | reallocate b n ok r =>
    cases ok
    · simp (disch := decide) only [exec, reallocate_counters, up_ne, le_refl, Bool.false_eq_true,
        ↓reduceIte]
    · rw [exec, reallocate_counters, if_pos rfl]
      refine le_of_eq_of_le ?_ (le_updateHighTide Flags _)
      simp (disch := decide) only [reallocated_highTide, up_ne]
  | expand b n ok r =>
    cases ok
    · simp (disch := decide) only [exec, expand_counters, up_ne, le_refl, Bool.false_eq_true,
        ↓reduceIte]
    · rw [exec, expand_counters, if_pos rfl]
      refine le_of_eq_of_le ?_ (le_updateHighTide Flags _)
      simp (disch := decide) only [add_ne, up_ne]

/-- **The high tide never goes down.** Under every flag set, from any state and for every run,
whatever the calls and the delegate's answers, within the contract or not, `bytesHighTide()` at a
later point of the run is at least its value at an earlier one: a high-water mark. -/
theorem highTide_monotone (Flags : Nat) (s : AllocatorWithStats) (xs ys : List Call) :
    ((run Flags s xs).counters .bytesHighTide).toNat ≤
      ((run Flags s (xs ++ ys)).counters .bytesHighTide).toNat := by
  simp only [run, List.foldl_append]
  generalize List.foldl (exec Flags) s xs = t
  induction ys generalizing t with
  | nil => exact le_rfl
  | cons c cs ih => exact (highTide_le_exec Flags t c).trans (ih _)

end AllocatorWithStats

/-! ## Where the traffic goes -/

namespace Call

/-- The bytes of the new blocks a call takes: the block `allocate` returns, and the block a
successful `reallocate` moved to. -/
def newBytes : Call → Nat
  | .allocate _ _ _ _ _ r => r.length
  | .reallocate b _ ok r => if ok && r.ptr != b.ptr then r.length else 0
  | _ => 0

/-- The bytes a call hands back by `deallocate`. -/
def freedBytes : Call → Nat
  | .deallocate b => b.length
  | _ => 0

end Call

namespace AllocatorWithStats

/-- Allocation traffic not due to growth: `bytesAllocated - bytesExpanded`. -/
def freshTraffic (c : Counter → BitVec 64) : BitVec 64 := c .bytesAllocated - c .bytesExpanded

/-- Deallocation traffic not due to shrinking or moving:
`bytesDeallocated - bytesContracted - bytesMoved`. -/
def freedTraffic (c : Counter → BitVec 64) : BitVec 64 :=
  c .bytesDeallocated - c .bytesContracted - c .bytesMoved

/-- A quantity of the counters that every call moves by an amount of its own moves, over a run, by
the sum of the amounts. -/
theorem run_moves {Flags : Nat} {f : (Counter → BitVec 64) → BitVec 64} {g : Call → Nat}
    (hf : ∀ s c, f (exec Flags s c).counters = f s.counters + BitVec.ofNat 64 (g c))
    (s : AllocatorWithStats) (calls : List Call) :
    f (run Flags s calls).counters = f s.counters + BitVec.ofNat 64 (calls.map g).sum := by
  induction calls generalizing s with
  | nil => exact (BitVec.add_zero _).symm
  | cons c cs ih =>
    rw [run_cons, ih, hf, List.map_cons, List.sum_cons, BitVec.ofNat_add, BitVec.add_assoc]

section Traffic

variable {Flags : Nat} (hA : enabled Flags .bytesAllocated) (hE : enabled Flags .bytesExpanded)
include hA hE

/-- A call moves the allocation traffic not due to growth by the new blocks it takes: a growth in
place, by `expand` or `reallocate`, adds the same amount to `bytesAllocated` and `bytesExpanded`. -/
theorem freshTraffic_exec (s : AllocatorWithStats) (c : Call) :
    freshTraffic (exec Flags s c).counters = freshTraffic s.counters + BitVec.ofNat 64 c.newBytes := by
  have sA := add_self Flags (k := .bytesAllocated) hA
  have sE := add_self Flags (k := .bytesExpanded) hE
  cases c with
  | reallocate b n ok r =>
    cases ok
    · simp [exec, reallocate_counters, freshTraffic, Call.newBytes]
    · simp only [exec, reallocate_counters, if_true, freshTraffic, Call.newBytes, Bool.true_and,
        bne_iff_ne, ne_eq, ite_not]
      unfold reallocated; dsimp only
      split_ifs <;> simp (disch := decide) only [updateHighTide_ne, add_ne, up_ne, sA, sE,
        BitVec.add_zero] <;> ring
  | expand b n ok r =>
    cases ok
    · simp [exec, expand_counters, freshTraffic, Call.newBytes]
    · simp (disch := decide) only [exec, expand_counters, if_true, freshTraffic, Call.newBytes,
        updateHighTide_ne, up_ne, add_ne, sA, sE, BitVec.add_zero]
      ring
  | allocate =>
    simp (disch := decide) only [exec, allocate_counters, freshTraffic, Call.newBytes,
      updateHighTide_ne, upOK_ne, up_ne, add_ne, sA]
    ring
  | deallocate =>
    simp (disch := decide) [exec, deallocate_counters, freshTraffic, Call.newBytes]

end Traffic

section Freed

variable {Flags : Nat} (hD : enabled Flags .bytesDeallocated) (hC : enabled Flags .bytesContracted)
  (hM : enabled Flags .bytesMoved)
include hD hC hM

/-- A call moves the deallocation traffic not due to shrinking or moving by what it hands back: a
shrink in place adds the same amount to `bytesDeallocated` and `bytesContracted`, a move the old
length to `bytesDeallocated` and `bytesMoved`. -/
theorem freedTraffic_exec (s : AllocatorWithStats) (c : Call) :
    freedTraffic (exec Flags s c).counters = freedTraffic s.counters + BitVec.ofNat 64 c.freedBytes := by
  have sD := add_self Flags (k := .bytesDeallocated) hD
  have sC := add_self Flags (k := .bytesContracted) hC
  have sM := add_self Flags (k := .bytesMoved) hM
  cases c with
  | reallocate b n ok r =>
    cases ok
    · simp [exec, reallocate_counters, freedTraffic, Call.freedBytes]
    · simp only [exec, reallocate_counters, if_true, freedTraffic, Call.freedBytes]
      unfold reallocated; dsimp only
      split_ifs <;> simp (disch := decide) only [updateHighTide_ne, add_ne, up_ne, sD, sC, sM,
        BitVec.add_zero] <;> ring
  | expand b n ok r =>
    cases ok <;> simp (disch := decide) [exec, expand_counters, freedTraffic, Call.freedBytes]
  | allocate =>
    simp (disch := decide) [exec, allocate_counters, freedTraffic, Call.freedBytes]
  | deallocate =>
    simp (disch := decide) only [exec, deallocate_counters, freedTraffic, Call.freedBytes, up_ne,
      add_ne, sD]
    ring

end Freed

/-- **Where the byte traffic goes.** Under every flag set with the five traffic counters, after
every run on a new decorator, whatever the calls and the delegate's answers, within the contract
or not: `bytesAllocated` is the bytes of the blocks `allocate` returned and `reallocate` moved to,
plus `bytesExpanded`; and `bytesDeallocated` is the bytes handed back by `deallocate`, plus
`bytesContracted`, plus `bytesMoved`, all modulo `2^64`. So `bytesExpanded` counts the growth in
place of `expand` and of `reallocate` alike, by the lengths the delegate left, and a moving
`reallocate` counts its old block as deallocated, whether it grew or shrank. -/
theorem traffic_split {Flags : Nat} (mem : Nat → AllocationInfo) (calls : List Call)
    (hA : enabled Flags .bytesAllocated) (hD : enabled Flags .bytesDeallocated)
    (hE : enabled Flags .bytesExpanded) (hC : enabled Flags .bytesContracted)
    (hM : enabled Flags .bytesMoved) :
    let s := run Flags (init mem) calls
    s.counters .bytesAllocated =
        BitVec.ofNat 64 (calls.map Call.newBytes).sum + s.counters .bytesExpanded ∧
      s.counters .bytesDeallocated =
        BitVec.ofNat 64 (calls.map Call.freedBytes).sum + s.counters .bytesContracted +
          s.counters .bytesMoved := by
  have fa := run_moves (freshTraffic_exec hA hE) (init mem) calls
  have fd := run_moves (freedTraffic_exec hD hC hM) (init mem) calls
  have h0 : ∀ k, (init mem).counters k = 0 := fun _ => rfl
  simp only [freshTraffic, freedTraffic, h0] at fa fd
  rw [sub_self, zero_add] at fa
  rw [sub_self, sub_self, zero_add] at fd
  exact ⟨sub_eq_iff_eq_add.1 fa, (sub_eq_iff_eq_add.1 (sub_eq_iff_eq_add.1 fd)).trans (add_right_comm ..)⟩

/-- An `allocate(8)`, a move to 16 bytes, an `expand` to 32, a shrink in place to 24 and a
`deallocate`. -/
def resizeSequence : List Call :=
  [.allocate 8 0 0 0 0 ⟨4096, 8⟩, .reallocate ⟨4096, 8⟩ 16 true ⟨8192, 16⟩,
    .expand ⟨8192, 16⟩ 16 true ⟨8192, 32⟩, .reallocate ⟨8192, 32⟩ 24 true ⟨8192, 24⟩,
    .deallocate ⟨8192, 24⟩]

/-- Under the five traffic counters, `resizeSequence` takes 24 bytes in new blocks and grows 16 in
place; it hands back 24, shrinks 8 and moves 8. -/
theorem traffic_split_resize_sequence :
    enabled 31744 .bytesAllocated ∧ enabled 31744 .bytesDeallocated ∧
      enabled 31744 .bytesExpanded ∧ enabled 31744 .bytesContracted ∧ enabled 31744 .bytesMoved ∧
      let s := run 31744 (init fun _ => default) resizeSequence
      s.counters .bytesAllocated =
          BitVec.ofNat 64 (resizeSequence.map Call.newBytes).sum + s.counters .bytesExpanded ∧
        s.counters .bytesDeallocated =
          BitVec.ofNat 64 (resizeSequence.map Call.freedBytes).sum + s.counters .bytesContracted +
            s.counters .bytesMoved :=
  ⟨by decide, by decide, by decide, by decide, by decide,
    traffic_split _ _ (by decide) (by decide) (by decide) (by decide) (by decide)⟩

example : (run 31744 (init fun _ => default) resizeSequence).counters .bytesMoved = 8 := by decide

end AllocatorWithStats

end AllocatorBuilder
