import AllocatorBuilder.StatsAllocations

/-!
# The records hold their callers' data

`allocate(n, file, function, line)` fills the record before its block with the caller's data, one
`set` per caller option, before linking it as the new head. Nothing else writes those fields:
`link` and `unlink` write only the links, and a resize that keeps its block in place leaves memory
alone. So, over every run in which the list stays whole, the record of each live block holds, for
each caller option on, what the last `allocate` that returned a block at its address passed
(`records_hold_callers`). Together with `allocations_perm_live`, `allocations()` reports each live
block's caller.

Proof shape: a frame lemma for every write of a link (`writeInfo_callers`), hence for `link` away
from its record and for `unlink` everywhere; one lemma for the record `link` fills
(`link_stamped`); and the invariant `Stamps`, by a step lemma and a run lemma, where the delegate's
contract (`Call.Separate`) keeps a fresh record's address apart from the live ones.
-/

namespace AllocatorBuilder

/-- What a caller passes to `allocate` for its record: the size asked for, the file, function and
line, and the clock's reading. -/
structure Caller where
  /-- `n` -/
  size : Nat
  /-- `file` -/
  file : Nat
  /-- `function` -/
  function : Nat
  /-- `line` -/
  line : Int
  /-- `std::chrono::system_clock::now()` -/
  time : Nat
  deriving DecidableEq, Repr

/-- A record's caller data, links aside. -/
def AllocationInfo.callers (i : AllocationInfo) : Caller :=
  ⟨i.callerSize, i.callerFile, i.callerFunction, i.callerLine, i.callerTime⟩

/-- A record's caller data `r` holds the caller's `a` in each field whose option `Flags` enables. -/
def Caller.Stamped (Flags : Nat) (a r : Caller) : Prop :=
  (enabled Flags .callerSize → r.size = a.size) ∧ (enabled Flags .callerFile → r.file = a.file) ∧
    (enabled Flags .callerFunction → r.function = a.function) ∧
    (enabled Flags .callerLine → r.line = a.line) ∧ (enabled Flags .callerTime → r.time = a.time)

instance (Flags : Nat) (a r : Caller) : Decidable (a.Stamped Flags r) := by
  unfold Caller.Stamped; infer_instance

namespace Call

/-- The caller of the last `allocate` that returned a block at each address, after one more call. -/
def lastCaller (last : Nat → Option Caller) : Call → Nat → Option Caller
  | .allocate n file function line now r =>
    if r.toBool then Function.update last r.ptr (some ⟨n, file, function, line, now⟩) else last
  | _ => last

/-- The caller of the last `allocate` of a run that returned a block at each address. -/
def callersAfter (calls : List Call) : Nat → Option Caller := calls.foldl lastCaller fun _ => none

end Call

namespace AllocatorWithStats

/-! ## Who writes the caller fields -/

theorem writeInfo_same (mem : Nat → AllocationInfo) (p : Nat) (w : AllocationInfo → AllocationInfo) :
    writeInfo mem p w p = w (mem p) :=
  Function.update_same ..

theorem writeInfo_noteq {q p : Nat} (h : q ≠ p) (mem : Nat → AllocationInfo)
    (w : AllocationInfo → AllocationInfo) : writeInfo mem p w q = mem q :=
  Function.update_noteq h ..

/-- A write that keeps a record's caller data keeps every record's. -/
theorem writeInfo_callers {mem : Nat → AllocationInfo} {p : Nat}
    {w : AllocationInfo → AllocationInfo} (hw : ∀ i, (w i).callers = i.callers) (q : Nat) :
    (writeInfo mem p w q).callers = (mem q).callers := by
  by_cases hq : q = p
  · subst hq; rw [writeInfo_same, hw]
  · rw [writeInfo_noteq hq]

@[simp] theorem writeInfo_next_callers (mem : Nat → AllocationInfo) (p x q : Nat) :
    (writeInfo mem p (fun i => { i with next := x }) q).callers = (mem q).callers :=
  writeInfo_callers (w := fun i => { i with next := x }) (fun _ => rfl) q

@[simp] theorem writeInfo_previous_callers (mem : Nat → AllocationInfo) (p x q : Nat) :
    (writeInfo mem p (fun i => { i with previous := x }) q).callers = (mem q).callers :=
  writeInfo_callers (w := fun i => { i with previous := x }) (fun _ => rfl) q

/-- `unlink` writes links only. -/
theorem unlink_callers (s : AllocatorWithStats) (stat p : Nat) :
    ((unlink s stat).mem p).callers = (s.mem p).callers := by
  unfold unlink; dsimp only
  split_ifs <;> simp only [writeInfo_next_callers, writeInfo_previous_callers]

/-- `link` writes the caller fields of its own record only. -/
theorem link_callers_ne (Flags : Nat) (s : AllocatorWithStats) {stat p : Nat} (hp : p ≠ stat)
    (n file function : Nat) (line : Int) (now : Nat) :
    ((link Flags s stat n file function line now).mem p).callers = (s.mem p).callers := by
  unfold link; dsimp only
  split_ifs <;> simp only [writeInfo_next_callers, writeInfo_previous_callers, writeInfo_noteq hp]

/-- The record `link` fills holds the caller's data in each field whose option is on. -/
theorem link_stamped (Flags : Nat) (s : AllocatorWithStats) (stat n file function : Nat) (line : Int)
    (now : Nat) : Caller.Stamped Flags ⟨n, file, function, line, now⟩
      ((link Flags s stat n file function line now).mem stat).callers := by
  unfold link; dsimp only
  split_ifs <;> simp only [writeInfo_next_callers, writeInfo_previous_callers] <;>
    rw [writeInfo_same] <;>
    simp only [AllocationInfo.callers, set, apply_ite AllocationInfo.callerSize,
      apply_ite AllocationInfo.callerFile, apply_ite AllocationInfo.callerFunction,
      apply_ite AllocationInfo.callerLine, apply_ite AllocationInfo.callerTime, ite_self] <;>
    refine ⟨?_, ?_, ?_, ?_, ?_⟩ <;> intro h <;> simp only [h, ↓reduceIte]

/-! ## Over whole runs -/

/-- Every live block's record holds, for each caller option on, the data of the last `allocate`
that returned a block at its address, as `last` records them. -/
def Stamps (Flags : Nat) (s : AllocatorWithStats) (L : List Block) (last : Nat → Option Caller) :
    Prop :=
  ∀ b ∈ L, ∃ a, last b.ptr = some a ∧ a.Stamped Flags (s.mem (prefixOf b)).callers

/-- Writes that keep every record's caller data, and dropping blocks, keep `Stamps`. -/
theorem Stamps.frame {Flags : Nat} {s s' : AllocatorWithStats} {L L' : List Block}
    {last : Nat → Option Caller} (h : Stamps Flags s L last)
    (hm : ∀ p, (s'.mem p).callers = (s.mem p).callers) (hL : ∀ b ∈ L', b ∈ L) :
    Stamps Flags s' L' last := by
  intro b hb
  rw [hm]
  exact h b (hL b hb)

/-- A resize in place keeps the record, and its caller, of the block it resizes. -/
theorem Stamps.replace {Flags : Nat} {s : AllocatorWithStats} {L : List Block}
    {last : Nat → Option Caller} (h : Stamps Flags s L last) {b r : Block}
    (hb : b ∈ L ∨ b.length = 0) (hr : r.ptr = b.ptr) (ht : r.toBool = b.toBool) :
    Stamps Flags s (if r.toBool then r :: L.erase b else L.erase b) last := by
  have herase : Stamps Flags s (L.erase b) last := h.frame (fun _ => rfl) fun _ => List.mem_of_mem_erase
  split
  · rename_i hrt
    have hbL : b ∈ L := hb.resolve_right ((Block.toBool_iff b).1 (ht ▸ hrt))
    refine List.forall_mem_cons.2 ⟨?_, herase⟩
    simpa only [prefixOf, hr] using h b hbL
  · exact herase

/-- **One call keeps the callers.** A call that keeps the list, in a run that meets the contract,
keeps every live block's record holding its caller. -/
theorem Stamps.exec_live (Flags : Nat) (hp : hasPerAllocationState Flags) {s : AllocatorWithStats}
    {L : List Block} {last : Nat → Option Caller} {c : Call} (h : Stamps Flags s L last)
    (ha : c.Admissible L) (hf : c.Separate L) (hk : Keeps s c) :
    Stamps Flags (exec Flags s c) (c.live L) (Call.lastCaller last c) := by
  cases c with
  | allocate n file function line now r =>
    by_cases hok : r.toBool
    · have hn : prefixOf r ∉ L.map prefixOf := prefixOf_not_mem (hf hok)
      simp only [exec, allocate, Call.live, Call.lastCaller, hok, hp, Bool.and_self, ↓reduceIte]
      refine List.forall_mem_cons.2 ⟨⟨_, Function.update_same _ _ _, link_stamped ..⟩, ?_⟩
      intro b hb
      have hpre : prefixOf b ≠ prefixOf r := fun e => hn (e ▸ List.mem_map_of_mem _ hb)
      have hptr : b.ptr ≠ r.ptr := fun e => hpre (by rw [prefixOf, e, prefixOf])
      rw [Function.update_noteq hptr, link_callers_ne Flags _ hpre]
      exact h b hb
    · simp only [exec, allocate, Call.live, Call.lastCaller, hok, Bool.false_and, ↓reduceIte]
      exact h
  | deallocate b =>
    refine h.frame (fun p => ?_) fun c => List.mem_of_mem_erase
    simp only [exec, deallocate]
    split
    · exact unlink_callers ..
    · rfl
  | reallocate b n ok r =>
    cases ok with
    | false => exact h
    | true =>
      obtain ⟨hr, hrt⟩ := hk rfl
      have hm : AffixAllocator.relocate s.mem b r = s.mem := by
        simp [AffixAllocator.relocate, hr]
      simp only [exec, reallocate, hm, ite_self]
      exact h.replace ha.1 hr hrt
  | expand b delta ok r =>
    cases ok with
    | false => exact h
    | true => exact h.replace ha.1 (hk rfl).1 (hk rfl).2

theorem Stamps.run_live (Flags : Nat) (hp : hasPerAllocationState Flags) {s : AllocatorWithStats}
    {L : List Block} {last : Nat → Option Caller} {calls : List Call}
    (h : Stamps Flags s L last) (hc : Call.Run (fun L c => c.Admissible L ∧ c.Separate L) L calls)
    (hk : KeepsAlong Flags s calls) :
    Stamps Flags (run Flags s calls) (Call.liveAfter L calls) (calls.foldl Call.lastCaller last) := by
  induction calls generalizing s L last with
  | nil => exact h
  | cons c cs ih =>
    exact ih (h.exec_live Flags hp hc.1.1 hc.1.2 hk.1) hc.2 hk.2

/-- **The records hold their callers' data.** With per-allocation state on, over every run of a
new decorator in which the client and the delegate keep the contract, records included, and the
list stays whole (the conditions of `allocations_perm_live`), the record before each live block holds, in each
field whose caller option is on, the size, file, function, line and time passed by the last
`allocate` of the run that returned a block at its address: the call that created the block, or
resized it in place since. -/
theorem records_hold_callers (Flags : Nat) (hp : hasPerAllocationState Flags)
    (mem : Nat → AllocationInfo) {calls : List Call}
    (hc : Call.Run (fun L c => c.Admissible L ∧ c.Separate L) [] calls)
    (hk : KeepsAlong Flags (init mem) calls) {b : Block} (hb : b ∈ Call.liveAfter [] calls) :
    ∃ a, Call.callersAfter calls b.ptr = some a ∧
      a.Stamped Flags ((run Flags (init mem) calls).mem (prefixOf b)).callers := by
  have h0 : Stamps Flags (init mem) [] fun _ => none := by simp [Stamps]
  exact Stamps.run_live Flags hp h0 hc hk b hb

/-- Under `callerSize | callerLine`: allocate `8` bytes at line `42` and `16` at line `43`, then
deallocate the first; the second's record holds `16` and `43`. -/
theorem records_hold_callers_second :
    let calls : List Call := [.allocate 8 1 2 42 7 ⟨4096, 8⟩, .allocate 16 1 2 43 9 ⟨8192, 16⟩,
      .deallocate ⟨4096, 8⟩]
    hasPerAllocationState 1179648 ∧ Call.Run (fun L c => c.Admissible L ∧ c.Separate L) [] calls ∧
      KeepsAlong 1179648 (init fun _ => default) calls ∧ ⟨8192, 16⟩ ∈ Call.liveAfter [] calls ∧
      ∃ a, Call.callersAfter calls 8192 = some a ∧
        a.Stamped 1179648 ((run 1179648 (init fun _ => default) calls).mem 8136).callers := by
  intro calls
  have hp : hasPerAllocationState 1179648 := by decide
  have hc : Call.Run (fun L c => c.Admissible L ∧ c.Separate L) [] calls := by decide
  have hk : KeepsAlong 1179648 (init fun _ => default) calls := by decide
  have hb : ⟨8192, 16⟩ ∈ Call.liveAfter [] calls := by decide
  exact ⟨hp, hc, hk, hb, records_hold_callers 1179648 hp _ hc hk hb⟩

example : ((run 1179648 (init fun _ => default) [.allocate 8 1 2 42 7 ⟨4096, 8⟩,
    .allocate 16 1 2 43 9 ⟨8192, 16⟩, .deallocate ⟨4096, 8⟩]).mem 8136).callerLine = 43 := by
  decide

end AllocatorWithStats

end AllocatorBuilder
