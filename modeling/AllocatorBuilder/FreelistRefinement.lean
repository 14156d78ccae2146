import AllocatorBuilder.FreelistProgress

/-!
# The two models of the free list agree

The free list is modelled twice: `FreelistBase.allocate` and `FreelistBase.deallocate` run a whole
call as one function over a delegate with state, and `Pc.step` splits it into atomic actions for
the interleaving model. Both are read off the same source lines; this module shows they agree.

`Pc.runAlone` runs one call action by action, with nobody else in between, a delegate `A` serving
its requests (`Pc.serve`). Given enough actions it returns the block `allocate` returns and leaves
the pool and the delegate as `allocate` leaves them (`runAlone_allocate`); the two loops are
matched iteration by iteration (`runAlone_subBlock`, `runAlone_each`). The same holds of
`deallocate` for a delegate that resets the blocks it takes back (`runAlone_deallocate`).

Over whole runs, a single owner's free list is the sequential one. A run is a schedule of actions
(`Runs`); the calls it starts (`Action.call`) and the answers it feeds the delegate's requests
(`answers`) are read off it, the answers replayed by `Delegate.script` and the calls made on the
sequential free list by `session`. `Replays rs cs` is the invariant, with the calls and answers so
far as a history each action extends: between calls, the calls `cs` fed the answers `rs` end at
the state's pool and blocks held; during a call, the call's actions stutter, and when it returns,
it has done what the sequential call fed the same answers does (`Replays.advance`). A step lemma
(`Replays.act`) and a run lemma (`Replays.run`) carry it, so every run of a single owner
that ends between calls ends where the session of its own calls and answers does
(`single_owner_replays_session`).
-/

namespace AllocatorBuilder

namespace Pc

variable (cfg : FreelistConfig) (lower upper : Nat) {σ : Type} (A : Delegate σ)

/-- The delegate's side of an action: it answers the call's request, or takes back the sub-block or
the block the call hands it. -/
def serve (a : σ) (pc : Pc) : σ × Block :=
  match pc with
  | release base i =>
    ((A.deallocate a ⟨FreelistBase.subBlock base upper i, upper⟩).1, Block.empty)
  | forward b => ((A.deallocate a b).1, Block.empty)
  | _ =>
    match pc.request cfg upper with
    | some k => A.allocate a k
    | none => (a, Block.empty)

/-- A call run alone for at most `fuel` actions, the delegate `A` serving it: the block it returns,
the pool and the delegate's state. -/
def runAlone : Nat → Pc → Pool → Finset Nat → σ → Option (Block × Pool × σ)
  | 0, _, _, _, _ => none
  | fuel + 1, pc, pool, live, a =>
    match pc.step cfg lower upper pool live (serve cfg upper A a pc).2 with
    | (.go pc', pool', live') => runAlone fuel pc' pool' live' (serve cfg upper A a pc).1
    | (.ret b, pool', _) => some (b, pool', (serve cfg upper A a pc).1)

/-- **The batch loop.** From sub-block `i`, `pushSubBlocks` with the `N - i` iterations left. -/
theorem runAlone_subBlock (base : Nat) :
    ∀ k i (pool : Pool) (live : Finset Nat) (a : σ) (fuel : Nat),
      cfg.numberOfBatchAllocations - i = k →
      runAlone cfg lower upper A (2 * k + 1 + fuel) (subBlock base i) pool live a =
        some (⟨base, upper⟩, (FreelistBase.pushSubBlocks A base upper i k (a, pool)).2,
          (FreelistBase.pushSubBlocks A base upper i k (a, pool)).1) := by
  intro k
  induction k with
  | zero =>
    intro i pool live a fuel hk
    have hi : ¬ i < cfg.numberOfBatchAllocations := by omega
    rw [show 2 * 0 + 1 + fuel = fuel + 1 by omega, runAlone]
    simp only [step, serve, request, hi, ↓reduceIte, FreelistBase.pushSubBlocks]
  | succ k ih =>
    intro i pool live a fuel hk
    have hi : i < cfg.numberOfBatchAllocations := by omega
    have hk' : cfg.numberOfBatchAllocations - (i + 1) = k := by omega
    cases hp : pool.push (FreelistBase.subBlock base upper i) with
    | some pool' =>
      rw [show 2 * (k + 1) + 1 + fuel = 2 * k + 1 + (fuel + 1) + 1 by omega, runAlone]
      simp only [step, serve, request, hi, hp, ↓reduceIte, ih _ _ _ _ _ hk',
        FreelistBase.pushSubBlocks]
    | none =>
      rw [show 2 * (k + 1) + 1 + fuel = 2 * k + 1 + fuel + 1 + 1 by omega, runAlone]
      simp only [step, serve, request, hi, hp, ↓reduceIte]
      rw [runAlone]
      simp only [step, serve, ih _ _ _ _ _ hk', FreelistBase.pushSubBlocks, hp]

/-- What the per-block strategy returns after its loop: the block that found the pool full, or one
more block from the delegate. -/
def afterEach (r : σ × Pool × Option Block) : Block × Pool × σ :=
  match r with
  | (a, pool, some b) => (b, pool, a)
  | (a, pool, none) => ((A.allocate a upper).2, pool, (A.allocate a upper).1)

/-- **The per-block loop.** From iteration `i`, `allocateEach` with the iterations left, then the
last request. -/
theorem runAlone_each :
    ∀ k i (pool : Pool) (live : Finset Nat) (a : σ) (fuel : Nat),
      FreelistBase.perBlockIterations cfg - i = k →
      runAlone cfg lower upper A (2 * k + 2 + fuel) (each i) pool live a =
        some (afterEach upper A (FreelistBase.allocateEach A upper k (a, pool))) := by
  intro k
  induction k with
  | zero =>
    intro i pool live a fuel hk
    have hi : ¬ i < FreelistBase.perBlockIterations cfg := by omega
    rw [show 2 * 0 + 2 + fuel = fuel + 1 + 1 by omega, runAlone]
    simp only [step, serve, request, hi, ↓reduceIte]
    rw [runAlone]
    simp only [step, serve, request, FreelistBase.allocateEach, afterEach]
  | succ k ih =>
    intro i pool live a fuel hk
    have hi : i < FreelistBase.perBlockIterations cfg := by omega
    have hk' : FreelistBase.perBlockIterations cfg - (i + 1) = k := by omega
    rw [show 2 * (k + 1) + 2 + fuel = 2 * k + 2 + fuel + 1 + 1 by omega, runAlone]
    simp only [step, serve, request, hi, ↓reduceIte]
    rw [runAlone]
    cases hp : pool.push (A.allocate a upper).2.ptr with
    | some pool' =>
      simp only [step, serve, request, hp, ih _ _ _ _ _ hk', FreelistBase.allocateEach]
    | none => simp only [step, serve, request, hp, FreelistBase.allocateEach, afterEach]

/-- The answers an action takes from a script: the next one when the call makes a request. -/
def taken (pc : Pc) (r : Block) : List Block := if (pc.request cfg upper).isSome then [r] else []

/-- An action that makes no request does the same whatever the answer. -/
theorem step_of_request_eq_none {pc : Pc} (h : pc.request cfg upper = none) (pool : Pool)
    (live : Finset Nat) (r r' : Block) :
    pc.step cfg lower upper pool live r = pc.step cfg lower upper pool live r' := by
  cases pc with
  | each i =>
    have hi : ¬ i < FreelistBase.perBlockIterations cfg := by simpa [request] using h
    simp only [step, hi, ↓reduceIte]
  | batch | single => simp [request] at h
  | _ => rfl

theorem serve_script (pc : Pc) (r : Block) (X : List Block) :
    serve cfg upper Delegate.script (taken cfg upper pc r ++ X) pc =
      (X, if (pc.request cfg upper).isSome then r else Block.empty) := by
  cases pc <;> simp [serve, taken, request, Delegate.script]
  split_ifs <;> rfl

/-- **One action on the script.** A call run alone on a script takes the answer `r` if it makes a
request and none otherwise, and goes on from where the action on `r` leaves it. -/
theorem runAlone_script (fuel : Nat) (pc : Pc) (pool : Pool) (live : Finset Nat) (r : Block)
    (X : List Block) :
    runAlone cfg lower upper Delegate.script (fuel + 1) pc pool live (taken cfg upper pc r ++ X) =
      match pc.step cfg lower upper pool live r with
      | (.go pc', pool', live') => runAlone cfg lower upper Delegate.script fuel pc' pool' live' X
      | (.ret b, pool', _) => some (b, pool', X) := by
  have hr : pc.step cfg lower upper pool live
      (if (pc.request cfg upper).isSome then r else Block.empty) =
        pc.step cfg lower upper pool live r := by
    cases h : pc.request cfg upper with
    | some _ => rfl
    | none => exact step_of_request_eq_none cfg lower upper h pool live _ r
  rw [runAlone, serve_script, hr]

end Pc

namespace FreelistBase

variable (cfg : FreelistConfig) {σ : Type} (A : Delegate σ)

/-- **The truncated strategy after a failed pop** is `allocateTruncated`. -/
theorem runAlone_batch (f : FreelistBase σ) (live : Finset Nat) (fuel : Nat) :
    Pc.runAlone cfg f.lowerBound f.upperBound A (2 * cfg.numberOfBatchAllocations + 2 + fuel) .batch
        f.root live f.allocator =
      some ((allocateTruncated cfg A f).2, (allocateTruncated cfg A f).1.root,
        (allocateTruncated cfg A f).1.allocator) := by
  rw [show 2 * cfg.numberOfBatchAllocations + 2 + fuel =
    2 * cfg.numberOfBatchAllocations + 1 + fuel + 1 by omega, Pc.runAlone]
  simp only [Pc.step, Pc.serve, Pc.request, allocateTruncated]
  cases (A.allocate f.allocator (batchRequest cfg f.upperBound)).2.toBool
  · simp only [Bool.false_eq_true, ↓reduceIte]
    rw [show 2 * cfg.numberOfBatchAllocations + 1 + fuel =
      2 * cfg.numberOfBatchAllocations + fuel + 1 by omega, Pc.runAlone]
    simp only [Pc.step, Pc.serve, Pc.request]
  · simp only [↓reduceIte]
    rw [show 2 * cfg.numberOfBatchAllocations + 1 + fuel = 2 * (cfg.numberOfBatchAllocations - 1) + 1 +
      (fuel + 2 * (cfg.numberOfBatchAllocations - (cfg.numberOfBatchAllocations - 1))) by omega,
      Pc.runAlone_subBlock cfg _ _ A _ _ 1 _ _ _ _ rfl]

/-- **The per-block strategy after a failed pop** is `allocatePerBlock`. -/
theorem runAlone_perBlock (f : FreelistBase σ) (live : Finset Nat) (fuel : Nat) :
    Pc.runAlone cfg f.lowerBound f.upperBound A (2 * perBlockIterations cfg + 2 + fuel) (.each 0)
        f.root live f.allocator =
      some ((allocatePerBlock cfg A f).2, (allocatePerBlock cfg A f).1.root,
        (allocatePerBlock cfg A f).1.allocator) := by
  rw [Pc.runAlone_each cfg _ _ A _ 0 _ _ _ _ (Nat.sub_zero _), allocatePerBlock]
  rcases allocateEach A f.upperBound (perBlockIterations cfg) (f.allocator, f.root) with
    ⟨a, pool, _ | b⟩ <;> rfl

/-- `allocate` run alone with at least `2 (N + perBlockIterations) + 4` actions. -/
theorem runAlone_allocate_of_le (f : FreelistBase σ) (n : Nat) (live : Finset Nat) {fuel : Nat}
    (hf : 2 * (cfg.numberOfBatchAllocations + perBlockIterations cfg) + 4 ≤ fuel) :
    Pc.runAlone cfg f.lowerBound f.upperBound A fuel (.allocate n) f.root live f.allocator =
      some ((allocate cfg A f n).2, (allocate cfg A f n).1.root, (allocate cfg A f n).1.allocator) := by
  obtain ⟨fuel, rfl⟩ := Nat.exists_eq_add_of_le hf
  rw [show 2 * (cfg.numberOfBatchAllocations + perBlockIterations cfg) + 4 + fuel =
    2 * (cfg.numberOfBatchAllocations + perBlockIterations cfg) + 3 + fuel + 1 by omega, Pc.runAlone]
  by_cases hb : f.lowerBound ≤ n ∧ n ≤ f.upperBound
  · simp only [Pc.step, Pc.serve, Pc.request, allocate, hb, and_self, ↓reduceIte]
    cases f.root.pop with
    | some x => rfl
    | none =>
      cases cfg.supportsTruncatedDeallocation
      · simp only [Bool.false_eq_true, ↓reduceIte]
        rw [show 2 * (cfg.numberOfBatchAllocations + perBlockIterations cfg) + 3 + fuel =
          2 * perBlockIterations cfg + 2 + (2 * cfg.numberOfBatchAllocations + 1 + fuel) by omega]
        exact runAlone_perBlock cfg A f live _
      · simp only [↓reduceIte]
        rw [show 2 * (cfg.numberOfBatchAllocations + perBlockIterations cfg) + 3 + fuel =
          2 * cfg.numberOfBatchAllocations + 2 + (2 * perBlockIterations cfg + 1 + fuel) by omega]
        exact runAlone_batch cfg A f live _
  · simp only [Pc.step, Pc.serve, Pc.request, allocate, hb, ↓reduceIte]

/-- **Run alone, a call of `allocate` is `FreelistBase.allocate`.** With enough actions, the
interleaving model's call returns the block the sequential model returns and leaves the same pool
and delegate state, for every delegate, bounds and pool. -/
theorem runAlone_allocate (f : FreelistBase σ) (n : Nat) (live : Finset Nat) (fuel : Nat) :
    Pc.runAlone cfg f.lowerBound f.upperBound A
        (2 * (cfg.numberOfBatchAllocations + perBlockIterations cfg) + 4 + fuel) (.allocate n)
        f.root live f.allocator =
      some ((allocate cfg A f n).2, (allocate cfg A f n).1.root, (allocate cfg A f n).1.allocator) :=
  runAlone_allocate_of_le cfg A f n live (Nat.le_add_right _ _)

/-- `deallocate` run alone with at least two actions, for a delegate that resets what it takes
back. -/
theorem runAlone_deallocate_of_le (hA : ∀ a b, (A.deallocate a b).2 = Block.empty)
    (f : FreelistBase σ) (b : Block) (live : Finset Nat) {fuel : Nat} (hf : 2 ≤ fuel) :
    Pc.runAlone cfg f.lowerBound f.upperBound A fuel (.deallocate b) f.root live f.allocator =
      some ((deallocate A f b).2, (deallocate A f b).1.root, (deallocate A f b).1.allocator) := by
  obtain ⟨fuel, rfl⟩ : ∃ k, fuel = k + 2 := ⟨fuel - 2, by omega⟩
  rw [Pc.runAlone]
  simp only [Pc.step, Pc.serve, Pc.request, deallocate, owns]
  split_ifs
  · cases f.root.push b.ptr with
    | some pool => rfl
    | none => simp only [Pc.runAlone, Pc.step, Pc.serve, hA]
  · rfl

/-- **Run alone, a call of `deallocate` is `FreelistBase.deallocate`**, for a delegate that resets
the block it takes back, as the interleaving model has it. -/
theorem runAlone_deallocate (hA : ∀ a b, (A.deallocate a b).2 = Block.empty) (f : FreelistBase σ)
    (b : Block) (live : Finset Nat) (fuel : Nat) :
    Pc.runAlone cfg f.lowerBound f.upperBound A (fuel + 2) (.deallocate b) f.root live
        f.allocator =
      some ((deallocate A f b).2, (deallocate A f b).1.root, (deallocate A f b).1.allocator) :=
  runAlone_deallocate_of_le cfg A hA f b live (Nat.le_add_left 2 fuel)

/-- The bump delegate resets what it takes back; with a full pool of capacity `1`, both models
forward a deallocation of `[24, 32)` to it. -/
theorem runAlone_deallocate_forwarded :
    let cfg : FreelistConfig := ⟨false, false, 1, 2, by decide, by decide⟩
    let f : FreelistBase (Nat × Nat) := ⟨(4096, 0), ⟨[16], 1, by decide⟩, 8, 8⟩
    (∀ a b, (Delegate.bump.deallocate a b).2 = Block.empty) ∧
      Pc.runAlone cfg f.lowerBound f.upperBound Delegate.bump (0 + 2) (.deallocate ⟨24, 8⟩) f.root ∅
          f.allocator =
        some ((deallocate Delegate.bump f ⟨24, 8⟩).2, (deallocate Delegate.bump f ⟨24, 8⟩).1.root,
          (deallocate Delegate.bump f ⟨24, 8⟩).1.allocator) :=
  ⟨fun _ _ => rfl, runAlone_deallocate _ Delegate.bump (fun _ _ => rfl) _ ⟨24, 8⟩ ∅ 0⟩

/-! ## Whole runs of a single owner -/

/-- The program point a call starts at. -/
def Call.pc : Call → Pc
  | .allocate n => .allocate n
  | .deallocate b => .deallocate b

/-- What a caller holds while its call runs: a `deallocate` has given its block up. -/
def Call.giveUp (held : List Block) : Call → List Block
  | .allocate _ => held
  | .deallocate b => held.erase b

/-- A client's calls on the sequential free list in turn: it keeps what each returns and gives up
the block it deallocates. The free list and the blocks held at the end. -/
def session (f : FreelistBase σ) (held : List Block) : List Call → FreelistBase σ × List Block
  | [] => (f, held)
  | c :: cs => session (f.call cfg A c).1 ((f.call cfg A c).2 :: c.giveUp held) cs

theorem session_append_call (f : FreelistBase σ) (held : List Block) (cs : List Call) (c : Call) :
    session cfg A f held (cs ++ [c]) =
      (((session cfg A f held cs).1.call cfg A c).1,
        ((session cfg A f held cs).1.call cfg A c).2 :: c.giveUp (session cfg A f held cs).2) := by
  induction cs generalizing f held with
  | nil => rfl
  | cons _ _ ih => exact ih _ _

/-- Run alone with enough actions, each call is its sequential counterpart. -/
theorem runAlone_call (hA : ∀ a b, (A.deallocate a b).2 = Block.empty) (f : FreelistBase σ)
    (c : Call) (live : Finset Nat) :
    ∃ fuel, Pc.runAlone cfg f.lowerBound f.upperBound A fuel c.pc f.root live f.allocator =
      some ((f.call cfg A c).2, (f.call cfg A c).1.root, (f.call cfg A c).1.allocator) := by
  cases c with
  | allocate n => exact ⟨_, runAlone_allocate_of_le cfg A f n live le_rfl⟩
  | deallocate b => exact ⟨2, runAlone_deallocate_of_le cfg A hA f b live le_rfl⟩

end FreelistBase

namespace FreelistSystem

variable (cfg : FreelistConfig) (lower upper : Nat)

/-- The calls `cs`, fed the answers `rs` and then any `X`, bring a new sequential free list to
`pool` with `X` left, and the client to `held`. -/
def Settled (rs : List Block) (cs : List FreelistBase.Call) (pool : Pool) (held : List Block) :
    Prop :=
  ∀ X, FreelistBase.session cfg Delegate.script (FreelistBase.init cfg (rs ++ X) lower upper) [] cs =
    (⟨X, pool, lower, upper⟩, held)

/-- The call `c`, begun on the pool `p₀` and fed the answers `ps` so far, stands at `pc` with `pool`
and `live`: run on alone with any further answers `Y`, it ends as the sequential call fed
`ps ++ Y` from `p₀`. -/
def Continues (c : FreelistBase.Call) (ps : List Block) (p₀ : Pool) (pc : Pc) (pool : Pool)
    (live : Finset Nat) : Prop :=
  ∀ Y, ∃ fuel, Pc.runAlone cfg lower upper Delegate.script fuel pc pool live Y =
    some (((⟨ps ++ Y, p₀, lower, upper⟩ : FreelistBase (List Block)).call cfg Delegate.script c).2,
      ((⟨ps ++ Y, p₀, lower, upper⟩ : FreelistBase (List Block)).call cfg Delegate.script c).1.root,
      ((⟨ps ++ Y, p₀, lower, upper⟩ : FreelistBase (List Block)).call cfg Delegate.script c).1.allocator)

/-- A state replays the session of the calls `cs` fed the answers `rs`: between calls, those calls
end at its pool and its blocks held; during one, the calls before it do, and the call in progress,
the last of `cs`, has taken the rest of `rs` so far. -/
def Replays (rs : List Block) (cs : List FreelistBase.Call) (s : FreelistSystem) : Prop :=
  (s.calls = [] ∧ Settled cfg lower upper rs cs s.pool s.held) ∨
    ∃ pc c cs₀ rs₀ ps p₀ held₀, s.calls = [pc] ∧ cs = cs₀ ++ [c] ∧ rs = rs₀ ++ ps ∧
      Settled cfg lower upper rs₀ cs₀ p₀ held₀ ∧ s.held = FreelistBase.Call.giveUp held₀ c ∧
      Continues cfg lower upper c ps p₀ pc s.pool s.live

/-- The call an action starts, if it starts one. -/
def Action.call : Action → Option FreelistBase.Call
  | .allocate n => some (.allocate n)
  | .deallocate b => some (.deallocate b)
  | .advance _ _ => none

/-- The answers an action feeds the delegate in `s`: its answer, when it advances a call that makes
a request. -/
def Action.taken (s : FreelistSystem) : Action → List Block
  | .advance i r =>
    match s.calls[i]? with
    | some pc => Pc.taken cfg upper pc r
    | none => []
  | _ => []

/-- The answers a schedule feeds the delegate's requests from `s`, in order. -/
def answers (s : FreelistSystem) : List Action → List Block
  | [] => []
  | a :: as => Action.taken cfg upper s a ++ answers (perform cfg lower upper s a) as

variable {D : Finset Nat → Nat → Block → Prop}

/-- A call started on a replaying state with no call in progress replays, the call recorded. -/
theorem Replays.start {rs : List Block} {cs : List FreelistBase.Call} {s : FreelistSystem}
    (h : Replays cfg lower upper rs cs s) (hq : s.calls = []) (c : FreelistBase.Call) :
    Replays cfg lower upper rs (cs ++ [c]) { s with held := c.giveUp s.held, calls := [c.pc] } := by
  obtain ⟨-, hs⟩ := h.resolve_right fun ⟨_, _, _, _, _, _, _, hc, _⟩ => by simp [hq] at hc
  exact .inr ⟨c.pc, c, cs, rs, [], s.pool, s.held, rfl, rfl, (List.append_nil rs).symm, hs, rfl,
    fun Y => FreelistBase.runAlone_call cfg Delegate.script (fun _ _ => rfl)
      ⟨Y, s.pool, lower, upper⟩ c s.live⟩

/-- An action of the call in progress, its answer recorded: it stutters while the call goes on, and
completes the pending sequential call when it returns. -/
theorem Replays.advance {rs : List Block} {cs : List FreelistBase.Call} {s : FreelistSystem}
    {pc : Pc} (r : Block) (h : Replays cfg lower upper rs cs s) (hq : s.calls = [pc]) :
    Replays cfg lower upper (rs ++ Pc.taken cfg upper pc r) cs
      (s.resume [] [] (pc.step cfg lower upper s.pool s.live r)) := by
  obtain ⟨pc₀, c, cs₀, rs₀, ps, p₀, held₀, hq₀, rfl, rfl, hs, hheld, hcont⟩ :=
    h.resolve_left fun ⟨hc, _⟩ => by simp [hq] at hc
  obtain rfl : pc = pc₀ := List.singleton_inj.1 (hq.symm.trans hq₀)
  have key : ∀ Y, ∃ fuel, Pc.runAlone cfg lower upper Delegate.script (fuel + 1) pc s.pool s.live
      (Pc.taken cfg upper pc r ++ Y) = _ := fun Y => by
    obtain ⟨_ | fuel, hf⟩ := hcont (Pc.taken cfg upper pc r ++ Y)
    · simp [Pc.runAlone] at hf
    · exact ⟨fuel, hf⟩
  simp only [Pc.runAlone_script] at key
  generalize pc.step cfg lower upper s.pool s.live r = x at key ⊢
  obtain ⟨_ | b, pool, live⟩ := x
  · exact .inr ⟨_, c, cs₀, rs₀, ps ++ Pc.taken cfg upper pc r, p₀, held₀, rfl, rfl,
      List.append_assoc .., hs, hheld, fun Y => by simpa only [List.append_assoc] using key Y⟩
  · refine .inl ⟨rfl, fun X => ?_⟩
    obtain ⟨_, hf⟩ := key X
    simp only [Option.some.injEq, Prod.mk.injEq] at hf
    obtain ⟨hb, hp, ha⟩ := hf
    rw [FreelistBase.session_append_call, List.append_assoc, List.append_assoc,
      hs (ps ++ (Pc.taken cfg upper pc r ++ X)), FreelistBase.call_eq, ← hb, ← hp, ← ha]
    simp only [resume, hheld]

/-- **One action of a single owner.** Every enabled action keeps a state replaying, the call it
starts and the answer it takes recorded. -/
theorem Replays.act (hsh : cfg.shared = false) {rs : List Block} {cs : List FreelistBase.Call}
    {s : FreelistSystem} {a : Action} (hen : Enabled cfg upper D s a)
    (h : Replays cfg lower upper rs cs s) :
    Replays cfg lower upper (rs ++ Action.taken cfg upper s a) (cs ++ [a].filterMap Action.call)
      (perform cfg lower upper s a) := by
  cases a with
  | allocate n =>
    have hq : s.calls = [] := by simpa [Enabled, hsh] using hen
    simpa [perform, hq, Action.taken, Action.call] using h.start cfg lower upper hq (.allocate n)
  | deallocate b =>
    have hq : s.calls = [] := by simpa [hsh] using hen.2
    simpa [perform, hq, Action.taken, Action.call] using h.start cfg lower upper hq (.deallocate b)
  | advance i r =>
    obtain ⟨pc, hpc, -⟩ := hen
    obtain ⟨hq, rfl⟩ : s.calls = [pc] ∧ i = 0 := by
      rcases h with ⟨hc, -⟩ | ⟨pc₀, _, _, _, _, _, _, hc, -⟩ <;> rw [hc] at hpc
      · simp at hpc
      · cases i with
        | zero => simpa [hc, eq_comm] using hpc
        | succ i => simp at hpc
    simpa [perform, Action.taken, Action.call, hq] using h.advance cfg lower upper r hq

/-- Every run of a single owner keeps a state replaying, the calls it starts and the answers it
takes recorded. -/
theorem Replays.run (hsh : cfg.shared = false) {acts : List Action} :
    ∀ {rs : List Block} {cs : List FreelistBase.Call} {s : FreelistSystem},
      Runs cfg lower upper D s acts → Replays cfg lower upper rs cs s →
      Replays cfg lower upper (rs ++ answers cfg lower upper s acts)
        (cs ++ acts.filterMap Action.call) (performAll cfg lower upper s acts) := by
  induction acts with
  | nil => intro rs cs s _ h; simpa [answers] using h
  | cons a as ih =>
    intro rs cs s hr h
    have e : (a :: as).filterMap Action.call =
        [a].filterMap Action.call ++ as.filterMap Action.call := by
      rw [← List.filterMap_append]; rfl
    rw [answers, e, ← List.append_assoc, ← List.append_assoc]
    exact ih hr.2 (h.act cfg lower upper hsh hr.1)

/-- **A single owner's free list replays the sequential one.** Single-owner, whatever the bounds,
the strategy and the delegate's answers, every run of a new free list that ends with no call in
progress ends where the sequential `freelist_base` does when a client makes the run's calls, in the
order the run starts them, each run whole as `FreelistBase.allocate` or `FreelistBase.deallocate`
and fed the run's answers, in the order its requests took them: the same pool, the same blocks held,
and every answer used. Every reachable state is reached by such a run (`reflTransGen_iff_runs`):
the interleaving model's atomic actions add no behaviour when nothing interleaves. -/
theorem single_owner_replays_session (hsh : cfg.shared = false) {acts : List Action}
    (h : Runs cfg lower upper D (init cfg) acts)
    (hq : (performAll cfg lower upper (init cfg) acts).calls = []) (X : List Block) :
    FreelistBase.session cfg Delegate.script
        (FreelistBase.init cfg (answers cfg lower upper (init cfg) acts ++ X) lower upper) []
        (acts.filterMap Action.call) =
      (⟨X, (performAll cfg lower upper (init cfg) acts).pool, lower, upper⟩,
        (performAll cfg lower upper (init cfg) acts).held) := by
  have h0 : Replays cfg lower upper [] [] (init cfg) := .inl ⟨rfl, fun _ => rfl⟩
  obtain ⟨-, hs⟩ := (h0.run cfg lower upper hsh h).resolve_right
    fun ⟨_, _, _, _, _, _, _, hc, _⟩ => by simp [hq] at hc
  exact hs X

/-- Single-owner, truncated, `PoolSize = 4`, `N = 2`, bounds `[8, 8]`: one `allocate` fetches the
batch `[16, 32)`, pools `24` and returns `16`, as one sequential `allocate` fed the same batch. -/
theorem single_owner_replays_session_batch :
    let cfg : FreelistConfig := ⟨false, true, 4, 2, by decide, by decide⟩
    let acts : List Action :=
      [.allocate 8, .advance 0 .empty, .advance 0 ⟨16, 16⟩, .advance 0 .empty, .advance 0 .empty]
    cfg.shared = false ∧ Runs cfg 8 8 Answers (init cfg) acts ∧
      (performAll cfg 8 8 (init cfg) acts).calls = [] ∧
      FreelistBase.session cfg Delegate.script
          (FreelistBase.init cfg (answers cfg 8 8 (init cfg) acts ++ []) 8 8) []
          (acts.filterMap Action.call) =
        (⟨[], (performAll cfg 8 8 (init cfg) acts).pool, 8, 8⟩,
          (performAll cfg 8 8 (init cfg) acts).held) := by
  intro cfg acts
  have h : Runs cfg 8 8 Answers (init cfg) acts := by decide
  have hq : (performAll cfg 8 8 (init cfg) acts).calls = [] := by decide
  exact ⟨rfl, h, hq, single_owner_replays_session cfg 8 8 rfl h hq []⟩

end FreelistSystem

end AllocatorBuilder
