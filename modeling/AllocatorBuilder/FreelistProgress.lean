import AllocatorBuilder.FreelistShared

/-!
# Every call returns: the free list's work is bounded

The loops of `freelist_base` are counted: the truncated strategy pushes the sub-blocks `1 .. N-1`,
the per-block strategy makes at most `N - 1` requests (`perBlockIterations`), and a pool's `push` and
`pop` never block. So a call takes a bounded number of atomic actions, whatever the other callers
do meanwhile: `Pc.rank` bounds what a call at a program point may still do, its return included,
and each action of the call lowers it (`Pc.rank_step`). Nothing a call waits for is in another
call's hands.

Summed over the calls in progress, the ranks are the outstanding work of a state
(`FreelistSystem.work`): an action of a call lowers it, and starting a call adds the call's rank.
A run is a schedule whose actions are enabled in turn (`Runs`), and every run of the step relation
is one (`reflTransGen_iff_runs`). So in every run, single-owner or shared, under every interleaving
and every answer of the delegate, the calls take no more actions than the outstanding work at the
start plus the rank of each call started: `2 (N - 1) + 3` for an `allocate` of the truncated
strategy, `2 perBlockIterations + 3` for one of the per-block strategy, `2` for a `deallocate`
(`actions_le_work`).

Bounded is not yet returned: a call could be stuck with no action enabled. It never is. From any
state, a call scheduled alone, the delegate answering its requests as its contract allows (failing
them, say), returns within its rank of actions while the other calls stay put
(`call_returns_alone`).
-/

namespace AllocatorBuilder

namespace Pc

variable (cfg : FreelistConfig)

/-- The most atomic actions a call at this point may still take, its return included. An
iteration of either loop takes at most two: the push or the request, and the release of a
sub-block or the push of the block obtained. -/
def rank : Pc → Nat
  | allocate _ =>
    if cfg.supportsTruncatedDeallocation then 2 * (cfg.numberOfBatchAllocations - 1) + 3
    else 2 * FreelistBase.perBlockIterations cfg + 3
  | batch => 2 * (cfg.numberOfBatchAllocations - 1) + 2
  | subBlock _ i => 2 * (cfg.numberOfBatchAllocations - i) + 1
  | release _ i => 2 * (cfg.numberOfBatchAllocations - (i + 1)) + 2
  | single => 1
  | each i => 2 * (FreelistBase.perBlockIterations cfg - i) + 2
  | pushEach i _ => 2 * (FreelistBase.perBlockIterations cfg - (i + 1)) + 3
  | deallocate _ => 2
  | forward _ => 1

variable (lower upper : Nat)

/-- **Every action of a call brings it closer to its return.** Whatever the pool, the delegate's
memory and its answer, a call that goes on after an action stands at a point of lower rank. -/
theorem rank_step {pool : Pool} {live : Finset Nat} {r : Block} {pc pc' : Pc}
    (h : (pc.step cfg lower upper pool live r).1 = .go pc') : pc'.rank cfg < pc.rank cfg := by
  cases pc <;> simp only [step] at h <;> repeat' split at h
  all_goals cases h
  all_goals simp only [rank]; first | omega | (split_ifs; omega)

/-- A call in progress has at least its return to make. -/
theorem rank_pos (pc : Pc) : 0 < pc.rank cfg := by
  cases pc <;> simp only [rank] <;> first | omega | (split <;> omega)

end Pc

namespace FreelistSystem

variable (cfg : FreelistConfig) (lower upper : Nat) (D : Finset Nat → Nat → Block → Prop)

/-- The outstanding work of a state: the most actions its calls in progress may still take. -/
def work (s : FreelistSystem) : Nat := (s.calls.map (Pc.rank cfg)).sum

/-- Whether an action is one of a call, rather than a caller starting one. -/
def Action.isAdvance : Action → Bool
  | .advance _ _ => true
  | _ => false

/-- What an action adds to the outstanding work: the rank of the call it starts. -/
def Action.cost : Action → Nat
  | .allocate n => (Pc.allocate n).rank cfg
  | .deallocate b => (Pc.deallocate b).rank cfg
  | .advance _ _ => 0

/-- A schedule each of whose actions is enabled when its turn comes: a run of the free list. -/
def Runs (s : FreelistSystem) : List Action → Prop
  | [] => True
  | a :: as => Enabled cfg upper D s a ∧ Runs (perform cfg lower upper s a) as

instance Runs.decidable [∀ live k r, Decidable (D live k r)] :
    (s : FreelistSystem) → (acts : List Action) → Decidable (Runs cfg lower upper D s acts)
  | _, [] => isTrue trivial
  | s, a :: as =>
    have := Runs.decidable (perform cfg lower upper s a) as
    inferInstanceAs (Decidable (_ ∧ _))

/-- Every step is an enabled action. -/
theorem Step.exists_action {s s' : FreelistSystem} (h : Step cfg lower upper D s s') :
    ∃ a, Enabled cfg upper D s a ∧ perform cfg lower upper s a = s' := by
  cases h with
  | allocate n hc => exact ⟨.allocate n, hc, rfl⟩
  | deallocate b hb hc => exact ⟨.deallocate b, ⟨hb, hc⟩, rfl⟩
  | advance pre post pc r hcalls hr =>
    have hi : s.calls[pre.length]? = some pc := by
      rw [hcalls, List.getElem?_append_right (le_refl _), Nat.sub_self, List.getElem?_cons_zero]
    refine ⟨.advance pre.length r, ⟨pc, hi, hr⟩, ?_⟩
    simp only [perform, hi]
    rw [hcalls, List.take_left]
    simp [List.drop_append_eq_append_drop, List.drop_eq_nil_of_le (Nat.le_succ pre.length)]

/-- The runs of the step relation are exactly the schedules enabled in turn. -/
theorem reflTransGen_iff_runs {s s' : FreelistSystem} :
    Relation.ReflTransGen (Step cfg lower upper D) s s' ↔
      ∃ acts, Runs cfg lower upper D s acts ∧ performAll cfg lower upper s acts = s' := by
  constructor
  · intro h
    induction h using Relation.ReflTransGen.head_induction_on with
    | refl => exact ⟨[], trivial, rfl⟩
    | head hst _ ih =>
      obtain ⟨acts, hr, rfl⟩ := ih
      obtain ⟨a, ha, rfl⟩ := Step.exists_action cfg lower upper D hst
      exact ⟨a :: acts, ⟨ha, hr⟩, rfl⟩
  · rintro ⟨acts, hr, rfl⟩
    induction acts generalizing s with
    | nil => exact .refl
    | cons a as ih => exact .head (step_perform cfg lower upper D hr.1) (ih hr.2)

/-- One enabled action: a call's action lowers the outstanding work, a start adds its cost. -/
theorem work_perform {s : FreelistSystem} {a : Action} (h : Enabled cfg upper D s a) :
    (if a.isAdvance then 1 else 0) + work cfg (perform cfg lower upper s a) ≤
      work cfg s + a.cost cfg := by
  cases a with
  | allocate n => simp [work, perform, Action.isAdvance, Action.cost]; omega
  | deallocate b => simp [work, perform, Action.isAdvance, Action.cost]; omega
  | advance i r =>
    obtain ⟨pc, hpc, -⟩ := h
    obtain ⟨hi, rfl⟩ := List.getElem?_eq_some_iff.1 hpc
    have hcalls : s.calls = s.calls.take i ++ s.calls[i] :: s.calls.drop (i + 1) := by
      rw [← List.drop_eq_getElem_cons hi, List.take_append_drop]
    have hw : work cfg s = ((s.calls.take i).map (Pc.rank cfg)).sum + s.calls[i].rank cfg +
        ((s.calls.drop (i + 1)).map (Pc.rank cfg)).sum := by
      conv_lhs => rw [work, hcalls]
      simp only [List.map_append, List.map_cons, List.sum_append, List.sum_cons]; omega
    simp only [perform, Option.mem_def.1 hpc, Action.isAdvance, Action.cost, if_true]
    generalize hx : s.calls[i].step cfg lower upper s.pool s.live r = x
    obtain ⟨_ | b, pool, live⟩ := x
    · have := Pc.rank_step cfg lower upper (congrArg Prod.fst hx)
      simp only [resume, work, List.map_append, List.map_cons, List.sum_append,
        List.sum_cons] at hw ⊢
      omega
    · have := Pc.rank_pos cfg s.calls[i]
      simp only [resume, work, List.map_append, List.sum_append] at hw ⊢
      omega

/-- **The calls of a run take a bounded number of actions.** In every run of the free list, from
any state, single-owner or shared, under every interleaving and every answer of the delegate, the
actions the calls take, and the work still outstanding at the end, add up to at most the work
outstanding at the start and the rank of each call started: no call waits on another, and none
loops. -/
theorem actions_le_work {s : FreelistSystem} {acts : List Action}
    (h : Runs cfg lower upper D s acts) :
    acts.countP Action.isAdvance + work cfg (performAll cfg lower upper s acts) ≤
      work cfg s + (acts.map (Action.cost cfg)).sum := by
  induction acts generalizing s with
  | nil => simp [performAll]
  | cons a as ih =>
    have h₁ := work_perform cfg lower upper D h.1
    have h₂ := ih h.2
    simp only [List.countP_cons, List.map_cons, List.sum_cons] at h₂ ⊢
    change _ + work cfg (performAll cfg lower upper (perform cfg lower upper s a) as) ≤ _
    split_ifs at h₁ ⊢ <;> omega

/-- Shared, truncated, `PoolSize = 4`, `N = 2`, bounds `[8, 8]`: two callers allocate at once. The
first fetches the batch `[16, 32)`, pools `24` and returns `16`; the second, whose pop came first,
is refused a batch and falls back to one request. Seven actions against two calls of rank `5`. -/
theorem actions_le_work_two_allocations :
    let cfg : FreelistConfig := ⟨true, true, 4, 2, by decide, by decide⟩
    let acts : List Action := [.allocate 8, .advance 0 .empty, .allocate 8, .advance 1 ⟨16, 16⟩,
      .advance 0 .empty, .advance 1 .empty, .advance 1 .empty, .advance 0 .empty,
      .advance 0 .empty]
    Runs cfg 8 8 Answers (init cfg) acts ∧
      acts.countP Action.isAdvance + work cfg (performAll cfg 8 8 (init cfg) acts) ≤
        work cfg (init cfg) + (acts.map (Action.cost cfg)).sum := by
  intro cfg acts
  have h : Runs cfg 8 8 Answers (init cfg) acts := by decide
  exact ⟨h, actions_le_work cfg 8 8 Answers h⟩

/-- Advancing the call that stands between `pre` and `post` resumes the system there. -/
theorem perform_advance_split {s : FreelistSystem} {pre post : List Pc} {pc : Pc}
    (h : s.calls = pre ++ pc :: post) (r : Block) :
    perform cfg lower upper s (.advance pre.length r) =
      s.resume pre post (pc.step cfg lower upper s.pool s.live r) := by
  simp [perform, h, List.getElem_append_right]

/-- A call scheduled alone between `pre` and `post` returns within its rank of actions; the other
calls keep their places. -/
theorem returns_alone_split (hD : ∀ live k, ∃ r, D live k r) {pre post : List Pc} (n : Nat) :
    ∀ {s : FreelistSystem} {pc : Pc}, pc.rank cfg = n → s.calls = pre ++ pc :: post →
      ∃ rs : List Block, rs.length ≤ n ∧ Runs cfg lower upper D s (rs.map (.advance pre.length)) ∧
        (performAll cfg lower upper s (rs.map (.advance pre.length))).calls = pre ++ post ∧
        ∃ b, (performAll cfg lower upper s (rs.map (.advance pre.length))).held = b :: s.held := by
  induction n using Nat.strong_induction_on with
  | _ n ih =>
  intro s pc hn h
  obtain ⟨r, hr⟩ : ∃ r, ∀ k ∈ pc.request cfg upper, D s.live k r := by
    cases pc.request cfg upper with
    | none => exact ⟨.empty, by simp⟩
    | some k => obtain ⟨r, hr⟩ := hD s.live k; exact ⟨r, by simpa using hr⟩
  have hen : Enabled cfg upper D s (.advance pre.length r) :=
    ⟨pc, by simp [h, List.getElem_append_right], hr⟩
  have hperf := perform_advance_split cfg lower upper h r
  generalize hx : pc.step cfg lower upper s.pool s.live r = x at hperf
  obtain ⟨_ | b, pool, live⟩ := x
  · -- the call goes on at a lower rank, in the same place
    rename_i pc'
    have hlt : pc'.rank cfg < n := hn ▸ Pc.rank_step cfg lower upper (congrArg Prod.fst hx)
    obtain ⟨rs, hl, hrun, hc, b, hb⟩ :=
      ih _ hlt (s := perform cfg lower upper s (.advance pre.length r)) rfl (by rw [hperf]; rfl)
    refine ⟨r :: rs, by simp only [List.length_cons]; omega, ⟨hen, hrun⟩, hc, b, ?_⟩
    change (performAll cfg lower upper (perform cfg lower upper s (.advance pre.length r)) _).held = _
    rw [hb, hperf]
    rfl
  · -- the call returns
    refine ⟨[r], by simpa [← hn] using Pc.rank_pos cfg pc, ⟨hen, trivial⟩, ?_, b, ?_⟩ <;>
      simp only [performAll, List.map_cons, List.map_nil, List.foldl_cons, List.foldl_nil, hperf,
        resume]

/-- **A call run alone returns.** From any state, reachable or not, a call in progress scheduled
alone, the delegate giving each request some answer its contract allows, returns within its rank
of actions, and the other calls stay where they were. Nothing a call waits for is in another
call's hands: with `actions_le_work`, every call of the free list completes in a bounded number
of its own actions. -/
theorem call_returns_alone (hD : ∀ live k, ∃ r, D live k r) {s : FreelistSystem} {i : Nat}
    {pc : Pc} (h : s.calls[i]? = some pc) :
    ∃ rs : List Block, rs.length ≤ pc.rank cfg ∧ Runs cfg lower upper D s (rs.map (.advance i)) ∧
      (performAll cfg lower upper s (rs.map (.advance i))).calls = s.calls.eraseIdx i ∧
      ∃ b, (performAll cfg lower upper s (rs.map (.advance i))).held = b :: s.held := by
  obtain ⟨hi, hpc⟩ := List.getElem?_eq_some_iff.1 h
  have hsplit : s.calls = s.calls.take i ++ pc :: s.calls.drop (i + 1) := by
    rw [← hpc, ← List.drop_eq_getElem_cons hi, List.take_append_drop]
  have hlen : (s.calls.take i).length = i := List.length_take_of_le hi.le
  have h := returns_alone_split cfg lower upper D hD _ rfl hsplit
  rwa [hlen, ← List.eraseIdx_eq_take_drop_succ] at h

/-- Shared, truncated, `PoolSize = 4`, `N = 2`, bounds `[8, 8]`: two callers start `allocate(8)`
and the first stands at its batch request; the second, run alone on failed requests, returns. -/
theorem call_returns_alone_beside_batch :
    let cfg : FreelistConfig := ⟨true, true, 4, 2, by decide, by decide⟩
    let s := performAll cfg 8 8 (init cfg) [.allocate 8, .allocate 8, .advance 0 .empty]
    (∀ live k, ∃ r, Answers live k r) ∧ s.calls[1]? = some (.allocate 8) ∧
      ∃ rs : List Block, rs.length ≤ (Pc.allocate 8).rank cfg ∧
        Runs cfg 8 8 Answers s (rs.map (.advance 1)) ∧
        (performAll cfg 8 8 s (rs.map (.advance 1))).calls = s.calls.eraseIdx 1 ∧
        ∃ b, (performAll cfg 8 8 s (rs.map (.advance 1))).held = b :: s.held := by
  intro cfg s
  have hD : ∀ live k, ∃ r, Answers live k r := fun _ _ => ⟨.empty, .inl rfl⟩
  have h : s.calls[1]? = some (.allocate 8) := rfl
  exact ⟨hD, h, call_returns_alone cfg 8 8 Answers hD h⟩

end FreelistSystem

end AllocatorBuilder
