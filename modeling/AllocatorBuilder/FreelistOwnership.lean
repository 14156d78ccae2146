import AllocatorBuilder.FreelistShared

/-!
# No block lost, none handed out twice

Every byte the delegate has live should belong to exactly one party: the pool, where each pooled
pointer `p` stands for the slot `[p, p + upper)`; a caller, for the blocks it holds; or a call in
progress, for the blocks in its local variables (`Pc.locals`). `Covers L live` says that the
regions of `L` cover each live address exactly once and nothing else, and `owned s` lists what
every party owns, so the ownership law is `Covers (owned s) s.live`, with no pointer pooled twice.

The law is kept action by action, one lemma per program point (`keeps_allocate` ...
`keeps_forward`), each a small rearrangement of a cover: a block split in two (`Covers.split_iff`),
a fresh answer of the delegate added (`Covers.cons_fresh`), a block handed back removed
(`Covers.remove`). It holds of every reachable state where the code is sound (`Domain`): the
truncated strategy's request `upper * N` does not wrap, and in the per-block strategy the block
size is non-zero and the delegate does not fail (`ownership_of_reachable`). Then, with no call in
progress, the destructor leaves live exactly the blocks callers hold (`destroy_leaves_held`). The
destructor here is the sequential model's `~freelist_base` on the delegate the interleaving model
acts on (`destroy_tracked`).

Outside that domain the law fails: a per-block request the delegate fails pools the null pointer,
a slot of memory nobody has (`per_block_failure_pools_null_slot`).
-/

namespace AllocatorBuilder

/-- The regions of `L` cover each address of `live` exactly once and no other address: `live` is
the disjoint union of the regions of `L`. -/
def Covers (L : List Block) (live : Finset Nat) : Prop :=
  ∀ a, L.countP (fun b => decide (a ∈ b.region)) = if a ∈ live then 1 else 0

namespace Covers

variable {L : List Block} {live : Finset Nat}

theorem perm {L' : List Block} (h : Covers L live) (hp : L.Perm L') : Covers L' live :=
  fun a => (hp.countP_eq _).symm.trans (h a)

/-- A block of length `0` covers nothing. -/
theorem insert_empty_iff (A B : List Block) {b : Block} (hb : b.length = 0) :
    Covers (A ++ b :: B) live ↔ Covers (A ++ B) live := by
  have hb : ∀ a, a ∉ b.region := fun a => by simp [hb]
  simp only [Covers, List.countP_append, List.countP_cons, hb, decide_False, Bool.false_eq_true,
    if_false, add_zero]

/-- A fresh region added to the live memory is covered once by its block. -/
theorem cons_fresh (h : Covers L live) {r : Block} (hd : Disjoint r.region live) :
    Covers (r :: L) (live ∪ r.region) := by
  intro a
  by_cases ha : a ∈ r.region
  · simp only [List.countP_cons, ha, decide_True, if_true, h a, Finset.disjoint_left.1 hd ha,
      if_false, Finset.mem_union, or_true]
  · simp only [List.countP_cons, ha, decide_False, Bool.false_eq_true, if_false, add_zero, h a,
      Finset.mem_union, or_false]

/-- Whatever the delegate answers under its contract is covered once. -/
theorem cons_answer (h : Covers L live) {k : Nat} {r : Block} (hr : Answers live k r) :
    Covers (r :: L) (live ∪ r.region) := by
  rcases hr with rfl | ⟨-, -, -, -, hd⟩
  · simpa [Block.region] using (insert_empty_iff [] L (b := Block.empty) rfl).2 h
  · exact h.cons_fresh hd

/-- A block handed back to the delegate leaves the live memory. -/
theorem remove {b : Block} (h : Covers (b :: L) live) : Covers L (live \ b.region) := by
  intro a
  have hb := h a
  by_cases ha : a ∈ b.region
  · simp only [List.countP_cons, ha, decide_True, if_true] at hb
    simp only [Finset.mem_sdiff, ha, not_true, and_false, if_false]
    split at hb <;> omega
  · simpa only [List.countP_cons, ha, decide_False, Bool.false_eq_true, if_false, add_zero,
      Finset.mem_sdiff, not_false_eq_true, and_true] using hb

/-- A block covers what its two halves cover. -/
theorem split_iff (A B : List Block) {p q len m n : Nat} (hl : len = m + n) (hq : q = p + m) :
    Covers (A ++ ⟨p, len⟩ :: B) live ↔ Covers (A ++ ⟨p, m⟩ :: ⟨q, n⟩ :: B) live := by
  subst hl hq
  have e : ∀ a, (A ++ ⟨p, m + n⟩ :: B).countP (fun b => decide (a ∈ b.region)) =
      (A ++ ⟨p, m⟩ :: ⟨p + m, n⟩ :: B).countP (fun b => decide (a ∈ b.region)) := by
    intro a
    simp only [List.countP_append, List.countP_cons, Block.mem_region, decide_eq_true_eq]
    split_ifs <;> omega
  simp only [Covers, e]

/-- A block on both sides of a cover is empty: a non-empty one would cover its first byte twice. -/
theorem length_eq_zero_of_mem_of_mem {A B : List Block} {b : Block} (h : Covers (A ++ B) live)
    (hA : b ∈ A) (hB : b ∈ B) : b.length = 0 := by
  by_contra hb
  have ha : decide (b.ptr ∈ b.region) = true := by simp; omega
  have h1 : 0 < A.countP (fun c => decide (b.ptr ∈ c.region)) := List.countP_pos_iff.2 ⟨b, hA, ha⟩
  have h2 : 0 < B.countP (fun c => decide (b.ptr ∈ c.region)) := List.countP_pos_iff.2 ⟨b, hB, ha⟩
  have := h b.ptr
  rw [List.countP_append] at this
  split at this <;> omega

end Covers

/-! ## What each party owns -/

/-- The pooled slots: each pointer `p` of the pool stands for `[p, p + upper)`. -/
def pooled (upper : Nat) (pool : Pool) : List Block := pool.slots.map fun p => ⟨p, upper⟩

theorem pooled_eq_cons {upper x : Nat} {p q : Pool} (h : q.slots = x :: p.slots) :
    pooled upper q = ⟨x, upper⟩ :: pooled upper p := by
  rw [pooled, pooled, h, List.map_cons]

/-- A pointer pushed while its slot belongs to the pushing call was not pooled yet. -/
theorem nodup_push {L O : List Block} {live : Finset Nat} {pool : Pool} {x upper : Nat}
    (h : Covers (L ++ (pooled upper pool ++ O)) live) (hx : ⟨x, upper⟩ ∈ L) (hu : 0 < upper)
    (hn : pool.slots.Nodup) : (x :: pool.slots).Nodup := by
  refine List.nodup_cons.2 ⟨fun hm => ?_, hn⟩
  have := h.length_eq_zero_of_mem_of_mem hx (List.mem_append_left _ (List.mem_map_of_mem _ hm))
  exact absurd this hu.ne'

namespace Pc

variable (cfg : FreelistConfig) (upper : Nat)

/-- The blocks a call holds in its local variables: the batch's first sub-block and its part not
pushed yet, the block a loop iteration obtained, the block being deallocated. -/
def locals : Pc → List Block
  | subBlock base i | release base i =>
    [⟨base, upper⟩,
      ⟨FreelistBase.subBlock base upper i, (cfg.numberOfBatchAllocations - i) * upper⟩]
  | pushEach _ b | deallocate b | forward b => [b]
  | _ => []

/-- What the ownership law needs of a call in progress: the strategy it runs and the sizes of the
blocks it holds. -/
def Shaped : Pc → Prop
  | batch => cfg.supportsTruncatedDeallocation = true
  | subBlock _ _ => cfg.supportsTruncatedDeallocation = true ∧ 0 < upper
  | release _ i =>
    cfg.supportsTruncatedDeallocation = true ∧ 0 < upper ∧ i < cfg.numberOfBatchAllocations
  | each _ => cfg.supportsTruncatedDeallocation = false
  | pushEach _ b => cfg.supportsTruncatedDeallocation = false ∧ b.length = upper
  | deallocate b => b.length = 0 ∨ b.length = upper
  | _ => True

end Pc

namespace Next

variable (cfg : FreelistConfig) (upper : Nat)

/-- The blocks a call holds after an action: its locals, or the block it returns. -/
def locals : Next → List Block
  | go pc => pc.locals cfg upper
  | ret b => [b]

/-- A call going on is shaped; a block returned to a caller is empty or of the upper bound's size. -/
def Shaped : Next → Prop
  | go pc => pc.Shaped cfg upper
  | ret b => b.length = 0 ∨ b.length = upper

end Next

/-- Where the ownership law holds: the delegate keeps its contract; the truncated strategy's
request `upper * N` does not wrap; in the per-block strategy the block size is not `0` and the
delegate fails no request. -/
structure Domain (cfg : FreelistConfig) (upper : Nat) (D : Finset Nat → Nat → Block → Prop) :
    Prop where
  answers : ∀ live k r, D live k r → Answers live k r
  truncated :
    cfg.supportsTruncatedDeallocation = true → upper * cfg.numberOfBatchAllocations < wordMod
  perBlock : cfg.supportsTruncatedDeallocation = false →
    0 < upper ∧ ∀ live k r, D live k r → 0 < k → r.toBool

/-- What the ownership law asks of one action of a call: the call's blocks after it, the pool and
the rest `O` cover the live memory, no pointer is pooled twice, and the call is shaped. -/
def Keeps (cfg : FreelistConfig) (upper : Nat) (O : List Block) (nx : Next) (pool : Pool)
    (live : Finset Nat) : Prop :=
  Covers (nx.locals cfg upper ++ (pooled upper pool ++ O)) live ∧ pool.slots.Nodup ∧
    nx.Shaped cfg upper

/-! ## One lemma per program point -/

section Keeps

variable {cfg : FreelistConfig} {lower upper : Nat} {D : Finset Nat → Nat → Block → Prop}
  {pool pool' : Pool} {live live' : Finset Nat} {r : Block} {nx : Next} {O : List Block}

/-- The rest of a batch at sub-block `i < N` splits into sub-block `i` and the rest after it. -/
theorem split_rest (hw : upper * cfg.numberOfBatchAllocations < wordMod) {base i : Nat}
    (hi : i < cfg.numberOfBatchAllocations) (A B : List Block) :
    Covers (A ++ ⟨FreelistBase.subBlock base upper i,
        (cfg.numberOfBatchAllocations - i) * upper⟩ :: B) live ↔
      Covers (A ++ ⟨FreelistBase.subBlock base upper i, upper⟩ ::
        ⟨FreelistBase.subBlock base upper (i + 1),
          (cfg.numberOfBatchAllocations - (i + 1)) * upper⟩ :: B) live := by
  have hb : (i + 1) * upper < wordMod :=
    lt_of_le_of_lt (Nat.mul_le_mul_right _ hi) (Nat.mul_comm upper _ ▸ hw)
  refine Covers.split_iff A B ?_ (FreelistBase.subBlock_succ hb)
  rw [show cfg.numberOfBatchAllocations - i = cfg.numberOfBatchAllocations - (i + 1) + 1 by omega,
    Nat.succ_mul, Nat.add_comm]

theorem keeps_allocate {n : Nat}
    (hc : Covers ((Pc.allocate n).locals cfg upper ++ (pooled upper pool ++ O)) live)
    (hn : pool.slots.Nodup)
    (hx : (Pc.allocate n).step cfg lower upper pool live r = (nx, pool', live')) :
    Keeps cfg upper O nx pool' live' := by
  simp only [Pc.step] at hx
  split at hx
  · split at hx
    · rename_i p q hp
      obtain ⟨hs, -⟩ := Pool.pop_eq_some.1 hp
      cases hx
      rw [pooled_eq_cons hs] at hc
      exact ⟨hc, (List.nodup_cons.1 (hs ▸ hn)).2, Or.inr rfl⟩
    · cases hx
      by_cases ht : cfg.supportsTruncatedDeallocation
      · simp only [ht, ↓reduceIte]; exact ⟨hc, hn, ht⟩
      · simp only [ht, ↓reduceIte]; exact ⟨hc, hn, by simpa using ht⟩
  · cases hx
    exact ⟨(Covers.insert_empty_iff [] _ rfl).2 hc, hn, Or.inl rfl⟩

theorem keeps_batch (hdom : Domain cfg upper D) (hpc : Pc.batch.Shaped cfg upper)
    (hr : ∀ k ∈ Pc.batch.request cfg upper, D live k r)
    (hc : Covers (Pc.batch.locals cfg upper ++ (pooled upper pool ++ O)) live)
    (hn : pool.slots.Nodup) (hx : Pc.batch.step cfg lower upper pool live r = (nx, pool', live')) :
    Keeps cfg upper O nx pool' live' := by
  have hw := hdom.truncated hpc
  simp only [Pc.step] at hx
  split at hx
  · rename_i hb
    cases hx
    obtain ⟨p, len⟩ := r
    rcases hdom.answers _ _ _ (hr _ rfl) with h | ⟨-, hlen, -, -, hd⟩
    · cases h; simp at hb
    · simp only [FreelistBase.batchRequest, Nat.mod_eq_of_lt hw] at hlen
      subst hlen
      obtain ⟨M, hM⟩ : ∃ M, cfg.numberOfBatchAllocations = M + 1 :=
        Nat.exists_eq_succ_of_ne_zero (by rintro h; simp [h] at hb)
      have hu : 0 < upper := Nat.pos_of_ne_zero (by rintro rfl; simp at hb)
      have hq : FreelistBase.subBlock p upper 1 = p + upper :=
        FreelistBase.subBlock_one (lt_of_le_of_lt (Nat.le_mul_of_pos_right _ (hM ▸ M.succ_pos)) hw)
      refine ⟨(Covers.split_iff [] _ ?_ hq).1 (hc.cons_fresh hd), hn, hpc, hu⟩
      rw [hM, Nat.add_sub_cancel, Nat.mul_succ, Nat.mul_comm, Nat.add_comm]
  · cases hx
    exact ⟨hc, hn, trivial⟩

theorem keeps_subBlock (hdom : Domain cfg upper D) {base i : Nat}
    (hpc : (Pc.subBlock base i).Shaped cfg upper)
    (hc : Covers ((Pc.subBlock base i).locals cfg upper ++ (pooled upper pool ++ O)) live)
    (hn : pool.slots.Nodup)
    (hx : (Pc.subBlock base i).step cfg lower upper pool live r = (nx, pool', live')) :
    Keeps cfg upper O nx pool' live' := by
  obtain ⟨ht, hu⟩ := hpc
  simp only [Pc.step] at hx
  split at hx
  · rename_i hi
    have hs := (split_rest (hdom.truncated ht) hi [⟨base, upper⟩] _).1 hc
    split at hx
    · rename_i q hq
      cases hx
      obtain ⟨-, hqs, -⟩ := Pool.push_eq_some.1 hq
      refine ⟨?_, hqs ▸ nodup_push (L := [_, _, _]) hs (by simp) hu hn, ht, hu⟩
      rw [pooled_eq_cons hqs]
      exact hs.perm ((List.Perm.swap _ _ _).cons _)
    · cases hx
      exact ⟨hc, hn, ht, hu, hi⟩
  · rename_i hi
    cases hx
    have h0 : (cfg.numberOfBatchAllocations - i) * upper = 0 := by
      rw [Nat.sub_eq_zero_of_le (Nat.le_of_not_lt hi), Nat.zero_mul]
    exact ⟨(Covers.insert_empty_iff [⟨base, upper⟩] _ h0).1 hc, hn, Or.inr rfl⟩

theorem keeps_release (hdom : Domain cfg upper D) {base i : Nat}
    (hpc : (Pc.release base i).Shaped cfg upper)
    (hc : Covers ((Pc.release base i).locals cfg upper ++ (pooled upper pool ++ O)) live)
    (hn : pool.slots.Nodup)
    (hx : (Pc.release base i).step cfg lower upper pool live r = (nx, pool', live')) :
    Keeps cfg upper O nx pool' live' := by
  obtain ⟨ht, hu, hi⟩ := hpc
  simp only [Pc.step] at hx
  cases hx
  have hs := (split_rest (hdom.truncated ht) hi [⟨base, upper⟩] _).1 hc
  exact ⟨(hs.perm (List.Perm.swap _ _ _)).remove, hn, ht, hu⟩

theorem keeps_single (hdom : Domain cfg upper D)
    (hr : ∀ k ∈ Pc.single.request cfg upper, D live k r)
    (hc : Covers (Pc.single.locals cfg upper ++ (pooled upper pool ++ O)) live)
    (hn : pool.slots.Nodup)
    (hx : Pc.single.step cfg lower upper pool live r = (nx, pool', live')) :
    Keeps cfg upper O nx pool' live' := by
  simp only [Pc.step] at hx
  cases hx
  have ha := hdom.answers _ _ _ (hr _ rfl)
  refine ⟨hc.cons_answer ha, hn, ?_⟩
  rcases ha with rfl | ⟨-, h, -⟩
  · exact Or.inl rfl
  · exact Or.inr h

theorem keeps_each (hdom : Domain cfg upper D) {i : Nat} (hpc : (Pc.each i).Shaped cfg upper)
    (hr : ∀ k ∈ (Pc.each i).request cfg upper, D live k r)
    (hc : Covers ((Pc.each i).locals cfg upper ++ (pooled upper pool ++ O)) live)
    (hn : pool.slots.Nodup)
    (hx : (Pc.each i).step cfg lower upper pool live r = (nx, pool', live')) :
    Keeps cfg upper O nx pool' live' := by
  simp only [Pc.step] at hx
  split at hx
  · rename_i hi
    cases hx
    obtain ⟨hu, hfail⟩ := hdom.perBlock hpc
    have hd := hr upper (by simp [Pc.request, hi])
    have ha := hdom.answers _ _ _ hd
    refine ⟨hc.cons_answer ha, hn, hpc, ?_⟩
    rcases ha with rfl | ⟨-, h, -⟩
    · simpa using hfail _ _ _ hd hu
    · exact h
  · cases hx
    exact ⟨hc, hn, trivial⟩

theorem keeps_pushEach (hdom : Domain cfg upper D) {i : Nat} {b : Block}
    (hpc : (Pc.pushEach i b).Shaped cfg upper)
    (hc : Covers ((Pc.pushEach i b).locals cfg upper ++ (pooled upper pool ++ O)) live)
    (hn : pool.slots.Nodup)
    (hx : (Pc.pushEach i b).step cfg lower upper pool live r = (nx, pool', live')) :
    Keeps cfg upper O nx pool' live' := by
  obtain ⟨ht, hb⟩ := hpc
  obtain ⟨p, len⟩ := b
  obtain rfl : len = upper := hb
  simp only [Pc.step] at hx
  split at hx
  · rename_i q hq
    cases hx
    obtain ⟨-, hqs, -⟩ := Pool.push_eq_some.1 hq
    refine ⟨?_, hqs ▸ nodup_push (L := [_]) hc (by simp) (hdom.perBlock ht).1 hn, ht⟩
    rw [pooled_eq_cons hqs]
    exact hc
  · cases hx
    exact ⟨hc, hn, Or.inr rfl⟩

theorem keeps_deallocate {b : Block} (hpc : (Pc.deallocate b).Shaped cfg upper)
    (hc : Covers ((Pc.deallocate b).locals cfg upper ++ (pooled upper pool ++ O)) live)
    (hn : pool.slots.Nodup)
    (hx : (Pc.deallocate b).step cfg lower upper pool live r = (nx, pool', live')) :
    Keeps cfg upper O nx pool' live' := by
  simp only [Pc.step] at hx
  split at hx
  · rename_i hok
    have hb : b.length ≠ 0 := by
      simp only [Bool.and_eq_true, Block.toBool_iff] at hok
      exact hok.1
    obtain ⟨p, len⟩ := b
    obtain rfl : len = upper := hpc.resolve_left hb
    split at hx
    · rename_i q hq
      cases hx
      obtain ⟨-, hqs, -⟩ := Pool.push_eq_some.1 hq
      refine ⟨?_, hqs ▸ nodup_push (L := [_]) hc (by simp) (Nat.pos_of_ne_zero hb) hn, Or.inl rfl⟩
      rw [pooled_eq_cons hqs]
      exact (Covers.insert_empty_iff [] _ rfl).2 hc
    · cases hx
      exact ⟨hc, hn, trivial⟩
  · cases hx
    exact ⟨hc, hn, hpc⟩

theorem keeps_forward {b : Block}
    (hc : Covers ((Pc.forward b).locals cfg upper ++ (pooled upper pool ++ O)) live)
    (hn : pool.slots.Nodup)
    (hx : (Pc.forward b).step cfg lower upper pool live r = (nx, pool', live')) :
    Keeps cfg upper O nx pool' live' := by
  simp only [Pc.step] at hx
  cases hx
  exact ⟨(Covers.insert_empty_iff [] _ rfl).2 hc.remove, hn, Or.inl rfl⟩

/-- **Every action keeps the ownership law**, whatever the rest `O` of the owners holds. -/
theorem Pc.keeps_step (hdom : Domain cfg upper D) {pc : Pc} (hpc : pc.Shaped cfg upper)
    (hr : ∀ k ∈ pc.request cfg upper, D live k r)
    (hc : Covers (pc.locals cfg upper ++ (pooled upper pool ++ O)) live)
    (hn : pool.slots.Nodup) (hx : pc.step cfg lower upper pool live r = (nx, pool', live')) :
    Keeps cfg upper O nx pool' live' := by
  cases pc with
  | allocate n => exact keeps_allocate hc hn hx
  | batch => exact keeps_batch hdom hpc hr hc hn hx
  | subBlock base i => exact keeps_subBlock hdom hpc hc hn hx
  | release base i => exact keeps_release hdom hpc hc hn hx
  | single => exact keeps_single hdom hr hc hn hx
  | each i => exact keeps_each hdom hpc hr hc hn hx
  | pushEach i b => exact keeps_pushEach hdom hpc hc hn hx
  | deallocate b => exact keeps_deallocate hpc hc hn hx
  | forward b => exact keeps_forward hc hn hx

end Keeps

/-! ## The law over every run -/

namespace FreelistSystem

variable (cfg : FreelistConfig) (lower upper : Nat) (D : Finset Nat → Nat → Block → Prop)

/-- Everything owned: the pooled slots, the callers' blocks, the calls' local blocks. -/
def owned (s : FreelistSystem) : List Block :=
  pooled upper s.pool ++ (s.held ++ s.calls.flatMap (Pc.locals cfg upper))

/-- The ownership law, with the shapes of the held blocks and of the calls that keep it. -/
structure Accounted (s : FreelistSystem) : Prop where
  covers : Covers (owned cfg upper s) s.live
  nodup : s.pool.slots.Nodup
  held : ∀ b ∈ s.held, b.length = 0 ∨ b.length = upper
  calls : ∀ pc ∈ s.calls, pc.Shaped cfg upper

/-- The owners seen from one call: its locals, the pool, and the rest. -/
theorem owned_perm_call {s : FreelistSystem} {pre post : List Pc} {pc : Pc}
    (h : s.calls = pre ++ pc :: post) :
    (owned cfg upper s).Perm (pc.locals cfg upper ++
      (pooled upper s.pool ++ (s.held ++ (pre ++ post).flatMap (Pc.locals cfg upper)))) := by
  rw [owned, h]
  refine List.perm_iff_count.2 fun x => ?_
  simp only [List.count_append, List.flatMap_append, List.flatMap_cons]
  omega

theorem owned_resume (s : FreelistSystem) (pre post : List Pc) (nx : Next) (pool : Pool)
    (live : Finset Nat) :
    (owned cfg upper (s.resume pre post (nx, pool, live))).Perm (nx.locals cfg upper ++
      (pooled upper pool ++ (s.held ++ (pre ++ post).flatMap (Pc.locals cfg upper)))) := by
  refine List.perm_iff_count.2 fun x => ?_
  cases nx <;>
    simp only [owned, resume, Next.locals, List.count_append, List.flatMap_append,
      List.flatMap_cons, List.count_cons, List.count_nil] <;> omega

/-- **Every step keeps the ownership law.** -/
theorem Step.accounted (hdom : Domain cfg upper D) {s s' : FreelistSystem}
    (h : Accounted cfg upper s) (hst : Step cfg lower upper D s s') : Accounted cfg upper s' := by
  cases hst with
  | allocate n _ => exact ⟨h.covers, h.nodup, h.held, List.forall_mem_cons.2 ⟨trivial, h.calls⟩⟩
  | deallocate b hb _ =>
    refine ⟨h.covers.perm (List.perm_iff_count.2 fun x => ?_), h.nodup,
      fun c hc => h.held c (List.mem_of_mem_erase hc), List.forall_mem_cons.2 ⟨h.held b hb, h.calls⟩⟩
    have := (List.perm_cons_erase hb).count_eq x
    simp only [owned, List.count_append, List.flatMap_cons, Pc.locals, List.count_cons,
      List.count_nil] at this ⊢
    omega
  | advance pre post pc r hcalls hr =>
    have hpc : pc.Shaped cfg upper := h.calls pc (by simp [hcalls])
    have hrest : ∀ q ∈ pre ++ post, q.Shaped cfg upper := fun q hq =>
      h.calls q (by rw [hcalls]; simp only [List.mem_append, List.mem_cons] at hq ⊢; tauto)
    generalize hx : pc.step cfg lower upper s.pool s.live r = x
    obtain ⟨nx, pool', live'⟩ := x
    obtain ⟨hc, hn, hsh⟩ := Pc.keeps_step hdom hpc hr
      (h.covers.perm (owned_perm_call cfg upper hcalls)) h.nodup hx
    have hc := hc.perm (owned_resume cfg upper s pre post nx pool' live').symm
    cases nx with
    | go pc' =>
      refine ⟨hc, hn, h.held, fun q hq => ?_⟩
      simp only [resume, List.mem_append, List.mem_cons] at hq
      rcases hq with hq | rfl | hq
      · exact hrest q (List.mem_append_left _ hq)
      · exact hsh
      · exact hrest q (List.mem_append_right _ hq)
    | ret b => exact ⟨hc, hn, List.forall_mem_cons.2 ⟨hsh, h.held⟩, hrest⟩

theorem accounted_of_reachable (hdom : Domain cfg upper D) {s : FreelistSystem}
    (h : Reachable cfg lower upper D s) : Accounted cfg upper s :=
  Reachable.invariant cfg lower upper D
    ⟨fun a => by simp [owned, init, pooled], List.nodup_nil, by simp [init], by simp [init]⟩
    (fun _ _ _ hs hst => hst.accounted cfg lower upper D hdom hs) h

/-- **No block lost, none handed out twice.** Where the code is sound (`Domain`), in every state a
new free list reaches, single-owner or shared, under every interleaving of its callers and every
answer of the delegate, the delegate's live memory is exactly the disjoint union of the pooled
slots, the blocks callers hold and the blocks calls in progress hold, and no pointer is pooled
twice. -/
theorem ownership_of_reachable (hdom : Domain cfg upper D) {s : FreelistSystem}
    (h : Reachable cfg lower upper D s) :
    Covers (owned cfg upper s) s.live ∧ s.pool.slots.Nodup :=
  ⟨(accounted_of_reachable cfg lower upper D hdom h).covers,
    (accounted_of_reachable cfg lower upper D hdom h).nodup⟩

/-- With the defaults `N = 8`, `PoolSize = 1024`, shared, and bounds `[2, 2]`: a first call fetches
the batch `[16, 32)` and pushes sub-block `18`; while it is still pushing, a second caller's
`allocate` pops `18`. -/
theorem ownership_on_defaults :
    let cfg : FreelistConfig := ⟨true, true, 1024, 8, by decide, by decide⟩
    let s := performAll cfg 2 2 (init cfg)
      [.allocate 2, .advance 0 .empty, .advance 0 ⟨16, 16⟩, .advance 0 .empty, .allocate 2,
        .advance 0 .empty]
    Domain cfg 2 Answers ∧ Reachable cfg 2 2 Answers s ∧
      Covers (owned cfg 2 s) s.live ∧ s.pool.slots.Nodup := by
  intro cfg s
  have hdom : Domain cfg 2 Answers :=
    ⟨fun _ _ _ h => h, fun _ => by decide, fun h => absurd h (by decide)⟩
  have hr : Reachable cfg 2 2 Answers s := reachable_performAll cfg 2 2 Answers .refl (by decide)
  exact ⟨hdom, hr, ownership_of_reachable cfg 2 2 Answers hdom hr⟩

/-! ## The destructor -/

/-- `~freelist_base` as the delegate sees it: the slot `[p, p + upper)` of each popped pointer is
handed back. -/
def destroy (s : FreelistSystem) : Finset Nat :=
  s.pool.slots.foldl (fun live p => live \ Block.region ⟨p, upper⟩) s.live

/-- The sequential destructor's loop on the tracked delegate releases the slots one pop at a time,
as `destroy` does, and leaves the script alone. -/
theorem drain_tracked (X : List Block) :
    ∀ (ps : List Nat) (live : Finset Nat), FreelistBase.drain Delegate.tracked upper ps (X, live) =
      (X, ps.foldl (fun live p => live \ Block.region ⟨p, upper⟩) live)
  | [], _ => rfl
  | _ :: ps, _ => drain_tracked X ps _

/-- **The two destructors agree.** `~freelist_base` of the sequential model, run on the
interleaving model's delegate at a state's pool and live memory, leaves the delegate the live
memory `destroy` computes. -/
theorem destroy_tracked (s : FreelistSystem) (X : List Block) :
    FreelistBase.destroy Delegate.tracked ⟨(X, s.live), s.pool, lower, upper⟩ = (X, destroy upper s) :=
  drain_tracked upper X s.pool.slots s.live

theorem covers_drain {L : List Block} (ps : List Nat) {live : Finset Nat}
    (h : Covers (ps.map (fun p => ⟨p, upper⟩) ++ L) live) :
    Covers L (ps.foldl (fun live p => live \ Block.region ⟨p, upper⟩) live) := by
  induction ps generalizing live with
  | nil => simpa using h
  | cons p ps ih => exact ih h.remove

/-- **Nothing leaks.** Where the code is sound, once every call has returned, the destructor
leaves live at the delegate exactly the blocks callers hold. -/
theorem destroy_leaves_held (hdom : Domain cfg upper D) {s : FreelistSystem}
    (h : Reachable cfg lower upper D s) (hc : s.calls = []) : Covers s.held (destroy upper s) :=
  covers_drain upper _ (by simpa [owned, pooled, hc] using (ownership_of_reachable cfg lower upper D hdom h).1)

/-- With the defaults `N = 8`, `PoolSize = 1024` and bounds `[2, 2]`: one `allocate(2)` fetches the
batch `[16, 32)`, pools sub-blocks `1 .. 7` and returns sub-block `0`; the destructor hands the seven
slots back, and `[16, 18)` stays live, held by the caller. -/
theorem destroy_leaves_held_on_defaults :
    let cfg : FreelistConfig := ⟨true, true, 1024, 8, by decide, by decide⟩
    let s := performAll cfg 2 2 (init cfg)
      ([.allocate 2, .advance 0 .empty, .advance 0 ⟨16, 16⟩] ++ List.replicate 8 (.advance 0 .empty))
    Domain cfg 2 Answers ∧ Reachable cfg 2 2 Answers s ∧ s.calls = [] ∧
      Covers s.held (destroy 2 s) := by
  intro cfg s
  have hdom : Domain cfg 2 Answers :=
    ⟨fun _ _ _ h => h, fun _ => by decide, fun h => absurd h (by decide)⟩
  have hr : Reachable cfg 2 2 Answers s := reachable_performAll cfg 2 2 Answers .refl (by decide)
  have hc : s.calls = [] := by decide
  exact ⟨hdom, hr, hc, destroy_leaves_held cfg 2 2 Answers hdom hr hc⟩

/-! ## Outside the domain -/

/-- **A failed request pools a null slot.** Per-block strategy, single owner, `PoolSize = 1`,
`N = 2`, bounds `[8, 8]`. The delegate fails the loop's one request and the code pushes the null
pointer it got; the final request returns `[16, 24)`. The pool now stands for the slot `[0, 8)`,
which the delegate never handed out: address `0` is owned but not live. -/
theorem per_block_failure_pools_null_slot :
    let cfg : FreelistConfig := ⟨false, false, 1, 2, by decide, by decide⟩
    let s := performAll cfg 8 8 (init cfg)
      [.allocate 8, .advance 0 .empty, .advance 0 .empty, .advance 0 .empty, .advance 0 .empty,
        .advance 0 ⟨16, 8⟩]
    Reachable cfg 8 8 Answers s ∧ s.pool.slots = [0] ∧ 0 ∉ s.live ∧
      ¬ Covers (owned cfg 8 s) s.live := by
  intro cfg s
  refine ⟨reachable_performAll cfg 8 8 Answers .refl (by decide), by decide, by decide,
    fun h => absurd (h 0) (by decide)⟩

end FreelistSystem

end AllocatorBuilder
