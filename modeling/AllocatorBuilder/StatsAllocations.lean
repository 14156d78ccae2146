import AllocatorBuilder.Stats

/-!
# The per-allocation records

With per-allocation state on, `AllocatorWithStats` keeps one `AllocationInfo` before each block and
threads them into a doubly linked list from `_root`: `allocate` links the new record as the head
(`previous` points to newer records, `next` to older ones), `deallocate` unlinks a record, and
`allocations()` walks `next` from `_root`.

`Linked mem back p nodes` says that the walk from `p` meets exactly `nodes` and stops at null, each
record's `previous` pointing at the one before (`back` for the first). The spec's invariant is
`Linked mem 0 _root (prefixes of the live blocks)`: allocating links a fresh record as the head and
keeps it (`allocate_linked`). Unlinking keeps it for a record with a predecessor
(`deallocate_linked`), but not for the head: there the code sets `_root = stat->previous`, which
is null for the head, so a list of two or more records loses all of them
(`deallocate_head_empties_list`). And `reallocate` does not touch the list at all, so a
block that moves leaves `_root` or its neighbours pointing at its old, released record
(`reallocate_move_leaves_stale_record`).

Without per-allocation state none of this happens: a run never writes the memory around the
blocks and `_root` stays where it was (`run_keeps_memory`).

The memory is a map from addresses to whole records, so two records the model keeps apart could
overlap in real memory if their blocks were less than a record apart. Over whole runs the
delegate's contract therefore asks more than disjoint blocks: each block handed out, with the
record before it, overlaps no other live block or record (`Call.Separate`).

Over whole runs these two are the only breaks. `Tracks s L` says the list is well formed and holds
one record per live block of `L`, at its prefix; `Keeps` rules out, in the state a call finds, a
head removal from two or more records and a resize that moves its block. Every other call of a
run that meets the contract keeps `Tracks` (`Tracks.exec_live`), so the list stays well formed and
`allocations()` enumerates exactly the live blocks' records, in some order
(`allocations_perm_live`): an in-place resize
keeps its record where it was while the client's newest-first list moves the block to the front.
Without resizes the order is the spec's too, newest first (`allocations_newest_first`).
-/

namespace AllocatorBuilder

namespace AllocatorWithStats

/-- The walk `allocations()` makes: follow `next` from `p`, for at most `fuel` records. -/
def walk (mem : Nat → AllocationInfo) : Nat → Nat → List Nat
  | 0, _ => []
  | fuel + 1, p => if p = 0 then [] else p :: walk mem fuel (mem p).next

/-- The records `allocations()` enumerates, for at most `fuel` of them. -/
def allocations (s : AllocatorWithStats) (fuel : Nat) : List Nat := walk s.mem fuel s.root

/-- A well-formed, null-terminated doubly linked segment: from `p`, `next` visits exactly `nodes`,
and each record's `previous` is the record before it, `back` for the first. -/
inductive Linked (mem : Nat → AllocationInfo) : Nat → Nat → List Nat → Prop
  | null (back : Nat) : Linked mem back 0 []
  | node {back p : Nat} {nodes : List Nat} : p ≠ 0 → (mem p).previous = back →
      Linked mem p (mem p).next nodes → Linked mem back p (p :: nodes)

/-- Once the segment is well formed, `allocations()` enumerates exactly its records. -/
theorem Linked.walk_eq {mem : Nat → AllocationInfo} {back p : Nat} {nodes : List Nat}
    (h : Linked mem back p nodes) : ∀ fuel, nodes.length ≤ fuel → walk mem fuel p = nodes := by
  induction h with
  | null => intro fuel _; cases fuel <;> simp [walk]
  | node hp _ _ ih =>
    intro fuel hf
    obtain ⟨fuel, rfl⟩ : ∃ f, fuel = f + 1 := ⟨fuel - 1, by simp at hf; omega⟩
    simp only [walk, hp, if_false, List.cons.injEq, true_and]
    exact ih fuel (by simpa using hf)

/-- Records off the segment may change without breaking it. -/
theorem Linked.frame {mem mem' : Nat → AllocationInfo} {back p : Nat} {nodes : List Nat}
    (h : Linked mem back p nodes) (hf : ∀ q ∈ nodes, mem' q = mem q) :
    Linked mem' back p nodes := by
  induction h with
  | null => exact .null _
  | node hp hb _ ih =>
    have e := hf _ (List.mem_cons_self _ _)
    exact .node hp (e ▸ hb) (e ▸ ih fun q hq => hf q (List.mem_cons_of_mem _ hq))

theorem Linked.eq_nil {mem : Nat → AllocationInfo} {back : Nat} {nodes : List Nat}
    (h : Linked mem back 0 nodes) : nodes = [] := by
  cases h with
  | null => rfl
  | node hp => exact absurd rfl hp

theorem Linked.eq_cons {mem : Nat → AllocationInfo} {back p : Nat} {nodes : List Nat}
    (h : Linked mem back p nodes) (hp : p ≠ 0) :
    ∃ rest, nodes = p :: rest ∧ (mem p).previous = back ∧ Linked mem p (mem p).next rest := by
  cases h with
  | null => exact absurd rfl hp
  | node _ hb hrest => exact ⟨_, rfl, hb, hrest⟩

theorem Linked.cons_iff {mem : Nat → AllocationInfo} {back p q : Nat} {rest : List Nat} :
    Linked mem back p (q :: rest) ↔
      p = q ∧ q ≠ 0 ∧ (mem q).previous = back ∧ Linked mem q (mem q).next rest := by
  constructor
  · rintro (_ | ⟨hq, hb, hr⟩)
    exact ⟨rfl, hq, hb, hr⟩
  · rintro ⟨rfl, hq, hb, hr⟩
    exact .node hq hb hr

theorem Linked.nil_iff {mem : Nat → AllocationInfo} {back p : Nat} :
    Linked mem back p [] ↔ p = 0 :=
  ⟨fun h => by cases h; rfl, fun h => h ▸ .null back⟩

/-- Consecutive records of a well-formed segment point at each other. -/
theorem Linked.adjacent {mem : Nat → AllocationInfo} {x y : Nat} {post : List Nat} :
    ∀ {pre : List Nat} {back p : Nat}, Linked mem back p (pre ++ x :: y :: post) →
      (mem x).next = y ∧ (mem y).previous = x
  | [], _, _, h => by
    obtain ⟨rfl, -, -, h⟩ := Linked.cons_iff.1 h
    obtain ⟨e, -, hy, -⟩ := Linked.cons_iff.1 h
    exact ⟨e, hy⟩
  | _ :: _, _, _, h => Linked.adjacent (Linked.cons_iff.1 h).2.2.2

/-- The record after `stat` is the first of those that follow it, or null. -/
theorem Linked.next_mem {mem : Nat → AllocationInfo} {stat : Nat} {post : List Nat} :
    ∀ {pre : List Nat} {back p : Nat}, Linked mem back p (pre ++ stat :: post) →
      (mem stat).next = 0 ∨ (mem stat).next ∈ post
  | [], _, _, h => by
    obtain ⟨rfl, -, -, h⟩ := Linked.cons_iff.1 h
    cases post with
    | nil => exact .inl (Linked.nil_iff.1 h)
    | cons z post => exact .inr ((Linked.cons_iff.1 h).1 ▸ List.mem_cons_self _ _)
  | _ :: _, _, _, h => Linked.next_mem (Linked.cons_iff.1 h).2.2.2

/-- **Splicing a record out.** Once `x`'s `next` skips `stat` and the record after `stat` points
back at `x`, nothing else changed, a segment through `x` and `stat` is the same segment without
`stat`. -/
theorem Linked.splice {mem mem' : Nat → AllocationInfo} {x stat : Nat} {post : List Nat}
    (hx : mem' x = { mem x with next := (mem stat).next })
    (hz : (mem stat).next ≠ 0 → mem' (mem stat).next = { mem (mem stat).next with previous := x })
    (hf : ∀ q, q ≠ x → q ≠ (mem stat).next → mem' q = mem q) :
    ∀ {pre : List Nat} {back p : Nat}, (pre ++ x :: stat :: post).Nodup →
      Linked mem back p (pre ++ x :: stat :: post) → Linked mem' back p (pre ++ x :: post)
  | [], _, _, hnd, h => by
    obtain ⟨rfl, hx0, hxb, h⟩ := Linked.cons_iff.1 h
    obtain ⟨-, -, -, h⟩ := Linked.cons_iff.1 h
    refine .node hx0 (by rw [hx]; exact hxb) ?_
    rw [hx]
    cases post with
    | nil => exact Linked.nil_iff.1 h ▸ .null _
    | cons z post =>
      obtain ⟨hz', hz0, -, h⟩ := Linked.cons_iff.1 h
      subst hz'
      simp only [List.nil_append, List.nodup_cons, List.mem_cons, not_or] at hnd
      refine .node hz0 (by rw [hz hz0]) ?_
      rw [hz hz0]
      exact h.frame fun q hq => hf q (fun e => hnd.1.2.2 (e ▸ hq))
        (fun e => hnd.2.2.1 (e ▸ hq))
  | y :: pre, back, p, hnd, h => by
    obtain ⟨rfl, hy0, hyb, h⟩ := Linked.cons_iff.1 h
    rw [List.cons_append, List.nodup_cons] at hnd
    have hseg : Linked mem p (mem p).next ((pre ++ [x]) ++ stat :: post) := by simpa using h
    have hyz : p ≠ (mem stat).next := by
      rcases hseg.next_mem with e | e
      · rw [e]; exact hy0
      · rintro rfl; exact hnd.1 (by simp [e])
    have e := hf p (fun e => hnd.1 (by simp [e])) hyz
    exact .node hy0 (e ▸ hyb) (e ▸ Linked.splice hx hz hf hnd.2 h)

/-- **Linking keeps the list.** A record `stat`, non-null and not in the well-formed list from
`_root`, becomes the head of a well-formed list with the old records after it. -/
theorem link_linked (Flags : Nat) {mem : Nat → AllocationInfo} {root : Nat} {nodes : List Nat}
    (h : Linked mem 0 root nodes) (hnd : nodes.Nodup) {stat : Nat} (hs : stat ≠ 0)
    (hn : stat ∉ nodes) (c : Counter → BitVec 64) (n file function : Nat) (line : Int) (now : Nat) :
    Linked (link Flags ⟨root, c, mem⟩ stat n file function line now).mem 0
      (link Flags ⟨root, c, mem⟩ stat n file function line now).root (stat :: nodes) := by
  unfold link
  split
  · rename_i hr
    obtain ⟨rest, rfl, -, hrest⟩ := h.eq_cons hr
    have hne : root ≠ stat := fun e => hn (e ▸ List.mem_cons_self _ _)
    refine .node hs (by simp [writeInfo]) ?_
    simp only [writeInfo, Function.update_same]
    refine .node hr (by simp [Function.update_noteq hne]) ?_
    simp only [Function.update_noteq hne, Function.update_same]
    refine hrest.frame fun q hq => ?_
    have hqs : q ≠ stat := fun e => hn (e ▸ List.mem_cons_of_mem _ hq)
    have hqr : q ≠ root := fun e => (List.nodup_cons.1 hnd).1 (e ▸ hq)
    simp [Function.update_noteq hqs, Function.update_noteq hqr]
  · rename_i hr
    obtain rfl : root = 0 := not_not.1 hr
    obtain rfl := h.eq_nil
    exact .node hs (by simp [writeInfo]) (by simp [writeInfo]; exact .null _)

/-- A well-formed segment has no null record. -/
theorem Linked.ne_zero {mem : Nat → AllocationInfo} {back p : Nat} {nodes : List Nat}
    (h : Linked mem back p nodes) : ∀ q ∈ nodes, q ≠ 0 := by
  induction h with
  | null => simp
  | node hp _ _ ih =>
    intro q hq
    rcases List.mem_cons.1 hq with rfl | hq
    exacts [hp, ih q hq]

/-- What `unlink` writes for a record `stat` with a predecessor `x`: `x.next` skips `stat`, the
record after `stat` points back at `x`, and nothing else changes, `_root` included. -/
theorem unlink_of_previous {s : AllocatorWithStats} {stat x : Nat}
    (hsx : (s.mem stat).previous = x) (hx0 : x ≠ 0) (hxs : x ≠ stat)
    (hzx : (s.mem stat).next ≠ x) (hroot : stat ≠ s.root) :
    (unlink s stat).root = s.root ∧
      (unlink s stat).mem x = { s.mem x with next := (s.mem stat).next } ∧
      ((s.mem stat).next ≠ 0 →
        (unlink s stat).mem (s.mem stat).next = { s.mem (s.mem stat).next with previous := x }) ∧
      ∀ q, q ≠ x → q ≠ (s.mem stat).next → (unlink s stat).mem q = s.mem q := by
  subst hsx
  have h1 : writeInfo s.mem (s.mem stat).previous (fun i => { i with next := (s.mem stat).next })
      stat = s.mem stat := Function.update_noteq hxs.symm _ _
  simp only [unlink, ne_eq, hx0, not_false_eq_true, ↓reduceIte, h1, hroot, true_and]
  by_cases hz0 : (s.mem stat).next = 0
  · simp only [hz0, not_true_eq_false, ↓reduceIte, writeInfo, Function.update_same, ne_eq,
      not_false_eq_true, true_and, IsEmpty.forall_iff]
    intro q hqx _
    exact Function.update_noteq hqx _ _
  · simp only [hz0, not_false_eq_true, ↓reduceIte, writeInfo, Function.update_noteq hzx.symm,
      Function.update_noteq hzx, Function.update_same, true_implies, true_and]
    intro q hqx hqz
    rw [Function.update_noteq hqz, Function.update_noteq hqx]

/-- Unlinking a record `stat` that follows a record `x` in the well-formed list from `_root` leaves
the same list without `stat`. -/
theorem unlink_linked {s : AllocatorWithStats} {pre post : List Nat} {x stat : Nat}
    (h : Linked s.mem 0 s.root (pre ++ x :: stat :: post)) (hnd : (pre ++ x :: stat :: post).Nodup) :
    Linked (unlink s stat).mem 0 (unlink s stat).root (pre ++ x :: post) := by
  have hseg : Linked s.mem 0 s.root ((pre ++ [x]) ++ stat :: post) := by simpa using h
  have hx0 : x ≠ 0 := h.ne_zero x (by simp)
  have hd := hnd
  simp only [List.nodup_append, List.nodup_cons, List.mem_cons, not_or, List.disjoint_cons_right]
    at hd
  obtain ⟨-, ⟨⟨hxs, hxp⟩, -⟩, -, hspre, -⟩ := hd
  have hroot : stat ≠ s.root := by
    cases pre with
    | nil => exact fun e => hxs ((Linked.cons_iff.1 h).1 ▸ e).symm
    | cons y pre =>
      obtain ⟨e, -⟩ := Linked.cons_iff.1 h
      exact fun e' => hspre (by rw [e', e]; exact List.mem_cons_self _ _)
  have hzx : (s.mem stat).next ≠ x := by
    rcases hseg.next_mem with e | e
    · rw [e]; exact hx0.symm
    · exact fun e' => hxp (e' ▸ e)
  obtain ⟨hr, hmx, hmz, hmf⟩ := unlink_of_previous h.adjacent.2 hx0 hxs hzx hroot
  rw [hr]
  exact Linked.splice hmx hmz hmf hnd h

/-- **A failed head removal.** Under `callerTime`, allocate `A` then `B` (so `B` heads the list and
`A` follows it) and deallocate `B`: `deallocate` sets `_root` to `B`'s `previous`, which is null,
so `allocations()` is empty while `A` is still live. -/
theorem deallocate_head_empties_list :
    let calls : List Call := [.allocate 8 0 0 0 0 ⟨4096, 8⟩, .allocate 8 0 0 0 0 ⟨8192, 8⟩,
      .deallocate ⟨8192, 8⟩]
    let s := run 2097152 (init fun _ => default) calls
    s.root = 0 ∧ s.allocations 2 = [] ∧ Call.liveAfter [] calls = [⟨4096, 8⟩] := by
  decide

/-- **A move the list does not follow.** Under `callerTime`, allocate `A` at `4096` and reallocate it
to `8192`, the delegate moving the block and its record: `_root` still points at `A`'s old record
at `4040`, in released memory, and the moved block's record at `8136` is not in the list. -/
theorem reallocate_move_leaves_stale_record :
    let calls : List Call := [.allocate 8 0 0 0 0 ⟨4096, 8⟩, .reallocate ⟨4096, 8⟩ 16 true ⟨8192, 16⟩]
    let s := run 2097152 (init fun _ => default) calls
    s.allocations 2 = [4040] ∧ (Call.liveAfter [] calls).map prefixOf = [8136] := by
  decide

/-! ## Without per-allocation state -/

/-- Without per-allocation state the decorator leaves memory alone: for a flag set that asks for
neither the caller's time, file nor line, every run from any state, whatever the calls and the
delegate's answers, keeps `_root` and the memory around the blocks as they were: only counters
move, and `allocations()` stays empty on a new decorator. -/
theorem run_keeps_memory (Flags : Nat) (hp : hasPerAllocationState Flags = false)
    (s : AllocatorWithStats) (calls : List Call) :
    (run Flags s calls).mem = s.mem ∧ (run Flags s calls).root = s.root := by
  induction calls generalizing s with
  | nil => exact ⟨rfl, rfl⟩
  | cons c cs ih =>
    obtain ⟨hm, hr⟩ := ih (exec Flags s c)
    rw [run_cons, hm, hr]
    cases c with
    | reallocate b n ok r => cases ok <;> simp [exec, reallocate, hp]
    | expand b n ok r => cases ok <;> simp [exec, expand]
    | _ => simp [exec, allocate, deallocate, hp]

/-! ## Whole runs -/

/-- `unlink` of a record in the well-formed list from `_root` that is not the head of two or more
leaves the same list without it. -/
theorem unlink_linked_erase {s : AllocatorWithStats} {nodes : List Nat} {stat : Nat}
    (h : Linked s.mem 0 s.root nodes) (hnd : nodes.Nodup) (hs : stat ∈ nodes)
    (hhead : stat = s.root → (s.mem s.root).next = 0) :
    Linked (unlink s stat).mem 0 (unlink s stat).root (nodes.erase stat) := by
  obtain ⟨pre, post, rfl⟩ := List.append_of_mem hs
  rcases List.eq_nil_or_concat pre with rfl | ⟨pre, x, rfl⟩
  · obtain ⟨rfl, -, hprev, hrest⟩ := Linked.cons_iff.1 h
    have hnext := hhead rfl
    rw [hnext] at hrest
    obtain rfl := hrest.eq_nil
    rw [List.nil_append, List.erase_cons_head, Linked.nil_iff]
    simp [unlink, hprev, hnext]
  · rw [List.concat_eq_append] at h hnd ⊢
    have hns : stat ∉ pre ++ [x] := fun hm => (List.nodup_append.1 hnd).2.2 hm (List.mem_cons_self _ _)
    rw [List.erase_append_right _ hns, List.erase_cons_head]
    simp only [List.append_assoc, List.singleton_append] at h hnd ⊢
    exact unlink_linked h hnd

/-- The list from `_root` tracks the live blocks `L`: it is well formed and holds one record per
live block, at the block's prefix, and no other; every live block holds bytes and leaves room for
its record above null. -/
def Tracks (s : AllocatorWithStats) (L : List Block) : Prop :=
  (∀ b ∈ L, b.toBool ∧ AllocationInfo.size < b.ptr) ∧
    ∃ nodes, Linked s.mem 0 s.root nodes ∧ nodes.Nodup ∧ nodes.Perm (L.map prefixOf)

/-- The calls under which the list stays whole, in the state they find: an allocated block leaves
room for its record above null, a deallocation does not remove the head of two or more records,
and a successful resize keeps its block in place, neither creating nor freeing it. -/
def Keeps (s : AllocatorWithStats) : Call → Prop
  | .allocate _ _ _ _ _ result => result.toBool → AllocationInfo.size < result.ptr
  | .deallocate b => b.toBool → prefixOf b = s.root → (s.mem s.root).next = 0
  | .reallocate b _ ok result | .expand b _ ok result =>
    ok = true → result.ptr = b.ptr ∧ result.toBool = b.toBool

instance (s : AllocatorWithStats) : (c : Call) → Decidable (Keeps s c)
  | .allocate _ _ _ _ _ r => inferInstanceAs (Decidable (r.toBool → _))
  | .deallocate b => inferInstanceAs (Decidable (b.toBool → _ → _))
  | .reallocate _ _ ok _ | .expand _ _ ok _ => inferInstanceAs (Decidable (ok = true → _ ∧ _))

/-- Every call of a run keeps the list, in the state it finds. -/
def KeepsAlong (Flags : Nat) (s : AllocatorWithStats) : List Call → Prop
  | [] => True
  | c :: cs => Keeps s c ∧ KeepsAlong Flags (exec Flags s c) cs

instance KeepsAlong.decidable (Flags : Nat) :
    (s : AllocatorWithStats) → (calls : List Call) → Decidable (KeepsAlong Flags s calls)
  | _, [] => isTrue trivial
  | s, c :: cs =>
    have := KeepsAlong.decidable Flags (exec Flags s c) cs
    inferInstanceAs (Decidable (_ ∧ _))

/-- A block that, record included, shares no byte with the live blocks and their records has a
prefix none of them has. -/
theorem prefixOf_not_mem {L : List Block} {r : Block}
    (hd : ∀ b ∈ L, Disjoint r.withRecord.region b.withRecord.region) :
    prefixOf r ∉ L.map prefixOf := by
  simp only [List.mem_map, not_exists, not_and]
  intro b hb he
  refine Finset.disjoint_left.1 (hd b hb) (show prefixOf r ∈ _ from ?_) ?_ <;>
    simp [Block.withRecord, he, AllocationInfo.size]

theorem Tracks.allocate_live (Flags : Nat) (hp : hasPerAllocationState Flags) {s : AllocatorWithStats}
    {L : List Block} (h : Tracks s L) {n file function : Nat} {line : Int} {now : Nat}
    {result : Block} (hf : (Call.allocate n file function line now result).Separate L)
    (hk : Keeps s (.allocate n file function line now result)) :
    Tracks (allocate Flags s n file function line now result)
      ((Call.allocate n file function line now result).live L) := by
  obtain ⟨hL, nodes, hl, hnd, hperm⟩ := h
  by_cases hok : result.toBool
  · have hs := hk hok
    have hn : prefixOf result ∉ nodes := fun hm => prefixOf_not_mem (hf hok) (hperm.subset hm)
    have h0 : prefixOf result ≠ 0 := by simp only [prefixOf, AllocationInfo.size] at hs ⊢; omega
    simp only [allocate, Call.live, hok, hp, Bool.and_self, ↓reduceIte]
    exact ⟨List.forall_mem_cons.2 ⟨⟨hok, hs⟩, hL⟩, _,
      link_linked Flags hl hnd h0 hn _ n file function line now, hnd.cons hn, hperm.cons _⟩
  · simp only [allocate, Call.live, hok, Bool.false_and, ↓reduceIte]
    exact ⟨hL, nodes, hl, hnd, hperm⟩

theorem Tracks.deallocate_erase (Flags : Nat) (hp : hasPerAllocationState Flags)
    {s : AllocatorWithStats} {L : List Block} (h : Tracks s L) {b : Block}
    (ha : (Call.deallocate b).Admissible L) (hk : Keeps s (.deallocate b)) :
    Tracks (deallocate Flags s b) (L.erase b) := by
  obtain ⟨hL, nodes, hl, hnd, hperm⟩ := h
  by_cases hb : b.toBool
  · have hbL : b ∈ L := ha.resolve_right (by simpa using hb)
    have hs : prefixOf b ∈ nodes := hperm.symm.subset (List.mem_map_of_mem _ hbL)
    have hmap : ((L.map prefixOf).erase (prefixOf b)).Perm ((L.erase b).map prefixOf) := by
      simpa using ((List.perm_cons_erase hbL).map prefixOf).erase (prefixOf b)
    simp only [deallocate, hb, hp, Bool.and_self, ↓reduceIte]
    exact ⟨fun c hc => hL c (List.mem_of_mem_erase hc), _, unlink_linked_erase hl hnd hs (hk hb),
      hnd.erase _, (hperm.erase _).trans hmap⟩
  · have hbL : b ∉ L := fun hm => hb (hL b hm).1
    simp only [deallocate, hb, Bool.false_and, ↓reduceIte, List.erase_of_not_mem hbL]
    exact ⟨hL, nodes, hl, hnd, hperm⟩

/-- A resize in place that neither creates nor frees its block leaves the same records. -/
theorem Tracks.replace {s : AllocatorWithStats} {L : List Block} (h : Tracks s L) {b r : Block}
    (hb : b ∈ L ∨ b.length = 0) (hr : r.ptr = b.ptr) (ht : r.toBool = b.toBool) :
    Tracks s (if r.toBool then r :: L.erase b else L.erase b) := by
  obtain ⟨hL, nodes, hl, hnd, hperm⟩ := h
  by_cases hbt : b.toBool
  · have hbL : b ∈ L := hb.resolve_right (by simpa using hbt)
    have hpre : prefixOf r = prefixOf b := by simp only [prefixOf, hr]
    simp only [ht, hbt, ↓reduceIte]
    refine ⟨List.forall_mem_cons.2 ⟨⟨ht ▸ hbt, hr ▸ (hL b hbL).2⟩,
      fun c hc => hL c (List.mem_of_mem_erase hc)⟩, nodes, hl, hnd, ?_⟩
    simpa [hpre] using hperm.trans ((List.perm_cons_erase hbL).map prefixOf)
  · have hbL : b ∉ L := fun hm => hbt (hL b hm).1
    simp only [ht, hbt, Bool.false_eq_true, ↓reduceIte, List.erase_of_not_mem hbL]
    exact ⟨hL, nodes, hl, hnd, hperm⟩

/-- Every call that keeps the list, in a run that meets the contract, keeps it tracking the live
blocks. -/
theorem Tracks.exec_live (Flags : Nat) (hp : hasPerAllocationState Flags) {s : AllocatorWithStats}
    {L : List Block} {c : Call} (h : Tracks s L) (ha : c.Admissible L) (hf : c.Separate L)
    (hk : Keeps s c) : Tracks (exec Flags s c) (c.live L) := by
  cases c with
  | allocate => exact h.allocate_live Flags hp hf hk
  | deallocate => exact h.deallocate_erase Flags hp ha hk
  | reallocate b n ok result =>
    cases ok with
    | false => exact h
    | true =>
      obtain ⟨hr, ht⟩ := hk rfl
      have hm : AffixAllocator.relocate s.mem b result = s.mem := by
        simp [AffixAllocator.relocate, hr]
      simp only [exec, reallocate, hm, ite_self]
      exact h.replace ha.1 hr ht
  | expand b delta ok result =>
    cases ok with
    | false => exact h
    | true => exact h.replace ha.1 (hk rfl).1 (hk rfl).2

theorem Tracks.run_live (Flags : Nat) (hp : hasPerAllocationState Flags) {s : AllocatorWithStats}
    {L : List Block} {calls : List Call} (h : Tracks s L)
    (hc : Call.Run (fun L c => c.Admissible L ∧ c.Separate L) L calls)
    (hk : KeepsAlong Flags s calls) : Tracks (run Flags s calls) (Call.liveAfter L calls) := by
  induction calls generalizing s L with
  | nil => exact h
  | cons c cs ih => exact ih (h.exec_live Flags hp hc.1.1 hc.1.2 hk.1) hc.2 hk.2

/-- **`allocations()` enumerates the live blocks, over a well-formed list.** With per-allocation
state on, over every run of a new decorator in which the client keeps the contract, the delegate
hands out blocks that, records included, overlap no other live block or record, every block handed
out leaves room for its record, no deallocation removes the head of two or more records and every
successful resize stays in place: the list from `_root` is well formed (each record's `previous`
points at the record before it, the head's at null, and the walk ends at null), it meets no record
twice, and it holds one record per live block, at the block's prefix, and no other. Away from its
two defects (`deallocate_head_empties_list`, `reallocate_move_leaves_stale_record`), the list is
what `allocations()` promises. -/
theorem allocations_perm_live (Flags : Nat) (hp : hasPerAllocationState Flags)
    (mem : Nat → AllocationInfo) {calls : List Call}
    (hc : Call.Run (fun L c => c.Admissible L ∧ c.Separate L) [] calls)
    (hk : KeepsAlong Flags (init mem) calls) {fuel : Nat}
    (hf : (Call.liveAfter [] calls).length ≤ fuel) :
    Linked (run Flags (init mem) calls).mem 0 (run Flags (init mem) calls).root
        ((run Flags (init mem) calls).allocations fuel) ∧
      ((run Flags (init mem) calls).allocations fuel).Nodup ∧
      ((run Flags (init mem) calls).allocations fuel).Perm
        ((Call.liveAfter [] calls).map prefixOf) := by
  have h0 : Tracks (init mem) [] := ⟨by simp, [], .null 0, List.nodup_nil, List.Perm.nil⟩
  obtain ⟨-, nodes, hl, hnd, hperm⟩ := h0.run_live Flags hp hc hk
  rw [allocations, hl.walk_eq fuel (by rw [hperm.length_eq, List.length_map]; exact hf)]
  exact ⟨hl, hnd, hperm⟩

/-- Under `callerTime`: allocate `A` at `4096` and `B` at `8192`, grow `A` in place to `16` bytes,
then deallocate `A`: the list holds `B`'s record alone. -/
theorem allocations_perm_live_resize :
    let calls : List Call := [.allocate 8 0 0 0 0 ⟨4096, 8⟩, .allocate 8 0 0 0 0 ⟨8192, 8⟩,
      .reallocate ⟨4096, 8⟩ 16 true ⟨4096, 16⟩, .deallocate ⟨4096, 16⟩]
    hasPerAllocationState 2097152 ∧ Call.Run (fun L c => c.Admissible L ∧ c.Separate L) [] calls ∧
      KeepsAlong 2097152 (init fun _ => default) calls ∧ (Call.liveAfter [] calls).length ≤ 1 ∧
      Linked (run 2097152 (init fun _ => default) calls).mem 0
          (run 2097152 (init fun _ => default) calls).root
          ((run 2097152 (init fun _ => default) calls).allocations 1) ∧
        ((run 2097152 (init fun _ => default) calls).allocations 1).Nodup ∧
        ((run 2097152 (init fun _ => default) calls).allocations 1).Perm
          ((Call.liveAfter [] calls).map prefixOf) := by
  intro calls
  have hp : hasPerAllocationState 2097152 := by decide
  have hc : Call.Run (fun L c => c.Admissible L ∧ c.Separate L) [] calls := by decide
  have hk : KeepsAlong 2097152 (init fun _ => default) calls := by decide
  have hf : (Call.liveAfter [] calls).length ≤ 1 := by decide
  exact ⟨hp, hc, hk, hf, allocations_perm_live 2097152 hp _ hc hk hf⟩

end AllocatorWithStats

/-! ### Newest first, without resizes -/

/-- Whether a call resizes a block. -/
def Call.resizes : Call → Bool
  | .reallocate .. | .expand .. => true
  | _ => false

/-- Erasing a block from a list whose images are distinct erases its image. -/
theorem map_erase_of_nodup {f : Block → Nat} {b : Block} :
    ∀ {L : List Block}, (L.map f).Nodup → b ∈ L → (L.erase b).map f = (L.map f).erase (f b)
  | [], _, hb => absurd hb (List.not_mem_nil b)
  | c :: L, hnd, hb => by
    rw [List.map_cons, List.nodup_cons] at hnd
    by_cases hc : c = b
    · subst hc; simp
    · have hbL : b ∈ L := (List.mem_cons.1 hb).resolve_left (Ne.symm hc)
      have hf : f c ≠ f b := fun e => hnd.1 (e ▸ List.mem_map_of_mem f hbL)
      rw [List.erase_cons_tail (by simpa using hc), List.map_cons, List.map_cons,
        List.erase_cons_tail (by simpa using hf), map_erase_of_nodup hnd.2 hbL]

namespace AllocatorWithStats

/-- The list from `_root` holds the records of the live blocks `L` in the order of `L`, newest
first, each once; every live block holds bytes and leaves room for its record above null. -/
def TracksInOrder (s : AllocatorWithStats) (L : List Block) : Prop :=
  (∀ b ∈ L, b.toBool ∧ AllocationInfo.size < b.ptr) ∧ Linked s.mem 0 s.root (L.map prefixOf) ∧
    (L.map prefixOf).Nodup

/-- An allocation or a deallocation that keeps the list keeps it in order. -/
theorem TracksInOrder.exec_live (Flags : Nat) (hp : hasPerAllocationState Flags)
    {s : AllocatorWithStats} {L : List Block} {c : Call} (h : TracksInOrder s L)
    (hr : c.resizes = false) (ha : c.Admissible L) (hf : c.Separate L) (hk : Keeps s c) :
    TracksInOrder (exec Flags s c) (c.live L) := by
  obtain ⟨hL, hl, hnd⟩ := h
  cases c with
  | allocate n file function line now result =>
    by_cases hok : result.toBool
    · have hs := hk hok
      have hn := prefixOf_not_mem (hf hok)
      have h0 : prefixOf result ≠ 0 := by simp only [prefixOf, AllocationInfo.size] at hs ⊢; omega
      simp only [exec, allocate, Call.live, hok, hp, Bool.and_self, ↓reduceIte]
      exact ⟨List.forall_mem_cons.2 ⟨⟨hok, hs⟩, hL⟩,
        link_linked Flags hl hnd h0 hn _ n file function line now, hnd.cons hn⟩
    · simp only [exec, allocate, Call.live, hok, Bool.false_and, ↓reduceIte]
      exact ⟨hL, hl, hnd⟩
  | deallocate b =>
    by_cases hb : b.toBool
    · have hbL : b ∈ L := ha.resolve_right (by simpa using hb)
      have hs : prefixOf b ∈ L.map prefixOf := List.mem_map_of_mem _ hbL
      simp only [exec, deallocate, Call.live, hb, hp, Bool.and_self, ↓reduceIte]
      refine ⟨fun c hc => hL c (List.mem_of_mem_erase hc), ?_, ?_⟩
      · rw [map_erase_of_nodup hnd hbL]; exact unlink_linked_erase hl hnd hs (hk hb)
      · rw [map_erase_of_nodup hnd hbL]; exact hnd.erase _
    · have hbL : b ∉ L := fun hm => hb (hL b hm).1
      simp only [exec, deallocate, Call.live, hb, Bool.false_and, ↓reduceIte,
        List.erase_of_not_mem hbL]
      exact ⟨hL, hl, hnd⟩
  | reallocate | expand => cases hr

theorem TracksInOrder.run_live (Flags : Nat) (hp : hasPerAllocationState Flags)
    {s : AllocatorWithStats} {L : List Block} {calls : List Call} (h : TracksInOrder s L)
    (hr : ∀ c ∈ calls, c.resizes = false)
    (hc : Call.Run (fun L c => c.Admissible L ∧ c.Separate L) L calls)
    (hk : KeepsAlong Flags s calls) : TracksInOrder (run Flags s calls) (Call.liveAfter L calls) := by
  induction calls generalizing s L with
  | nil => exact h
  | cons c cs ih =>
    exact ih (h.exec_live Flags hp (hr c (List.mem_cons_self _ _)) hc.1.1 hc.1.2 hk.1)
      (fun c hc => hr c (List.mem_cons_of_mem _ hc)) hc.2 hk.2

/-- **Without resizes, `allocations()` lists the live blocks newest first.** With per-allocation
state on, over every run of `allocate` and `deallocate` on a new decorator that meets the
contract, gives each block room for its record, and never deallocates the head of two or more
records, the walk from `_root` meets exactly the records of the live blocks, newest first. This is
the list the spec promises whichever record is removed; the one exception is the head, which
`deallocate` empties (`deallocate_head_empties_list`). -/
theorem allocations_newest_first (Flags : Nat) (hp : hasPerAllocationState Flags)
    (mem : Nat → AllocationInfo) {calls : List Call} (hr : ∀ c ∈ calls, c.resizes = false)
    (hc : Call.Run (fun L c => c.Admissible L ∧ c.Separate L) [] calls)
    (hk : KeepsAlong Flags (init mem) calls) {fuel : Nat}
    (hf : (Call.liveAfter [] calls).length ≤ fuel) :
    (run Flags (init mem) calls).allocations fuel = (Call.liveAfter [] calls).map prefixOf := by
  have h0 : TracksInOrder (init mem) [] := ⟨by simp, .null 0, List.nodup_nil⟩
  obtain ⟨-, hl, -⟩ := h0.run_live Flags hp hr hc hk
  exact hl.walk_eq fuel (by rw [List.length_map]; exact hf)

/-- Under `callerTime`: allocate `A`, `B` and `C`, deallocate `B` from the middle: `allocations()`
lists `C` then `A`. -/
theorem allocations_newest_first_middle :
    let calls : List Call := [.allocate 8 0 0 0 0 ⟨4096, 8⟩, .allocate 8 0 0 0 0 ⟨8192, 8⟩,
      .allocate 8 0 0 0 0 ⟨12288, 8⟩, .deallocate ⟨8192, 8⟩]
    hasPerAllocationState 2097152 ∧ (∀ c ∈ calls, c.resizes = false) ∧
      Call.Run (fun L c => c.Admissible L ∧ c.Separate L) [] calls ∧
      KeepsAlong 2097152 (init fun _ => default) calls ∧ (Call.liveAfter [] calls).length ≤ 2 ∧
      (run 2097152 (init fun _ => default) calls).allocations 2 = [12232, 4040] := by
  intro calls
  have hp : hasPerAllocationState 2097152 := by decide
  have hr : ∀ c ∈ calls, c.resizes = false := by decide
  have hc : Call.Run (fun L c => c.Admissible L ∧ c.Separate L) [] calls := by decide
  have hk : KeepsAlong 2097152 (init fun _ => default) calls := by decide
  have hf : (Call.liveAfter [] calls).length ≤ 2 := by decide
  exact ⟨hp, hr, hc, hk, hf, allocations_newest_first 2097152 hp _ hr hc hk hf⟩

end AllocatorWithStats

end AllocatorBuilder
