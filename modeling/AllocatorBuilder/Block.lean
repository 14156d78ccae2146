import Mathlib.Order.Interval.Finset.Nat
import Mathlib.Algebra.Order.Ring.Nat

/-!
# Blocks and the address space

The value every allocator of the library hands around is a `{ptr, length}` pair (`alb::block` in
the free list, `ALB::Block` in the statistics decorator). Both fields are `size_t`-sized, so they
live below `wordMod = 2^64`, and the null pointer is address `0`.

The block type is declared in a header outside the sources, so it is modelled from the spec:
"pointer is none if and only if length is 0", "convertible to a success/failure boolean". The
structure deliberately carries no invariant: the free list can build a block with a null pointer
and a non-zero length, and the model has to be able to say that it does (`Block.WellFormed`).

* `Block.region` — the addresses a block covers, `[ptr, ptr + length)`;
* `Block.InSpace` — a non-empty block lies in the 64-bit address space above null;
* `bytes` — the total length of a list of blocks, bounded by the address space as soon as the
  blocks are pairwise disjoint (`bytes_lt_wordMod`).
-/

namespace AllocatorBuilder

/-- `size_t` values and addresses are 64-bit: arithmetic on them wraps modulo this. -/
def wordMod : Nat := 2 ^ 64

/-- Modelled from the spec: an allocation handle, a start address (`0` is `nullptr`) and a length
in bytes. -/
structure Block where
  /-- the start address, `0` for `nullptr` -/
  ptr : Nat
  /-- the length in bytes -/
  length : Nat
  deriving DecidableEq, Repr

namespace Block

/-- Modelled from the spec: the empty block `{nullptr, 0}`, what a default-constructed or reset
block holds. -/
def empty : Block := ⟨0, 0⟩

/-- Modelled from the spec: `explicit operator bool`, a block tests true when it holds bytes. Under
the spec's invariant (`WellFormed`) this is the same test as a non-null pointer. -/
def toBool (b : Block) : Bool := b.length != 0

/-- Modelled from the spec: the block invariant, the pointer is null exactly when the length is
`0`. -/
def WellFormed (b : Block) : Prop := b.ptr = 0 ↔ b.length = 0

instance (b : Block) : Decidable b.WellFormed := inferInstanceAs (Decidable (_ ↔ _))

/-- The addresses a block covers. -/
def region (b : Block) : Finset Nat := Finset.Ico b.ptr (b.ptr + b.length)

/-- A non-empty block lies above null and inside the 64-bit address space. -/
def InSpace (b : Block) : Prop := b.length = 0 ∨ (0 < b.ptr ∧ b.ptr + b.length ≤ wordMod)

instance (b : Block) : Decidable b.InSpace := inferInstanceAs (Decidable (_ ∨ _))

@[simp] theorem empty_ptr : empty.ptr = 0 := rfl
@[simp] theorem empty_length : empty.length = 0 := rfl

@[simp] theorem toBool_iff (b : Block) : b.toBool = true ↔ b.length ≠ 0 := by
  simp [toBool]

@[simp] theorem toBool_eq_false (b : Block) : b.toBool = false ↔ b.length = 0 := by
  simp [toBool]

/-- Under the block invariant, testing a block is testing its pointer. -/
theorem WellFormed.toBool_eq {b : Block} (h : b.WellFormed) : b.toBool = (b.ptr != 0) :=
  Bool.eq_iff_iff.2 (by simpa using (not_congr h).symm)

@[simp] theorem mem_region {a : Nat} {b : Block} : a ∈ b.region ↔ b.ptr ≤ a ∧ a < b.ptr + b.length :=
  Finset.mem_Ico

@[simp] theorem card_region (b : Block) : b.region.card = b.length := by
  simp [region]

/-- Two blocks are disjoint when one is empty or one ends before the other starts. -/
theorem disjoint_region {b c : Block} : Disjoint b.region c.region ↔
    b.length = 0 ∨ c.length = 0 ∨ b.ptr + b.length ≤ c.ptr ∨ c.ptr + c.length ≤ b.ptr := by
  refine ⟨fun h => ?_, fun h => Finset.disjoint_left.2 fun a ha hc => ?_⟩
  · by_contra hn
    exact Finset.disjoint_left.1 h (show max b.ptr c.ptr ∈ b.region by simp; omega)
      (by simp; omega)
  · simp only [mem_region] at ha hc; omega

instance (b c : Block) : Decidable (Disjoint b.region c.region) :=
  decidable_of_iff _ disjoint_region.symm

theorem region_subset_space {b : Block} (h : b.InSpace) : b.region ⊆ Finset.Ico 1 wordMod := by
  intro a ha
  simp only [mem_region, Finset.mem_Ico] at ha ⊢
  rcases h with h | h <;> omega

end Block

/-! ## Byte totals of disjoint blocks -/

/-- The total length of a list of blocks. -/
def bytes (L : List Block) : Nat := (L.map Block.length).sum

@[simp] theorem bytes_nil : bytes [] = 0 := rfl

@[simp] theorem bytes_cons (b : Block) (L : List Block) : bytes (b :: L) = b.length + bytes L := by
  simp [bytes]

/-- Removing a block that is present takes exactly its length off the total. -/
theorem bytes_erase {b : Block} {L : List Block} (h : b ∈ L) :
    bytes (L.erase b) + b.length = bytes L := by
  induction L with
  | nil => simp at h
  | cons c L ih =>
    by_cases hc : c = b
    · subst hc; simp; omega
    · have hb : b ∈ L := (List.mem_cons.mp h).resolve_left (Ne.symm hc)
      have := ih hb
      simp only [List.erase_cons, beq_iff_eq, hc, if_false, bytes_cons]
      omega

/-- Erasing a block of length `0`, present or not, leaves the total unchanged. -/
theorem bytes_erase_of_length_zero {b : Block} (L : List Block) (h : b.length = 0) :
    bytes (L.erase b) = bytes L := by
  by_cases hb : b ∈ L
  · have := bytes_erase hb; omega
  · rw [List.erase_of_not_mem hb]

/-- Pairwise disjointness of a list of blocks. -/
def PairwiseDisjoint (L : List Block) : Prop := L.Pairwise fun b c => Disjoint b.region c.region

/-- The union of the regions of a list of blocks. -/
def footprint (L : List Block) : Finset Nat := L.foldr (fun b U => b.region ∪ U) ∅

@[simp] theorem footprint_nil : footprint [] = ∅ := rfl

@[simp] theorem footprint_cons (c : Block) (L : List Block) :
    footprint (c :: L) = c.region ∪ footprint L := rfl

theorem disjoint_footprint {X : Finset Nat} {L : List Block}
    (h : ∀ c ∈ L, Disjoint X c.region) : Disjoint X (footprint L) := by
  induction L with
  | nil => simp
  | cons c L ih =>
    simp only [footprint_cons, Finset.disjoint_union_right]
    exact ⟨h c (by simp), ih fun d hd => h d (by simp [hd])⟩

theorem card_footprint {L : List Block} (h : PairwiseDisjoint L) :
    (footprint L).card = bytes L := by
  induction L with
  | nil => rfl
  | cons c L ih =>
    obtain ⟨hc, hL⟩ := List.pairwise_cons.mp h
    rw [footprint_cons, Finset.card_union_of_disjoint (disjoint_footprint hc), Block.card_region,
      ih hL, bytes_cons]

theorem footprint_subset_space {L : List Block} (h : ∀ b ∈ L, b.InSpace) :
    footprint L ⊆ Finset.Ico 1 wordMod := by
  induction L with
  | nil => simp
  | cons c L ih =>
    simp only [footprint_cons, Finset.union_subset_iff]
    exact ⟨Block.region_subset_space (h c (by simp)), ih fun d hd => h d (by simp [hd])⟩

/-- **Disjoint blocks fit the address space.** Pairwise disjoint blocks above null and below
`2^64` hold fewer than `2^64` bytes together, so a `size_t` counter of their total never wraps. -/
theorem bytes_lt_wordMod {L : List Block} (hd : PairwiseDisjoint L) (hs : ∀ b ∈ L, b.InSpace) :
    bytes L < wordMod := by
  have h := Finset.card_le_card (footprint_subset_space hs)
  rw [card_footprint hd, Nat.card_Ico] at h
  have : 0 < wordMod := by simp [wordMod]
  omega

end AllocatorBuilder
