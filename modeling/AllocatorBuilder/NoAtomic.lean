import Mathlib.Logic.Basic

/-!
# `NoAtomic`: the single-threaded stand-in for `std::atomic`

`internal::NoAtomic<T>` holds a `T` and mimics part of the `std::atomic<T>` interface, so that a
holder can be chosen at compile time, concurrent or not, behind the same calls: construction from a
value, `load`, assignment, conversion to `T` and `compare_exchange_strong`.

`SeqAtomic` is the other side of that choice: `std::atomic<T>` as one thread sees it, written from
the contract the two are meant to share, not from a source here. Its
`compare_exchange_strong(expected, desired)` compares the value with `expected`; when they are
equal it stores `desired` and returns `true`, otherwise it writes the value into `expected` and
returns `false`.

`NoAtomic::compare_exchange_strong` never reads its first parameter: it stores `desired` and returns
`true`. A run of calls (`Op`) then gets the same replies and ends at the same value from both
exactly when no compare-exchange of the reference run fails (`run_agree_iff`): each expects the
value held at that point, as in a single-threaded loop that loads before it exchanges. When one
does not, the two part (`compare_exchange_strong_ignores_expected`).
-/

namespace AllocatorBuilder

/-- `internal::NoAtomic<T>`; its constructor is `explicit NoAtomic(T v)`. -/
structure NoAtomic (T : Type) where
  /-- `_value` -/
  value : T
  deriving DecidableEq, Repr

/-- A call one thread makes on a holder once it is constructed. -/
inductive Op (T : Type) where
  /-- `load()` -/
  | load
  /-- `operator=(v)` -/
  | assign (v : T)
  /-- `operator T()` -/
  | convert
  /-- `compare_exchange_strong(expected, desired)`, `expected` being what the caller's variable
  holds -/
  | compareExchangeStrong (expected desired : T)
  deriving DecidableEq, Repr

/-- What a call gives its caller: a value, or a compare-exchange's flag with what it left in the
caller's `expected`. -/
inductive Reply (T : Type) where
  | value (v : T)
  | exchanged (ok : Bool) (expected : T)
  deriving DecidableEq, Repr

section Runs

variable {T σ τ : Type}

/-- A sequence of calls on a holder with state `σ` whose calls are `call`: the replies, and the
state it ends in. -/
def runCalls (call : σ → Op T → σ × Reply T) (a : σ) : List (Op T) → List (Reply T) × σ
  | [] => ([], a)
  | op :: ops => ((call a op).2 :: (runCalls call (call a op).1 ops).1,
      (runCalls call (call a op).1 ops).2)

/-- Every reply of a run is the reply of one call. -/
theorem runCalls_reply {call : σ → Op T → σ × Reply T} {r : Reply T} :
    ∀ {a : σ} {ops : List (Op T)}, r ∈ (runCalls call a ops).1 → ∃ b op, (call b op).2 = r
  | _, [], h => by simp [runCalls] at h
  | a, op :: ops, h => by
    rcases List.mem_cons.1 h with e | h
    · exact ⟨a, op, e.symm⟩
    · exact runCalls_reply h

/-- **Simulation of runs.** If each call of `call₂` on an image `f a` whose reply satisfies `P` is
the image of the call of `call₁` on `a`, then a run of `call₂` all of whose replies satisfy `P` is
the image of the run of `call₁`. -/
theorem runCalls_sim {call₁ : σ → Op T → σ × Reply T} {call₂ : τ → Op T → τ × Reply T}
    (f : σ → τ) (P : Reply T → Prop)
    (hstep : ∀ a op, P (call₂ (f a) op).2 → call₂ (f a) op = (f (call₁ a op).1, (call₁ a op).2)) :
    ∀ (a : σ) (ops : List (Op T)), (∀ r ∈ (runCalls call₂ (f a) ops).1, P r) →
      runCalls call₂ (f a) ops = ((runCalls call₁ a ops).1, f (runCalls call₁ a ops).2)
  | _, [], _ => rfl
  | a, op :: ops, h => by
    have hc := hstep a op (h _ (List.mem_cons_self _ _))
    have ih := runCalls_sim f P hstep (call₁ a op).1 ops fun r hr =>
      h r (List.mem_cons_of_mem _ (by rw [hc]; exact hr))
    simp only [runCalls, hc, ih]

end Runs

namespace NoAtomic

variable {T : Type}

/-- `load()` -/
def load (a : NoAtomic T) : T := a.value

/-- `operator=(T v)`: store `v`; the call returns `*this`. -/
def assign (_ : NoAtomic T) (v : T) : NoAtomic T := ⟨v⟩

/-- `operator T()` -/
def convert (a : NoAtomic T) : T := a.value

/-- `compare_exchange_strong(T &, T v)`: the first parameter is unnamed, neither read nor written.
Returns the holder, the caller's `expected` and the flag. -/
def compareExchangeStrong (_ : NoAtomic T) (expected desired : T) : NoAtomic T × T × Bool :=
  (⟨desired⟩, expected, true)

/-- One call and its reply. Assignment returns `*this`, which the caller reads as a `T` through
`operator T()`. -/
def call (a : NoAtomic T) : Op T → NoAtomic T × Reply T
  | .load => (a, .value a.load)
  | .assign v => (a.assign v, .value (a.assign v).convert)
  | .convert => (a, .value a.convert)
  | .compareExchangeStrong e d =>
    ((a.compareExchangeStrong e d).1, .exchanged (a.compareExchangeStrong e d).2.2
      (a.compareExchangeStrong e d).2.1)

/-- A sequence of calls: the replies, and the holder it ends with. -/
def run (a : NoAtomic T) (ops : List (Op T)) : List (Reply T) × NoAtomic T := runCalls call a ops

/-- `NoAtomic` never reports a failed exchange. -/
theorem call_ne_failed (a : NoAtomic T) (op : Op T) (e : T) :
    (a.call op).2 ≠ .exchanged false e := by
  cases op <;> simp [call, compareExchangeStrong]

theorem run_ne_failed (a : NoAtomic T) (ops : List (Op T)) (e : T) :
    Reply.exchanged false e ∉ (a.run ops).1 := fun h => by
  obtain ⟨b, op, hb⟩ := runCalls_reply h
  exact call_ne_failed b op e hb

end NoAtomic

/-- `std::atomic<T>` as one thread sees it: the value it holds. -/
structure SeqAtomic (T : Type) where
  value : T
  deriving DecidableEq, Repr

namespace SeqAtomic

variable {T : Type} [DecidableEq T]

/-- `compare_exchange_strong(expected, desired)`: store `desired` and succeed when the value equals
`expected`; otherwise write the value into `expected` and fail. -/
def compareExchangeStrong (a : SeqAtomic T) (expected desired : T) : SeqAtomic T × T × Bool :=
  if a.value = expected then (⟨desired⟩, expected, true) else (a, a.value, false)

/-- One call and its reply; `operator=` returns the value stored. -/
def call (a : SeqAtomic T) : Op T → SeqAtomic T × Reply T
  | .load => (a, .value a.value)
  | .assign v => (⟨v⟩, .value v)
  | .convert => (a, .value a.value)
  | .compareExchangeStrong e d =>
    ((a.compareExchangeStrong e d).1, .exchanged (a.compareExchangeStrong e d).2.2
      (a.compareExchangeStrong e d).2.1)

/-- A sequence of calls: the replies, and the atomic it ends with. -/
def run (a : SeqAtomic T) (ops : List (Op T)) : List (Reply T) × SeqAtomic T := runCalls call a ops

end SeqAtomic

namespace NoAtomic

variable {T : Type} [DecidableEq T]

/-- One call that does not fail an exchange in the reference gives the same reply and leaves the
same value. -/
theorem call_agree (a : NoAtomic T) (op : Op T)
    (h : ∀ e, (SeqAtomic.call ⟨a.value⟩ op).2 ≠ .exchanged false e) :
    SeqAtomic.call ⟨a.value⟩ op = (⟨(a.call op).1.value⟩, (a.call op).2) := by
  cases op with
  | compareExchangeStrong e d =>
    by_cases he : a.value = e
    · simp [call, SeqAtomic.call, compareExchangeStrong, SeqAtomic.compareExchangeStrong, he]
    · exact absurd (by simp [SeqAtomic.call, SeqAtomic.compareExchangeStrong, he]) (h a.value)
  | _ => rfl

/-- A run in which no exchange of the reference fails gets the same replies and ends at the same
value. -/
theorem run_agree (a : NoAtomic T) (ops : List (Op T))
    (h : ∀ e, Reply.exchanged false e ∉ (SeqAtomic.run ⟨a.value⟩ ops).1) :
    SeqAtomic.run ⟨a.value⟩ ops = ((a.run ops).1, ⟨(a.run ops).2.value⟩) :=
  runCalls_sim (fun a : NoAtomic T => (⟨a.value⟩ : SeqAtomic T))
    (fun r => ∀ e, r ≠ .exchanged false e) call_agree a ops
    fun _ hr e he => h e (he ▸ hr)

/-- **`NoAtomic` refines `std::atomic` exactly on the runs without a failed exchange.** From the
same value, a sequence of calls gets the same replies, the contents of `expected` included, and
ends at the same value from `NoAtomic<T>` as from `std::atomic<T>` run by one thread, if and only
if no `compare_exchange_strong` of the latter's run fails. -/
theorem run_agree_iff (a : NoAtomic T) (ops : List (Op T)) :
    ((a.run ops).1 = (SeqAtomic.run ⟨a.value⟩ ops).1 ∧
        (a.run ops).2.value = (SeqAtomic.run ⟨a.value⟩ ops).2.value) ↔
      ∀ e, Reply.exchanged false e ∉ (SeqAtomic.run ⟨a.value⟩ ops).1 := by
  constructor
  · rintro ⟨hr, -⟩ e
    exact hr ▸ run_ne_failed a ops e
  · intro h
    rw [run_agree a ops h]
    exact ⟨rfl, rfl⟩

/-- **A compare-exchange that expects another value.** Constructed with `1`, asked to exchange
`0` for `2`: `NoAtomic` stores `2`, returns `true` and leaves `expected` at `0`, while
`std::atomic` keeps `1`, returns `false` and writes `1` into `expected`. -/
theorem compare_exchange_strong_ignores_expected :
    NoAtomic.run ⟨(1 : Nat)⟩ [.compareExchangeStrong 0 2] = ([.exchanged true 0], ⟨2⟩) ∧
      SeqAtomic.run ⟨(1 : Nat)⟩ [.compareExchangeStrong 0 2] = ([.exchanged false 1], ⟨1⟩) := by
  decide

end NoAtomic

end AllocatorBuilder
