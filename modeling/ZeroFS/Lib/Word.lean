import Mathlib.Algebra.Order.Ring.Int
import Mathlib.Data.List.Range

/-!
# Machine arithmetic with faults

64-bit words as a compiled program computes with them. A build with overflow checks stops at a result that is not a
word; one without wraps it. Slicing outside a buffer stops either.
-/

namespace Word

/-- The number of words. -/
def radix : Nat := 2 ^ 64

theorem radix_eq : radix = 18446744073709551616 := rfl

-- Not tagged as definitional equalities: with those in a `simp` set the kernel runs the computation to compare it.
theorem ok_bind {ε α β : Type} (x : α) (f : α → Except ε β) : (Except.ok x >>= f) = f x := Eq.trans rfl rfl

theorem pure_eq {ε α : Type} (x : α) : (pure x : Except ε α) = .ok x := Eq.trans rfl rfl

inductive Fault
  | overflow
  | bounds
  deriving DecidableEq, Repr

/-- What the build does with a result that is not a word. -/
inductive Arith
  | checked
  | wrapping
  deriving DecidableEq, Repr

namespace Arith

variable (m : Arith) {a b : Nat}

def add (a b : Nat) : Except Fault Nat :=
  if a + b < radix then .ok (a + b)
  else match m with
    | checked => .error .overflow
    | wrapping => .ok ((a + b) % radix)

def mul (a b : Nat) : Except Fault Nat :=
  if a * b < radix then .ok (a * b)
  else match m with
    | checked => .error .overflow
    | wrapping => .ok (a * b % radix)

def sub (a b : Nat) : Except Fault Nat :=
  if b ≤ a then .ok (a - b)
  else match m with
    | checked => .error .overflow
    | wrapping => .ok (radix + a - b)

theorem add_of_lt (h : a + b < radix) : m.add a b = .ok (a + b) := if_pos h

theorem mul_of_lt (h : a * b < radix) : m.mul a b = .ok (a * b) := if_pos h

theorem sub_of_le (h : b ≤ a) : m.sub a b = .ok (a - b) := if_pos h

theorem checked_add_of_le (h : radix ≤ a + b) : checked.add a b = .error .overflow := if_neg (by omega)

end Arith

/-- `data[start..stop]`. -/
def slice {α : Type} (data : List α) (start stop : Nat) : Except Fault (List α) :=
  if start ≤ stop ∧ stop ≤ data.length then .ok ((data.take stop).drop start) else .error .bounds

/-- `f` at `n` indices from `i` on. -/
def traverse {α : Type} (f : Nat → Except Fault α) : (n i : Nat) → Except Fault (List α)
  | 0, _ => .ok []
  | n + 1, i => do
    let x ← f i
    let xs ← traverse f n (i + 1)
    return x :: xs

theorem traverse_ok {α : Type} {f : Nat → Except Fault α} {g : Nat → α} :
    ∀ {n i : Nat}, (∀ k, i ≤ k → k < i + n → f k = .ok (g k)) → traverse f n i = .ok ((List.range' i n).map g)
  | 0, _, _ => rfl
  | n + 1, i, h => by
    rw [traverse, h i (by omega) (by omega), traverse_ok fun k h1 h2 => h k (by omega) (by omega)]
    rfl

/-- A loop that ends has met no fault. -/
theorem ok_of_traverse_ok {α : Type} {f : Nat → Except Fault α} : ∀ {n i : Nat} {xs : List α}, traverse f n i = .ok xs →
    ∀ k, i ≤ k → k < i + n → ∃ x, f k = .ok x
  | 0, i, _, _, k, h1, h2 => by omega
  | n + 1, i, xs, h, k, h1, h2 => by
    cases hi : f i with
    | error e => rw [traverse, hi] at h; cases h
    | ok x =>
      cases hrest : traverse f n (i + 1) with
      | error e => rw [traverse, hi, hrest] at h; cases h
      | ok ys =>
        rcases Nat.lt_or_eq_of_le h1 with hlt | rfl
        · exact ok_of_traverse_ok hrest k hlt (by omega)
        · exact ⟨x, hi⟩

end Word
