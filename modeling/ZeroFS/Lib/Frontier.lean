import Mathlib.Data.List.Basic

/-!
# Frontiers

Numbers are recorded in any order; the frontier is the end of the prefix without a gap, and what is recorded out of turn
is pending until the numbers before it are there.
-/

/-- All numbers up to `through`, and some above it. -/
structure Frontier where
  through : Nat := 0
  pending : List Nat := []

namespace Frontier

variable {f : Frontier} {n m : Nat}

/-- The numbers next to the frontier are taken from the pending ones. -/
def absorb : Nat → Frontier → Frontier
  | 0, f => f
  | fuel + 1, f => if f.through + 1 ∈ f.pending then absorb fuel ⟨f.through + 1, f.pending.erase (f.through + 1)⟩ else f

/-- A number that may be pending already. -/
def insert (f : Frontier) (n : Nat) : Frontier :=
  absorb (f.pending.insert n).length { f with pending := f.pending.insert n }

def record (f : Frontier) (n : Nat) : Frontier := if n ≤ f.through then f else f.insert n

def Holds (f : Frontier) (n : Nat) : Prop := n ≤ f.through ∨ n ∈ f.pending

/-- The next number is not pending. -/
def Settled (f : Frontier) : Prop := f.through + 1 ∉ f.pending

theorem holds_absorb (fuel : Nat) : (absorb fuel f).Holds n ↔ f.Holds n := by
  induction fuel generalizing f with
  | zero => exact Iff.rfl
  | succ fuel ih =>
    rw [absorb]
    split
    · rename_i hmem
      rw [ih]
      unfold Holds
      dsimp only
      by_cases hn : n = f.through + 1
      · subst hn; simp [hmem]
      · rw [List.mem_erase_of_ne hn]; exact or_congr_left (by omega)
    · exact Iff.rfl

theorem settled_absorb (h : f.pending.length ≤ n) : (absorb n f).Settled := by
  induction n generalizing f with
  | zero =>
    unfold Settled absorb
    rw [List.length_eq_zero_iff.1 (Nat.le_zero.1 h)]
    exact List.not_mem_nil
  | succ fuel ih =>
    rw [absorb]
    split
    · rename_i hmem
      refine ih ?_
      rw [List.length_erase_of_mem hmem]
      omega
    · assumption

theorem holds_insert : (f.insert m).Holds n ↔ n = m ∨ f.Holds n := by
  unfold insert
  rw [holds_absorb]
  unfold Holds
  rw [List.mem_insert_iff]
  tauto

theorem settled_insert : (f.insert n).Settled := settled_absorb (Nat.le_refl _)

theorem holds_record : (f.record m).Holds n ↔ n ≤ f.through ∨ n = m ∨ f.Holds n := by
  unfold record
  split
  · constructor
    · tauto
    rintro (h | rfl | h)
    · exact .inl h
    · exact .inl ‹_›
    · exact h
  · rw [holds_insert]
    tauto

theorem settled_record (h : f.Settled) : (f.record n).Settled := by
  unfold record
  split
  · exact h
  · exact settled_insert

/-- A settled frontier reaches the end of what is recorded without a gap. -/
theorem le_through (hs : f.Settled) (h : ∀ m, 0 < m → m ≤ n → f.Holds m) : n ≤ f.through := by
  by_contra hlt
  rcases h (f.through + 1) (Nat.succ_pos _) (by omega) with hle | hmem
  · omega
  · exact hs hmem

end Frontier
