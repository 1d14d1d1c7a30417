import Mathlib.Algebra.Order.Ring.Int

/-!
# Machine integers and errors

The `u64` and `i64` counters are natural numbers and integers, with the bounds written out where the source checks or
saturates.
-/

namespace ZeroFS

def u64Max : Nat := 2 ^ 64 - 1

def u32Max : Nat := 2 ^ 32 - 1

def checkedAdd (a b : Nat) : Option Nat := if a + b ≤ u64Max then some (a + b) else none

def checkedSub (a b : Nat) : Option Nat := if b ≤ a then some (a - b) else none

theorem checkedAdd_of_le {a b : Nat} (h : a + b ≤ u64Max) : checkedAdd a b = some (a + b) := if_pos h

theorem checkedAdd_of_lt {a b : Nat} (h : u64Max < a + b) : checkedAdd a b = none := if_neg (by omega)

theorem checkedAdd_eq_some {a b c : Nat} : checkedAdd a b = some c ↔ a + b ≤ u64Max ∧ c = a + b := by
  unfold checkedAdd
  grind

theorem checkedSub_of_le {a b : Nat} (h : b ≤ a) : checkedSub a b = some (a - b) := if_pos h

theorem checkedSub_eq_some {a b c : Nat} : checkedSub a b = some c ↔ b ≤ a ∧ c = a - b := by
  unfold checkedSub
  grind

inductive FsError
  | permissionDenied | operationNotPermitted | notFound | exists | invalidArgument | ioError | notEmpty | tooManyLinks
  | noSpace | retryLater | isDirectory | notDirectory | nameTooLong | notSupported | staleHandle | invalidData
  | readOnlyFilesystem | leaderLeaseExpired | leaderRejectedBeforeApply | shuttingDown
  deriving DecidableEq, Repr

/-! ## Refusals -/

/-- `if c { return Err(e) }`. -/
def throwIf (c : Prop) [Decidable c] (e : FsError) : Except FsError Unit := if c then throw e else pure ()

def checkIf (c : Prop) [Decidable c] (check : Except FsError Unit) : Except FsError Unit := if c then check else pure ()

@[simp] theorem throwIf_eq_ok {c : Prop} [Decidable c] {e : FsError} {u : Unit} : throwIf c e = .ok u ↔ ¬c := by
  unfold throwIf
  split
  · exact ⟨nofun, fun h => absurd ‹c› h⟩
  · exact ⟨fun _ => ‹¬c›, fun _ => rfl⟩

theorem bind_eq_ok {ε α β : Type} {x : Except ε α} {f : α → Except ε β} {b : β} :
    (x >>= f) = .ok b ↔ ∃ a, x = .ok a ∧ f a = .ok b := by
  cases x with
  | error e => exact ⟨nofun, nofun⟩
  | ok a => refine ⟨fun h => ⟨a, rfl, h⟩, ?_⟩; rintro ⟨_, ⟨rfl⟩, hf⟩; exact hf

end ZeroFS
