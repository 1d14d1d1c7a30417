import Mathlib.Algebra.Order.Ring.Int
import Mathlib.Data.Option.Basic

/-!
# Runs of a partial step function

`step s a = none` says that the action is not enabled. `Reach step C s₀ t` says that some run from `s₀` ends in `t` with
every action on the way satisfying `C`. Concrete runs are computed with `run` and lifted by `reach_of_run`.
-/

namespace Machine

variable {σ α : Type} {step : σ → α → Option σ} {C : σ → α → Prop} {s₀ : σ}

/-- The states that runs from `s₀` reach when every step taken satisfies `C`. -/
inductive Reach (step : σ → α → Option σ) (C : σ → α → Prop) (s₀ : σ) : σ → Prop
  | init : Reach step C s₀ s₀
  | step {s t : σ} (a : α) : Reach step C s₀ s → C s a → step s a = some t → Reach step C s₀ t

/-- The condition that admits every step. -/
def anyStep (_ : σ) (_ : α) : Prop := True

instance (s : σ) (a : α) : Decidable (anyStep s a) := .isTrue trivial

theorem of_guard {c : Prop} [Decidable c] {s t : σ} (h : (if c then some s else none) = some t) : c ∧ s = t := by
  split at h
  · exact ⟨‹c›, Option.some.inj h⟩
  · cases h

theorem of_guard_not {c : Prop} [Decidable c] {s t : σ} (h : (if c then none else some s) = some t) : ¬c ∧ s = t := by
  split at h
  · cases h
  · exact ⟨‹¬c›, Option.some.inj h⟩

theorem of_slot {β : Type} {o : Option β} {p : β → Prop} [DecidablePred p] {k : β → Option σ} {t : σ}
    (h : (o.bind fun w => if p w then k w else none) = some t) : ∃ w, o = some w ∧ p w ∧ k w = some t := by
  obtain ⟨w, hw, hk⟩ := Option.bind_eq_some_iff.1 h
  split at hk
  · exact ⟨w, hw, ‹_›, hk⟩
  · cases hk

/-- **The invariant rule.** What holds initially and is kept by every admitted step holds in every reachable state. -/
theorem Reach.invariant {I : σ → Prop} (h0 : I s₀) (hstep : ∀ s a t, I s → C s a → step s a = some t → I t) {t : σ}
    (h : Reach step C s₀ t) : I t := by
  induction h with
  | init => exact h0
  | step a _ hc hs ih => exact hstep _ a _ ih hc hs

def run (step : σ → α → Option σ) : σ → List α → Option σ
  | s, [] => some s
  | s, a :: as => (step s a).bind fun t => run step t as

/-- The step function that refuses actions outside `C`. -/
def guarded (step : σ → α → Option σ) (C : σ → α → Prop) [∀ s a, Decidable (C s a)] (s : σ) (a : α) : Option σ :=
  if C s a then step s a else none

theorem run_guarded_cons [∀ s a, Decidable (C s a)] {s t : σ} {a : α} (hc : C s a) (hs : step s a = some t)
    (as : List α) : run (guarded step C) s (a :: as) = run (guarded step C) t as := by
  show (guarded step C s a).bind _ = _
  rw [guarded, if_pos hc, hs, Option.bind_some]

/-- A computed run of the guarded step function is a run whose steps satisfy `C`. -/
theorem reach_of_run [∀ s a, Decidable (C s a)] {s t : σ} (hs : Reach step C s₀ s) :
    ∀ {l : List α}, run (guarded step C) s l = some t → Reach step C s₀ t
  | [], h => by cases h; exact hs
  | a :: l, h => by
    obtain ⟨u, hu, hrest⟩ := Option.bind_eq_some_iff.1 h
    unfold guarded at hu
    split at hu
    · rename_i hc; exact reach_of_run (.step a hs hc hu) hrest
    · cases hu

/-- **The variant rule.** Where every admitted step keeps `I` and makes `m` smaller, a run takes at most `m` steps. -/
theorem run_length_le {I : σ → Prop} {m : σ → Nat} [∀ s a, Decidable (C s a)]
    (hstep : ∀ s a t, I s → C s a → step s a = some t → I t ∧ m t < m s) {s t : σ} (hs : I s) :
    ∀ {as : List α}, run (guarded step C) s as = some t → as.length + m t ≤ m s
  | [], h => by cases h; simp
  | a :: l, h => by
    obtain ⟨u, hu, hrest⟩ := Option.bind_eq_some_iff.1 h
    unfold guarded at hu
    split at hu
    · rename_i hc
      obtain ⟨hI, hlt⟩ := hstep s a u hs hc hu
      have := run_length_le hstep hI hrest
      rw [List.length_cons]
      omega
    · cases hu

end Machine
