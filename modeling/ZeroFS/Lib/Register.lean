import Mathlib.Data.List.Basic

/-!
# A register with conditional writes

The register keeps every value it has held. A write names the version it replaces and does nothing when that is no
longer current, so it may arrive late or several times and takes effect at most once. `Linked R log` relates each value
to those before it.
-/

namespace Register

open List

variable {α β : Type} {log : List α}

inductive PutMode
  | create
  | update (version : Nat)
  deriving DecidableEq

/-- The value and its version. -/
def current (log : List α) : Option (α × Nat) := log.getLast?.map fun x => (x, log.length - 1)

def accepts (log : List α) : PutMode → Bool
  | .create => log.isEmpty
  | .update v => log.length = v + 1

theorem current_eq {x : α} {v : Nat} (h : current log = some (x, v)) : log[v]? = some x ∧ log.length = v + 1 := by
  obtain ⟨y, hy, heq⟩ := Option.map_eq_some_iff.1 h
  obtain ⟨rfl, rfl⟩ := Prod.mk.inj heq
  have hpos : 0 < log.length := by
    rw [length_pos_iff]
    rintro rfl
    cases hy
  rw [getLast?_eq_getElem?] at hy
  exact ⟨hy, by omega⟩

theorem getElem?_append_of_some {n : Nat} {x : α} (l : List α) (h : log[n]? = some x) : (log ++ l)[n]? = some x := by
  obtain ⟨hn, _⟩ := List.getElem?_eq_some_iff.1 h
  rw [List.getElem?_append_left hn]
  exact h

theorem getElem?_snoc {d x : α} {n : Nat} (h : (log ++ [d])[n]? = some x) :
    log[n]? = some x ∨ (n = log.length ∧ x = d) := by
  rcases Nat.lt_or_ge n log.length with hn | hn
  · rw [List.getElem?_append_left hn] at h; exact .inl h
  rw [List.getElem?_append_right hn] at h
  obtain ⟨hlt, hx⟩ := List.getElem?_eq_some_iff.1 h
  simp only [length_cons, length_nil] at hlt
  have hzero : n - log.length = 0 := by omega
  refine .inr ⟨by omega, ?_⟩
  simp only [hzero, getElem_cons_zero] at hx
  exact hx.symm

/-- Each value is related to the one it replaced. -/
def Linked (R : List α → α → α → Prop) (log : List α) : Prop :=
  ∀ n r d, log[n]? = some r → log[n + 1]? = some d → R (log.take (n + 1)) r d

variable {R : List α → α → α → Prop} {log : List α}

theorem linked_singleton (x : α) : Linked R [x] := by
  intro n r d _ hd
  obtain ⟨hlt, _⟩ := List.getElem?_eq_some_iff.1 hd
  simp at hlt

theorem linked_nil : Linked R ([] : List α) := by
  intro n r d hr
  cases hr

theorem Linked.snoc {d : α} (h : Linked R log) (hd : ∀ n r, log.length = n + 1 → log[n]? = some r → R log r d) :
    Linked R (log ++ [d]) := by
  intro n r x hr hx
  obtain ⟨hlt, _⟩ := List.getElem?_eq_some_iff.1 hx
  have hn : n + 1 ≤ log.length := by
    simp only [length_append, length_cons, length_nil] at hlt
    omega
  rw [take_append_of_le_length hn]
  have hr' : log[n]? = some r := by
    rw [List.getElem?_append_left hn] at hr
    exact hr
  rcases getElem?_snoc hx with hx' | ⟨hlen, rfl⟩
  · exact h n r x hr' hx'
  · rw [take_of_length_le (by omega)]; exact hd n r hlen.symm hr'

/-- A measure that no step lowers never falls. -/
theorem Linked.le {f : α → Nat} (h : Linked R log) (hf : ∀ p r d, R p r d → f r ≤ f d) {i j : Nat} (hij : i ≤ j)
    {x y : α} (hx : log[i]? = some x) (hy : log[j]? = some y) : f x ≤ f y := by
  induction j generalizing y with
  | zero =>
    obtain rfl : i = 0 := Nat.le_zero.1 hij
    rw [hx] at hy
    cases hy
    exact Nat.le_refl _
  | succ j ih =>
    rcases Nat.lt_or_ge j i with hlt | hge
    · obtain rfl : i = j + 1 := by omega
      rw [hx] at hy
      cases hy
      exact Nat.le_refl _
    · obtain ⟨hlt, _⟩ := List.getElem?_eq_some_iff.1 hy
      have hz : log[j]? = some log[j] := List.getElem?_eq_getElem (by omega)
      exact Nat.le_trans (ih hge hz) (hf _ _ _ (h j _ y hz hy))

/-- Who has been replaced does not come back, when each value's owner is that of the value before it or a new one. -/
theorem Linked.contiguous {o : α → β} (h : Linked R log) (ho : ∀ p r d, R p r d → o d = o r ∨ ∀ x ∈ p, o x ≠ o d)
    {i j k : Nat} (hij : i < j) (hjk : j < k) {x y z : α} (hx : log[i]? = some x) (hy : log[j]? = some y)
    (hz : log[k]? = some z) (heq : o x = o z) : o y = o z := by
  induction k generalizing z with
  | zero => cases hjk
  | succ k ih =>
    obtain ⟨hlt, _⟩ := List.getElem?_eq_some_iff.1 hz
    have hw : log[k]? = some log[k] := List.getElem?_eq_getElem (by omega)
    rcases ho _ _ _ (h k _ z hw hz) with hsame | hnew
    · rcases Nat.lt_or_ge j k with hlt' | hge
      · rw [hsame]; exact ih hlt' hw (heq.trans hsame)
      obtain rfl : j = k := by omega
      rw [hw] at hy
      cases hy
      exact hsame.symm
    · obtain ⟨hi, hxi⟩ := List.getElem?_eq_some_iff.1 hx
      have hmem : x ∈ log.take (k + 1) := by
        rw [← hxi, mem_take_iff_getElem]
        exact ⟨i, by omega, rfl⟩
      exact absurd heq (hnew x hmem)

end Register
