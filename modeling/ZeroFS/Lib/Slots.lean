import Mathlib.Data.List.Basic

/-!
# Processes in a list

A system keeps its processes in a list and replaces one at a time: after `l.set i y` process `i` is `y` and the others
are as before.
-/

namespace Slots

variable {α : Type} {l l' : List α} {i k : Nat} {x y v : α} {P : Nat → α → Prop} {Q : α → Prop}

section

variable (hs : l' = l.set i y)
include hs

theorem get_set_ne (hk : k ≠ i) : l'[k]? = l[k]? := by rw [hs, List.getElem?_set_ne (Ne.symm hk)]

variable (h : l[i]? = some x)
include h

theorem get_set_self : l'[i]? = some y := by rw [hs, List.getElem?_set_self (List.getElem?_eq_some_iff.1 h).1]

theorem cases_set (hv : l'[k]? = some v) : (k = i ∧ v = y) ∨ (k ≠ i ∧ l[k]? = some v) := by
  by_cases hk : k = i
  · subst hk; rw [get_set_self hs h] at hv; exact .inl ⟨rfl, (Option.some.inj hv).symm⟩
  · rw [get_set_ne hs hk] at hv; exact .inr ⟨hk, hv⟩

theorem forall_set (hy : P i y) (hP : ∀ k v, k ≠ i → l[k]? = some v → P k v) (k : Nat) (v : α) (hv : l'[k]? = some v) :
    P k v := by
  rcases cases_set hs h hv with ⟨rfl, rfl⟩ | ⟨hk, hv⟩
  · exact hy
  · exact hP k v hk hv

theorem exists_set (hQ : Q x → Q y) (hex : ∃ v, l[k]? = some v ∧ Q v) : ∃ v, l'[k]? = some v ∧ Q v := by
  obtain ⟨v, hv, hq⟩ := hex
  by_cases hk : k = i
  · subst hk; cases h.symm.trans hv; exact ⟨y, get_set_self hs h, hQ hq⟩
  · exact ⟨v, by rw [get_set_ne hs hk, hv], hq⟩

theorem some_set (hex : k ≠ i → ∃ v, l[k]? = some v) : ∃ v, l'[k]? = some v := by
  by_cases hk : k = i
  · exact ⟨y, by rw [hk, get_set_self hs h]⟩
  · rw [get_set_ne hs hk]; exact hex hk

theorem any_set (hQ : Q x → Q y) (hex : ∃ (k : Nat) (v : α), l[k]? = some v ∧ Q v) :
    ∃ (k : Nat) (v : α), l'[k]? = some v ∧ Q v :=
  hex.imp fun _ => exists_set hs h hQ

end

theorem get_snoc (h : l[k]? = some v) : (l ++ [y])[k]? = some v := by
  rw [List.getElem?_append_left (List.getElem?_eq_some_iff.1 h).1, h]

theorem cases_snoc (hv : (l ++ [y])[k]? = some v) : l[k]? = some v ∨ (k = l.length ∧ v = y) := by
  rcases Nat.lt_or_ge k l.length with hk | hk
  · rw [List.getElem?_append_left hk] at hv; exact .inl hv
  rw [List.getElem?_append_right hk, List.getElem?_singleton] at hv
  split at hv
  · exact .inr ⟨by omega, (Option.some.inj hv).symm⟩
  · cases hv

theorem ne_length (h : l[k]? = some v) : k ≠ l.length := Nat.ne_of_lt (List.getElem?_eq_some_iff.1 h).1

end Slots
