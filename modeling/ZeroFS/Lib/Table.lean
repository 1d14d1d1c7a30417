import Mathlib.Data.List.AList
import Mathlib.Algebra.BigOperators.Group.List.Basic
import Mathlib.Algebra.Order.BigOperators.Group.List
import Mathlib.Algebra.Order.Group.Nat
import Mathlib.Algebra.Order.Ring.Int

/-!
# Finite tables with sums

An association list without duplicate keys (`AList`), and sums of a weight over its rows: one row more or less changes
the sum by its weight, so conservation laws reduce to arithmetic. `count` is the sum of an indicator.
-/

/-- A finite map from `K` to `V`. -/
abbrev Table (K V : Type) := AList fun _ : K => V

namespace Table

variable {K V : Type} {w : V}

def empty : Table K V := ∅

def sum (f : K → V → Nat) (t : Table K V) : Nat := (t.entries.map fun e => f e.1 e.2).sum

def count (p : K → V → Prop) [∀ k v, Decidable (p k v)] (t : Table K V) : Nat :=
  sum (fun k v => if p k v then 1 else 0) t

@[simp] theorem sum_empty (f : K → V → Nat) : sum f (empty : Table K V) = 0 := rfl

@[simp] theorem count_empty (p : K → V → Prop) [∀ k v, Decidable (p k v)] : count p (empty : Table K V) = 0 := rfl

variable [DecidableEq K] {t : Table K V} {k k' : K} {v : V}

def get (t : Table K V) (k : K) : Option V := AList.lookup k t

def put (t : Table K V) (k : K) (v : V) : Table K V := AList.insert k v t

def del (t : Table K V) (k : K) : Table K V := AList.erase k t

/-! ## Lookups -/

@[simp] theorem get_empty (k : K) : (empty : Table K V).get k = none := rfl

@[grind =] theorem get_put (t : Table K V) (k' : K) (v : V) (k : K) :
    (t.put k' v).get k = if k = k' then some v else t.get k := by
  split
  · rename_i h; subst h; exact AList.lookup_insert t
  · rename_i h; exact AList.lookup_insert_ne h

@[grind =] theorem get_del (t : Table K V) (k' k : K) : (t.del k').get k = if k = k' then none else t.get k := by
  split
  · rename_i h; subst h; exact AList.lookup_erase k t
  · rename_i h; exact AList.lookup_erase_ne h

@[simp] theorem get_put_self (t : Table K V) (k : K) (v : V) : (t.put k v).get k = some v := by simp [get_put]

@[simp] theorem get_del_self (t : Table K V) (k : K) : (t.del k).get k = none := by simp [get_del]

theorem get_put_ne (h : k ≠ k') : (t.put k' v).get k = t.get k := by simp [get_put, h]

theorem get_del_ne (h : k ≠ k') : (t.del k').get k = t.get k := by simp [get_del, h]

theorem cases_put (h : (t.put k' v).get k = some w) : (k = k' ∧ w = v) ∨ (k ≠ k' ∧ t.get k = some w) := by
  rw [get_put] at h
  split at h
  · exact .inl ⟨‹_›, (Option.some.inj h).symm⟩
  · exact .inr ⟨‹_›, h⟩

theorem of_del (h : (t.del k').get k = some w) : k ≠ k' ∧ t.get k = some w := by
  rw [get_del] at h
  split at h
  · cases h
  · exact ⟨‹_›, h⟩

/-- A value that is neither put nor replaced stands where it stood. -/
theorem get_put_iff (hnew : v ≠ w) (hold : t.get k' ≠ some w) : (t.put k' v).get k = some w ↔ t.get k = some w := by
  by_cases hk : k = k'
  · subst hk; simp [hnew, hold]
  · rw [get_put_ne hk]

theorem get_del_iff (hold : t.get k' ≠ some w) : (t.del k').get k = some w ↔ t.get k = some w := by
  by_cases hk : k = k'
  · subst hk; simp [hold]
  · rw [get_del_ne hk]

theorem mem_entries : (⟨k, v⟩ : Sigma fun _ : K => V) ∈ t.entries ↔ t.get k = some v := AList.mem_lookup_iff.symm

/-! ## Keeping and changing rows -/

section FilterMap

variable {W : Type}

omit [DecidableEq K] in
theorem nodupKeys_filterMap (f : K → V → Option W) : ∀ {l : List (Sigma fun _ : K => V)}, l.NodupKeys →
    (l.filterMap fun e => (f e.1 e.2).map fun w => (⟨e.1, w⟩ : Sigma fun _ : K => W)).NodupKeys
  | [], _ => List.nodupKeys_nil
  | ⟨k, v⟩ :: l, h => by
    have ih := nodupKeys_filterMap f (List.nodupKeys_cons.1 h).2
    cases hf : f k v with
    | none => simpa [List.filterMap_cons, hf] using ih
    | some w =>
      simp only [List.filterMap_cons, hf, Option.map_some]
      refine List.nodupKeys_cons.2 ⟨fun hmem => (List.nodupKeys_cons.1 h).1 ?_, ih⟩
      obtain ⟨w', hw'⟩ := List.exists_of_mem_keys hmem
      obtain ⟨e, he, hew⟩ := List.mem_filterMap.1 hw'
      obtain ⟨_, _, heq⟩ := Option.map_eq_some_iff.1 hew
      cases heq
      exact List.mem_keys_of_mem (s := e) he

omit [DecidableEq K] in
/-- The rows that `f` keeps, with the values that it gives them. -/
def filterMapVals (f : K → V → Option W) (t : Table K V) : Table K W :=
  ⟨_, nodupKeys_filterMap f t.nodupKeys⟩

theorem get_filterMapVals (f : K → V → Option W) (t : Table K V) (k : K) :
    (t.filterMapVals f).get k = (t.get k).bind (f k) := by
  apply Option.ext
  intro w
  rw [← mem_entries]
  simp only [filterMapVals, List.mem_filterMap, Option.map_eq_some_iff]
  constructor
  · rintro ⟨e, he, w', hw', heq⟩
    cases heq
    rw [mem_entries.1 he]
    exact hw'
  · intro h
    obtain ⟨v, hv, hw⟩ := Option.bind_eq_some_iff.1 h
    exact ⟨⟨k, v⟩, mem_entries.2 hv, w, hw, rfl⟩

end FilterMap

/-! ## Sums over the rows -/

theorem sum_kerase (f : K → V → Nat) (k : K) : ∀ {l : List (Sigma fun _ : K => V)}, l.NodupKeys →
    ((l.kerase k).map fun e => f e.1 e.2).sum + ((l.dlookup k).elim 0 (f k)) = (l.map fun e => f e.1 e.2).sum
  | [], _ => rfl
  | ⟨k₀, v₀⟩ :: l, h => by
    by_cases hk : k = k₀
    · subst hk; simp [Nat.add_comm]
    have ih := sum_kerase f k (List.nodupKeys_cons.1 h).2
    rw [List.kerase_cons_ne hk, List.dlookup_cons_ne _ _ hk]
    simp only [List.map_cons, List.sum_cons]
    omega

theorem sum_del (f : K → V → Nat) (t : Table K V) (k : K) :
    (t.del k).sum f + (t.get k).elim 0 (f k) = t.sum f := sum_kerase f k t.nodupKeys

theorem sum_put (f : K → V → Nat) (t : Table K V) (k : K) (v : V) :
    (t.put k v).sum f + (t.get k).elim 0 (f k) = t.sum f + f k v := by
  have h := sum_kerase f k t.nodupKeys
  have hput : (t.put k v).sum f = f k v + ((t.entries.kerase k).map fun e => f e.1 e.2).sum := rfl
  rw [hput]
  unfold get AList.lookup sum
  omega

theorem sum_congr {f g : K → V → Nat} (h : ∀ k v, t.get k = some v → f k v = g k v) : t.sum f = t.sum g := by
  unfold sum
  congr 1
  exact List.map_congr_left fun e he => h e.1 e.2 (mem_entries.1 he)

theorem sum_le_sum {f g : K → V → Nat} (h : ∀ k v, t.get k = some v → f k v ≤ g k v) : t.sum f ≤ t.sum g :=
  List.sum_le_sum fun e he => h e.1 e.2 (mem_entries.1 he)

theorem le_sum (f : K → V → Nat) (h : t.get k = some v) : f k v ≤ t.sum f := by
  have := sum_del f t k
  rw [h, Option.elim_some] at this
  omega

theorem sum_eq_zero_iff {f : K → V → Nat} : t.sum f = 0 ↔ ∀ k v, t.get k = some v → f k v = 0 := by
  constructor
  · intro h k v hk; have := le_sum f hk; omega
  · intro h; rw [sum_congr (g := fun _ _ => 0) h]; simp [sum]

section Count

variable {p q : K → V → Prop} [∀ k v, Decidable (p k v)] [∀ k v, Decidable (q k v)]

theorem count_del (t : Table K V) (k : K) :
    (t.del k).count p + (t.get k).elim 0 (fun v => if p k v then 1 else 0) = t.count p := sum_del _ t k

theorem count_put (t : Table K V) (k : K) (v : V) :
    (t.put k v).count p + (t.get k).elim 0 (fun v => if p k v then 1 else 0) = t.count p + if p k v then 1 else 0 :=
  sum_put _ t k v

theorem count_put_new (h : t.get k = none) : (t.put k v).count p = t.count p + if p k v then 1 else 0 := by
  have := count_put (p := p) t k v
  simpa [h] using this

theorem count_del_of (h : t.get k = some v) : (t.del k).count p + (if p k v then 1 else 0) = t.count p := by
  have := count_del (p := p) t k
  simpa [h] using this

theorem count_congr (h : ∀ k v, t.get k = some v → (p k v ↔ q k v)) : t.count p = t.count q :=
  sum_congr fun k v hk => by simp [h k v hk]

theorem count_pos (h : t.get k = some v) (hp : p k v) : 0 < t.count p := by
  have := le_sum (fun k v => if p k v then 1 else 0) h
  simp only [hp, if_true] at this
  exact this

theorem count_eq_zero_iff : t.count p = 0 ↔ ∀ k v, t.get k = some v → ¬p k v := by
  unfold count
  rw [sum_eq_zero_iff]
  exact forall₂_congr fun k v => by simp

end Count

end Table
