import Mathlib.Data.List.Dedup
import ZeroFS.Lib.Table

/-!
# Updates in order

`Updates.newest` is the newest value that a list of keyed values gives to a key, and a table after these puts holds it.
In an overlay each owner installs its values and later retires those that no one has replaced.
-/

namespace Updates

variable {K V W : Type} [DecidableEq K] {l l' : List (K × V)} {k : K} {v : V}

def newest : List (K × V) → K → Option V
  | [], _ => none
  | p :: l, k => (newest l k).or (if p.1 = k then some p.2 else none)

@[simp] theorem newest_nil (k : K) : newest ([] : List (K × V)) k = none := rfl

theorem newest_append (l l' : List (K × V)) (k : K) : newest (l ++ l') k = (newest l' k).or (newest l k) := by
  induction l with
  | nil => simp
  | cons p l ih => rw [List.cons_append, newest, ih, newest, Option.or_assoc]

theorem newest_map (f : V → W) (l : List (K × V)) (k : K) :
    newest (l.map fun p => (p.1, f p.2)) k = (newest l k).map f := by
  induction l with
  | nil => rfl
  | cons p l ih => rw [List.map_cons, newest, newest, ih, Option.map_or]; split <;> rfl

theorem mem_of_newest (h : newest l k = some v) : (k, v) ∈ l := by
  induction l with
  | nil => cases h
  | cons p l ih =>
    rw [newest, Option.or_eq_some_iff] at h
    rcases h with h | ⟨_, h⟩
    · exact List.mem_cons_of_mem _ (ih h)
    split at h
    · rename_i hp
      cases h
      rw [← hp]
      exact List.mem_cons_self
    · cases h

theorem newest_eq_none_iff : newest l k = none ↔ ∀ p ∈ l, p.1 ≠ k := by
  induction l with
  | nil => simp
  | cons p l ih => rw [newest, Option.or_eq_none_iff, ih, List.forall_mem_cons, and_comm]; simp

theorem newest_of_mem (hn : (l.map Prod.fst).Nodup) (h : (k, v) ∈ l) : newest l k = some v := by
  induction l with
  | nil => cases h
  | cons p l ih =>
    rw [List.map_cons, List.nodup_cons] at hn
    rw [newest]
    rcases List.mem_cons.1 h with rfl | h
    · have hnone : newest l k = none :=
        newest_eq_none_iff.2 fun p hp e => hn.1 (List.mem_map.2 ⟨p, hp, e⟩)
      rw [hnone, if_pos rfl]
      rfl
    · rw [ih hn.2 h]; rfl

end Updates

namespace Table

open Updates

variable {K V : Type} [DecidableEq K] {t : Table K V} {k : K}

/-! ## Puts and removals -/

/-- Put a row, or remove it. -/
def set (t : Table K V) (k : K) : Option V → Table K V
  | some v => t.put k v
  | none => t.del k

def setAll (t : Table K V) (l : List (K × Option V)) : Table K V := l.foldl (fun t p => t.set p.1 p.2) t

theorem get_set (t : Table K V) (k' : K) (v : Option V) (k : K) :
    (t.set k' v).get k = if k = k' then v else t.get k := by
  cases v with
  | some v => exact get_put t k' v k
  | none => exact get_del t k' k

theorem sum_set (f : K → V → Nat) (t : Table K V) (k : K) (v : Option V) :
    (t.set k v).sum f + (t.get k).elim 0 (f k) = t.sum f + v.elim 0 (f k) := by
  cases v with
  | some v => exact sum_put f t k v
  | none => exact sum_del f t k

theorem get_setAll (l : List (K × Option V)) (t : Table K V) (k : K) :
    (t.setAll l).get k = (newest l k).getD (t.get k) := by
  induction l generalizing t with
  | nil => rfl
  | cons p l ih =>
    show ((t.set p.1 p.2).setAll l).get k = _
    rw [ih, newest]
    cases newest l k with
    | some v => rfl
    | none =>
      rw [get_set]
      by_cases h : k = p.1
      · rw [if_pos h, if_pos h.symm]; rfl
      · rw [if_neg h, if_neg (Ne.symm h)]; rfl

theorem newest_entries {W : Type} (t : Table K V) (f : K → V → W) (k : K) :
    newest (t.entries.map fun e => (e.1, f e.1 e.2)) k = (t.get k).map (f k) := by
  cases hget : t.get k with
  | none =>
    refine newest_eq_none_iff.2 ?_
    rintro p hp rfl
    obtain ⟨⟨k, v⟩, he, rfl⟩ := List.mem_map.1 hp
    rw [mem_entries.1 he] at hget
    cases hget
  | some v =>
    refine newest_of_mem ?_ (List.mem_map.2 ⟨⟨k, v⟩, mem_entries.2 hget, rfl⟩)
    rw [List.map_map]
    exact t.nodupKeys

/-- The rows of different keys are replaced: the sum loses the old ones and gains the new ones. -/
theorem sum_setAll (f : K → V → Nat) {l : List (K × Option V)} (hn : (l.map Prod.fst).Nodup) (t : Table K V) :
    (t.setAll l).sum f + (l.map fun p => (t.get p.1).elim 0 (f p.1)).sum =
      t.sum f + (l.map fun p => p.2.elim 0 (f p.1)).sum := by
  induction l generalizing t with
  | nil => rfl
  | cons p l ih =>
    rw [List.map_cons, List.nodup_cons] at hn
    have hrest : (l.map fun q => ((t.set p.1 p.2).get q.1).elim 0 (f q.1)) = l.map
        fun q => (t.get q.1).elim 0 (f q.1) := by
      refine List.map_congr_left fun q hq => ?_
      rw [get_set, if_neg]
      intro e
      exact hn.1 (List.mem_map.2 ⟨q, hq, e⟩)
    have hset := sum_set f t p.1 p.2
    have := ih hn.2 (t.set p.1 p.2)
    rw [hrest] at this
    have hsum : (t.setAll (p :: l)).sum f = ((t.set p.1 p.2).setAll l).sum f := rfl
    rw [hsum, List.map_cons, List.map_cons, List.sum_cons, List.sum_cons]
    omega

theorem get_foldl_put (l : List (K × V)) (t : Table K V) (k : K) :
    (l.foldl (fun t p => t.put p.1 p.2) t).get k = (newest l k).or (t.get k) := by
  have hmap : l.foldl (fun t p => t.put p.1 p.2) t = t.setAll (l.map fun p => (p.1, some p.2)) := by
    rw [setAll, List.foldl_map]
    rfl
  rw [hmap, get_setAll, newest_map]
  cases newest l k <;> rfl

/-! ## Sums over some of the rows -/

theorem sum_split (f : K → V → Nat) (t : Table K V) {l : List K} (hn : l.Nodup) :
    t.sum f = t.sum (fun k v => if k ∈ l then 0 else f k v) + (l.map fun k => (t.get k).elim 0 (f k)).sum := by
  induction l with
  | nil => simp
  | cons k l ih =>
    rw [List.nodup_cons] at hn
    rw [ih hn.2, List.map_cons, List.sum_cons]
    have h1 := sum_del (fun k v => if k ∈ l then 0 else f k v) t k
    have h2 := sum_del (fun k' v => if k' ∈ k :: l then 0 else f k' v) t k
    have hcongr : (t.del k).sum (fun k v => if k ∈ l then 0 else f k v) =
        (t.del k).sum (fun k' v => if k' ∈ k :: l then 0 else f k' v) := by
      refine sum_congr fun k' v hk' => ?_
      have hne : k' ≠ k := by
        rintro rfl
        rw [get_del_self] at hk'
        cases hk'
      simp [hne]
    have h3 : (t.get k).elim 0 (fun v => if k ∈ l then 0 else f k v) = (t.get k).elim 0 (f k) := by
      simp only [if_neg hn.1]
    have h4 : (t.get k).elim 0 (fun v => if k ∈ k :: l then 0 else f k v) = 0 := by
      cases t.get k <;> simp
    omega

theorem sum_eq_map (f : K → V → Nat) (t : Table K V) {l : List K} (hn : l.Nodup)
    (hl : ∀ k v, t.get k = some v → k ∈ l) : t.sum f = (l.map fun k => (t.get k).elim 0 (f k)).sum := by
  have hrest : t.sum (fun k v => if k ∈ l then 0 else f k v) = 0 := sum_eq_zero_iff.2 fun k v hk => if_pos (hl k v hk)
  rw [sum_split f t hn, hrest, Nat.zero_add]

theorem sum_congr_get {f : K → V → Nat} {g : K → W → Nat} {t : Table K V} {u : Table K W}
    (h : ∀ k, (t.get k).elim 0 (f k) = (u.get k).elim 0 (g k)) : t.sum f = u.sum g := by
  have hkeys : ∀ {X : Type} {w : Table K X} {k : K} {v : X}, w.get k = some v → k ∈ w.keys :=
    fun hk => List.mem_map.2 ⟨_, mem_entries.2 hk, rfl⟩
  have hn : (t.keys ++ u.keys).dedup.Nodup := List.nodup_dedup _
  rw [sum_eq_map f t hn fun k v hk => List.mem_dedup.2 (List.mem_append_left _ (hkeys hk)),
    sum_eq_map g u hn fun k v hk => List.mem_dedup.2 (List.mem_append_right _ (hkeys hk))]
  exact congrArg List.sum (List.map_congr_left fun k _ => h k)

/-! ## Overlays -/

section Overlay

variable {V : Type} {t : Table K (Nat × V)}

/-- Remove the rows that still carry one of the owned sequence numbers. -/
theorem get_retire (owned : List (K × Nat)) (t : Table K (Nat × V)) (k : K) :
    (owned.foldl (fun t o => if (t.get o.1).any (fun p => p.1 = o.2) then t.del o.1 else t) t).get k =
      if (t.get k).any (fun p => (k, p.1) ∈ owned) then none else t.get k := by
  induction owned generalizing t with
  | nil => simp
  | cons o owned ih =>
    rw [List.foldl_cons, ih]
    obtain ⟨i, q⟩ := o
    by_cases hk : k = i
    · subst hk
      cases hg : t.get k with
      | none => simp [hg]
      | some p =>
        by_cases hq : p.1 = q
        · simp [hq]
        · simp [hg, hq]
    · have hsame : (if (t.get i).any (fun p => decide (p.1 = q)) then t.del i else t).get k = t.get k := by
        split
        · exact get_del_ne hk
        · rfl
      rw [hsame]
      simp [hk]

/-- The oldest owner retires: what stays is the newest of the rest. -/
theorem get_retire_newest {mine rest : List (K × Nat × V)} (ht : ∀ k, t.get k = newest (mine ++ rest) k)
    (hdis : ∀ p ∈ mine, ∀ q ∈ rest, p.2.1 ≠ q.2.1) (k : K) :
    ((mine.map fun p => (p.1, p.2.1)).foldl (fun t o => if (t.get o.1).any (fun p => p.1 = o.2) then t.del o.1 else t)
      t).get k = newest rest k := by
  rw [get_retire, ht, newest_append]
  cases hrest : newest rest k with
  | some p =>
    rw [Option.some_or, if_neg]
    rw [Option.any_some, decide_eq_true_eq]
    intro hmem
    obtain ⟨q, hq, heq⟩ := List.mem_map.1 hmem
    exact hdis q hq _ (mem_of_newest hrest) (Prod.mk.inj heq).2
  | none =>
    rw [Option.none_or]
    cases hmine : newest mine k with
    | none => simp
    | some p =>
      rw [if_pos]
      rw [Option.any_some, decide_eq_true_eq]
      exact List.mem_map.2 ⟨(k, p), mem_of_newest hmine, rfl⟩

end Overlay

end Table
