import ZeroFS.Lib.Table

/-!
# Rooted graphs given by a table of edges

The row `(d, k) ↦ (i, c)` is an edge from `d` to `i`. A table is `Rooted` when every node with an outgoing edge is
reachable from the root; adding, removing and moving edges keep that under the conditions of `Rooted.put`, `Rooted.del`
and `Rooted.move`. `Above` is a path seen from its lower end.
-/

namespace Forest

open Table

variable {ι κ γ : Type} [DecidableEq ι] [DecidableEq κ]

abbrev Edges (ι κ γ : Type) := Table (ι × κ) (ι × γ)

/-- The nodes that paths of edges from the root reach. -/
inductive Reachable (e : Edges ι κ γ) (root : ι) : ι → Prop
  | root : Reachable e root root
  | edge {d i : ι} {k : κ} {c : γ} : Reachable e root d → e.get (d, k) = some (i, c) → Reachable e root i

/-- Every node with an outgoing edge is reachable. -/
def Rooted (e : Edges ι κ γ) (root : ι) : Prop := ∀ d k v, e.get (d, k) = some v → Reachable e root d

/-- `d` is above `b` on a path whose nodes all differ from `a`. -/
inductive Above (e : Edges ι κ γ) (a b : ι) : ι → Prop
  | refl : b ≠ a → Above e a b b
  | up {d j : ι} {k : κ} {c : γ} : Above e a b j → e.get (d, k) = some (j, c) → d ≠ a → Above e a b d

variable {e e' : Edges ι κ γ} {root a b d i j : ι} {k k' : κ} {c c' : γ}

/-! ## Paths -/

theorem Above.ne (h : Above e a b d) : d ≠ a := by
  cases h with
  | refl hb => exact hb
  | up _ _ hd => exact hd

theorem Above.occupied (h : Above e a b d) : d = b ∨ ∃ k v, e.get (d, k) = some v := by
  cases h with
  | refl _ => exact .inl rfl
  | up _ he _ => exact .inr ⟨_, _, he⟩

/-- A path survives when the edges to its nodes do. -/
theorem Above.kept (h : Above e a b d)
    (hkeep : ∀ d k j c, e.get (d, k) = some (j, c) → j ≠ a → (j = b ∨ ∃ k v, e.get (j, k) = some v) →
      e'.get (d, k) = some (j, c)) : Above e' a b d := by
  induction h with
  | refl hb => exact .refl hb
  | up hj he hd ih => exact .up ih (hkeep _ _ _ _ he hj.ne hj.occupied) hd

theorem Above.reachable (h : Above e a b d) (hd : Reachable e root d) : Reachable e root b := by
  induction h with
  | refl _ => exact hd
  | up _ he _ ih => exact ih (hd.edge he)

theorem Reachable.mono (h : Reachable e root i)
    (hsub : ∀ d k v, e.get (d, k) = some v → e'.get (d, k) = some v) : Reachable e' root i := by
  induction h with
  | root => exact .root
  | edge _ he ih => exact ih.edge (hsub _ _ _ he)

/-- A set of nodes that no edge enters from outside is not reachable. -/
theorem Reachable.not_mem {S : ι → Prop} (h : Reachable e root i) (hroot : ¬S root)
    (hclosed : ∀ d k i c, e.get (d, k) = some (i, c) → S i → S d) : ¬S i := by
  induction h with
  | root => exact hroot
  | edge _ he ih => exact fun hi => ih (hclosed _ _ _ _ he hi)

theorem Reachable.del (h : Reachable e root j) (he : e.get (d, k) = some (i, c)) (hi : ∀ k v, e.get (i, k) ≠ some v)
    (hj : j ≠ i) : Reachable (e.del (d, k)) root j := by
  induction h with
  | root => exact .root
  | edge _ hedge ih =>
    refine (ih fun hd => hi _ _ (hd ▸ hedge)).edge ((get_del_ne fun hkey => hj ?_).trans hedge)
    rw [hkey, he] at hedge
    cases hedge
    rfl

/-! ## Edits that keep a table rooted -/

theorem Rooted.put (h : Rooted e root) (hd : Reachable e root d) (hfree : e.get (d, k) = none) (v : ι × γ) :
    Rooted (e.put (d, k) v) root := by
  have hmono : ∀ j, Reachable e root j → Reachable (e.put (d, k) v) root j := by
    intro j hj
    refine hj.mono fun d' k' v' he => ?_
    rw [get_put_ne]
    · exact he
    intro hkey
    rw [hkey, hfree] at he
    cases he
  intro d' k' v' he
  rw [get_put] at he
  split at he
  · rename_i hkey; cases hkey; exact hmono _ hd
  · exact hmono _ (h d' k' v' he)

theorem Rooted.del (h : Rooted e root) (he : e.get (d, k) = some (i, c)) (hi : ∀ k v, e.get (i, k) ≠ some v) :
    Rooted (e.del (d, k)) root := by
  intro d' k' v' he'
  obtain ⟨-, he'⟩ := of_del he'
  exact (h d' k' v' he').del he hi fun hd => hi _ _ (hd ▸ he')

/-- **Moving a subtree** below a node that is reachable without passing through it. -/
theorem Rooted.move (h : Rooted e root) (he : e.get (d, k) = some (i, c)) (hb : Above e i b root)
    (hfree : e.get (b, k') = none) : Rooted ((e.del (d, k)).put (b, k') (i, c')) root := by
  -- every edge but the moved one is still there
  have hkeep : ∀ d₁ k₁ j c₁, e.get (d₁, k₁) = some (j, c₁) → (d₁, k₁) ≠ (d, k) →
      ((e.del (d, k)).put (b, k') (i, c')).get (d₁, k₁) = some (j, c₁) := by
    intro d₁ k₁ j c₁ he₁ hkey
    rw [get_put_ne, get_del_ne hkey]
    · exact he₁
    intro hkey'
    rw [hkey', hfree] at he₁
    cases he₁
  have hreach : Reachable ((e.del (d, k)).put (b, k') (i, c')) root b := by
    refine (hb.kept fun d₁ k₁ j c₁ he₁ hj _ => hkeep d₁ k₁ j c₁ he₁ fun hkey => hj ?_).reachable .root
    rw [hkey, he] at he₁
    cases he₁
    rfl
  have hall : ∀ j, Reachable e root j → Reachable ((e.del (d, k)).put (b, k') (i, c')) root j := by
    intro j hj
    induction hj with
    | root => exact .root
    | @edge d₁ j k₁ c₁ _ he₁ ih =>
      by_cases hkey : (d₁, k₁) = (d, k)
      · rw [hkey, he] at he₁; cases he₁; exact hreach.edge (get_put_self ..)
      · exact ih.edge (hkeep d₁ k₁ j c₁ he₁ hkey)
  intro d₁ k₁ v he₁
  rw [get_put] at he₁
  split at he₁
  · rename_i hkey; cases hkey; exact hreach
  · obtain ⟨-, he₁⟩ := of_del he₁; exact hall _ (h d₁ k₁ v he₁)

end Forest
