import ZeroFS.Pipeline.View

/-!
# The states that queued transactions can lead to

Any queued transaction may be rejected, so a property that survives rejected batches is stated for the state after every
sublist of the queue (`Everywhere`).
-/

namespace ZeroFS

open Updates

namespace Sys

variable {sealedLen : Extent → Nat} {s s' : Sys} {a : Action}

/-- What the calls of a list do not touch is as committed. -/
theorem after_inode_of_not_mem {id : InodeId} {l : List Nat}
    (h : ∀ t ∈ l, ∀ c, s.At t c → ∀ u ∈ c.txn.inodes, u.id ≠ id) : (s.after l).inode id = s.db.inodes.get id := by
  unfold after
  rw [← Db.view_applyBatch]
  show (s.db.applyBatch (s.txnsOf l)).inodes.get id = _
  rw [Db.get_inodes_applyBatch, newest_eq_none_iff.2]
  · rfl
  intro p hp
  obtain ⟨txn, htxn, hp⟩ := List.mem_flatMap.1 hp
  obtain ⟨t, ht, htx⟩ := List.mem_filterMap.1 htxn
  obtain ⟨c, hc, rfl⟩ := Option.map_eq_some_iff.1 htx
  obtain ⟨u, hu, rfl⟩ := List.mem_map.1 hp
  exact h t ht c hc u hu

theorem after_frame_of_not_mem {key : InodeId × Nat} {l : List Nat} (h : ∀ e ∈ s.editsOf l, e.key ≠ key) :
    (s.after l).frame key = s.db.extents.get key := by
  unfold after
  rw [← Db.view_applyBatch]
  exact Db.get_extents_applyBatch_of_not_mem h

end Sys

/-- `B` holds of every state that the queue can lead to, and `Q` of each call that plans or stages, in each of them. -/
structure Everywhere (B : View → Prop) (Q : View → Call → Prop) (s : Sys) : Prop where
  base : ∀ l, l.Sublist s.unapplied → B (s.after l)
  call : ∀ l, l.Sublist s.unapplied → ∀ t c, s.At t c → c.phase.planning → Q (s.after l) c

namespace Sys

variable {sealedLen : Extent → Nat} {s s' : Sys} {a : Action} {tid : Nat}

/-- Every state that `s'` can lead to is one that `s` can lead to, or one with the submitted transaction on top. -/
def Derives (s : Sys) (a : Action) (s' : Sys) : Prop :=
  ∀ l, l.Sublist s'.unapplied → (∃ l', l'.Sublist s.unapplied ∧ s'.after l = s.after l') ∨
    ∃ tid c l', a = .submit tid ∧ s.At tid c ∧ c.phase = .staging [] ∧ l'.Sublist s.unapplied ∧
      s'.after l = (s.after l').apply c.txn

theorem derives_put {c' : Call} (hcalls : s'.calls = s.calls.put tid c') (hdb : s'.db = s.db)
    (hun : s'.unapplied = s.unapplied) (hn : tid ∉ s.unapplied) : Derives s a s' := by
  intro l hl
  rw [hun] at hl
  exact .inl ⟨l, hl, after_put hcalls hdb fun hm => hn (hl.subset hm)⟩

/-- A submitted transaction may be the last one of those that are applied. -/
theorem derives_submit {c : Call} (hord : Ordered s) (he : Enqueued s s' tid c) : Derives s (.submit tid) s' := by
  intro l hl
  rcases he.sublist_cases hl with h | ⟨l₀, rfl, h⟩
  · exact .inl ⟨l, h, he.after_old hord h⟩
  · exact .inr ⟨tid, c, l₀, rfl, he.get, he.phase, h, he.after_new hord h⟩

/-- **The states after a step.** -/
theorem step_derives (hord : Ordered s) (hs : Stepped sealedLen s a s') : Derives s a s' := by
  cases hs.moved hord with
  | edit he => exact derives_put he.calls he.db he.unapplied (he.not_mem_unapplied hord)
  | shift hm => exact fun l hl => .inl ⟨l, hl.trans hm.sublist, after_congr hm.db fun t _ => by rw [hm.calls]⟩
  | submit he => exact derives_submit hord he
  | @apply batch hw =>
    intro l hl
    refine .inl ⟨batch ++ l, ?_, after_applyBatch batch l rfl rfl⟩
    rw [unapplied_drained hw]
    exact List.Sublist.append_left hl batch
  | settle hw hc hp =>
    obtain ⟨hun, hnot⟩ := unapplied_settling hord hw
    exact derives_put rfl rfl hun.symm hnot
  | answer hr => exact derives_put hr.calls hr.db hr.unapplied (unapplied_sending hord hr.sending).2

end Sys

namespace Everywhere

variable {sealedLen : Extent → Nat} {s s' : Sys} {a : Action} {B : View → Prop} {Q : View → Call → Prop}

theorem submit {tid : Nat} {c : Call} (h : Everywhere B Q s) (hso : Sound s) (hd : Sys.Derives s (.submit tid) s')
    (hlocal : ∀ v v' c, CallOk c → View.AgreeOn c.ids v v' → Q v c → Q v' c) (he : Sys.Enqueued s s' tid c)
    (hB : ∀ l, l.Sublist s.unapplied → B ((s.after l).apply c.txn)) : Everywhere B Q s' := by
  refine ⟨fun l hl => ?_, fun l hl t u hu hpl => ?_⟩
  · rcases hd l hl with ⟨l', hl', heq⟩ | ⟨tid', c', l', htid, hc', _, hl', heq⟩
    · exact heq ▸ h.base l' hl'
    cases htid
    cases he.get.symm.trans hc'
    exact heq ▸ hB l' hl'
  · rcases Sys.cases_at he.calls hu with ⟨-, rfl⟩ | ⟨hne, hu⟩
    · exact absurd hpl id
    rcases hd l hl with ⟨l', hl', heq⟩ | ⟨tid', c', l', htid, hc', _, hl', heq⟩
    · exact heq ▸ h.call l' hl' t u hu hpl
    cases htid
    cases he.get.symm.trans hc'
    rw [heq]
    exact hlocal _ _ u (hso.separated.call t u hu) (Viewed.agree_of_locked hso hu hpl he.get he.planning hne _)
      (h.call l' hl' t u hu hpl)

/-- **The rule.** A property of every state that the queue can lead to is kept when planning and staging establish it
and a submitted transaction keeps it, whichever batches are rejected. -/
theorem step (h : Everywhere B Q s) (hso : Sound s) (hs : Sys.Stepped sealedLen s a s')
    (hlocal : ∀ v v' c, CallOk c → View.AgreeOn c.ids v v' → Q v c → Q v' c)
    (hplans : Sys.Plans sealedLen s a fun c => ∀ l, l.Sublist s.unapplied → Q (s.after l) c)
    (hsubmit : ∀ tid c, s.At tid c → c.phase = .staging [] → ∀ l, l.Sublist s.unapplied →
      B ((s.after l).apply c.txn)) : Everywhere B Q s' := by
  have hd := Sys.step_derives hso.ordered hs
  have hcalls := hplans.step hs fun t c hc hp l hl => h.call l hl t c hc hp
  have hkeep : (∀ l, l.Sublist s'.unapplied → ∃ l', l'.Sublist s.unapplied ∧ s'.after l = s.after l') →
      Everywhere B Q s' := by
    refine fun hfrom => ⟨fun l hl => ?_, fun l hl t c hc hp => ?_⟩
    · obtain ⟨l', hl', heq⟩ := hfrom l hl; exact heq ▸ h.base l' hl'
    · obtain ⟨l', hl', heq⟩ := hfrom l hl; exact heq ▸ hcalls t c hc hp l' hl'
  by_cases hsub : ∃ tid, a = .submit tid
  · obtain ⟨tid, rfl⟩ := hsub
    cases hs with
    | noop hc hp he =>
      have hnot := Sys.not_mem_unapplied hso.ordered hc (.inr (.inr ⟨_, hp⟩))
      exact hkeep fun l hl => ⟨l, hl, Sys.after_put (by rfl) (by rfl) fun hm => hnot (hl.subset hm)⟩
    | submit hc hp he => exact h.submit hso hd hlocal ⟨hc, hp, rfl, rfl, rfl, rfl, rfl, rfl, rfl⟩ (hsubmit _ _ hc hp)
  · refine hkeep fun l hl => (hd l hl).resolve_right ?_
    rintro ⟨tid, _, _, ha, _⟩
    exact hsub ⟨tid, ha⟩

end Everywhere

end ZeroFS
