import ZeroFS.Pipeline.Exact

/-!
# Sizes never fall while writes are queued

A write releases its inode lock when it is submitted, so several may be queued. `Steady`: each of them leaves the file
at least as long as whatever part of the queue before it is applied, and a reader sees the longest of these sizes. A
call that keeps its lock while queued is the last one on its inode (`HeldLast`).
-/

namespace ZeroFS

open Updates List Table

/-- A submitted call has locked the inode. -/
def Locked (s : Sys) (id : InodeId) : Prop := ∃ t c, s.At t c ∧ c.phase.submitted ∧ id ∈ c.held

/-- Queued writes never shorten the file. -/
structure Steady (s : Sys) (id : InodeId) : Prop where
  mono : ∀ l l', (l ++ l').Sublist s.unapplied → Grows ((s.after l).inode id) ((s.after (l ++ l')).inode id)
  visible : ∀ l, l.Sublist s.unapplied → Grows ((s.after l).inode id) (s.visible id)

/-- A later call of the queue works on other inodes than those that an earlier one has still locked. -/
def HeldLast (s : Sys) : Prop :=
  s.unsent.Pairwise fun t t' => ∀ c c', s.At t c → s.At t' c' → ∀ id ∈ c.held, id ∉ c'.ids

namespace Sys

variable {sealedLen : Extent → Nat} {s s' : Sys} {a : Action}

/-! ## The last call on a locked inode -/

variable {tid : Nat} {c' c : Call}

theorem heldLast_congr (h : HeldLast s) (hun : s'.unsent.Sublist s.unsent)
    (hcalls : ∀ t ∈ s'.unsent, ∀ c', s'.At t c' → ∃ c, s.At t c ∧ c'.held ⊆ c.held ∧ c'.ids = c.ids) :
    HeldLast s' := by
  refine List.Pairwise.imp_of_mem ?_ (h.sublist hun)
  intro t t' ht ht' hrel c c' hc hc' id hid
  obtain ⟨d, hd, hheld, _⟩ := hcalls t ht c hc
  obtain ⟨d', hd', _, hids⟩ := hcalls t' ht' c' hc'
  rw [hids]
  exact hrel d d' hd hd' id (hheld hid)

theorem heldLast_submit (h : HeldLast s) (hso : Sound s) (he : Enqueued s s' tid c) : HeldLast s' := by
  have hnot := not_mem_unsent hso.ordered he.get he.unsubmitted
  have hold : ∀ t ∈ s.unsent, ∀ {u}, s'.At t u → s.At t u := fun t ht _ => (at_put_ne he.calls fun e => hnot (e ▸ ht)).1
  unfold HeldLast
  rw [he.unsent, pairwise_append]
  refine ⟨List.Pairwise.imp_of_mem ?_ h, pairwise_singleton _ _, ?_⟩
  · intro t t' ht ht' hrel u u' hu hu'; exact hrel u u' (hold t ht hu) (hold t' ht' hu')
  intro t ht t' ht' u u' hu hu' id hid hid'
  rw [mem_singleton.1 ht'] at hu'
  cases he.get_new.symm.trans hu'
  replace hu := hold t ht hu
  have hne : t ≠ tid := fun e => hnot (e ▸ ht)
  exact hso.separated.exclusive t tid u c hu he.get hne id hid
    (Viewed.ids_held (hso.separated.call tid c he.get) he.planning hid')

theorem step_heldLast (h : HeldLast s) (hso : Sound s) (hs : Stepped sealedLen s a s') : HeldLast s' := by
  have hord := hso.ordered
  cases hs.moved hord with
  | @edit _ _ tid c' he =>
    refine heldLast_congr h (by rw [he.unsent]) fun t ht u hu => ?_
    have hne : t ≠ tid := fun e => he.not_mem_unsent hord (by rw [← he.unsent, ← e]; exact ht)
    exact ⟨u, (at_put_ne he.calls hne).1 hu, List.Subset.refl _, rfl⟩
  | shift hm =>
    exact heldLast_congr h (by rw [hm.unsent]) fun t _ u hu => ⟨u, at_eq hm.calls ▸ hu, List.Subset.refl _, rfl⟩
  | submit he => exact heldLast_submit h hso he
  | @apply batch hw =>
    exact heldLast_congr h (by rw [unsent_drained hw]; exact List.Sublist.refl _)
      fun t _ u hu => ⟨u, hu, List.Subset.refl _, rfl⟩
  | @settle applied done tid todo c hw hc hp =>
    refine heldLast_congr h (by rw [unsent_settling hw]; exact List.Sublist.refl _) fun t _ u hu => ?_
    rcases cases_put hu with ⟨rfl, rfl⟩ | ⟨-, hu⟩
    · exact ⟨c, hc, List.Subset.refl _, rfl⟩
    · exact ⟨u, hu, List.Subset.refl _, rfl⟩
  | @answer _ _ _ _ tid _ _ hr =>
    refine heldLast_congr h (by rw [hr.unsent]; exact sublist_cons_self _ _) fun t ht u hu => ?_
    have hne : t ≠ tid := fun e => hr.not_mem_unsent hord (e ▸ ht)
    exact ⟨u, (at_put_ne hr.calls hne).1 hu, List.Subset.refl _, rfl⟩

/-! ## What a reader sees after a step -/

theorem visible_congr (hpend : s'.pending = s.pending) (hdb : s'.db = s.db) (id : InodeId) :
    s'.visible id = s.visible id := by
  unfold visible
  rw [hpend, hdb]

theorem visible_submit (he : Enqueued s s' tid c) (id : InodeId) :
    s'.visible id = (newest c.txn.rows id).getD (s.visible id) := by
  have hrows : newest c.txn.rows id = (newest (s.queuedCall c).slots id).map Prod.snd := by
    rw [← newest_map, slots_rows (s.owned_queuedCall c)]
    rfl
  unfold visible
  rw [he.pending, installPending_eq, get_foldl_put, he.db, hrows]
  cases newest (s.queuedCall c).slots id <;> rfl

/-- Applying a batch does not change what a reader sees. -/
theorem visible_apply (hso : Sound s) {batch : List Nat} (hw : s.worker = .drained batch)
    (hs : Stepped sealedLen s .apply s') (id : InodeId) : s'.visible id = s.visible id := by
  have hso' := hso.step hs
  have hrej : s.worker.rejected = [] := by rw [hw]; rfl
  have hrej' : s'.worker.rejected = [] := by
    cases hs with
    | apply => rfl
  rw [visible_of_accepted hso hrej, visible_of_accepted hso' hrej', view_eq hso.ordered hs nofun nofun]

/-- When a call is answered, a reader of an inode that no other call has saved sees the committed row. -/
theorem visible_answer (h : Overlaid s') {id : InodeId} (hn : newest (s'.slotsOf s'.unsent) id = none) :
    s'.visible id = s'.db.inodes.get id := by
  unfold visible
  rw [h.pending, hn]

end Sys

/-! ## Steadiness -/

namespace Steady

variable {s s' : Sys} {id : InodeId}

theorem congr (h : Steady s id) (hun : s'.unapplied.Sublist s.unapplied)
    (hafter : ∀ l, l.Sublist s'.unapplied → s'.after l = s.after l) (hvis : s'.visible id = s.visible id) :
    Steady s' id := by
  refine ⟨fun l l' hl => ?_, fun l hl => ?_⟩
  · rw [hafter _ hl, hafter l ((sublist_append_left l l').trans hl)]
    exact h.mono l l' (hl.trans hun)
  · rw [hafter l hl, hvis]; exact h.visible l (hl.trans hun)

theorem of_committed (hrow : ∀ t ∈ s.unapplied, ∀ c, s.At t c → ∀ u ∈ c.txn.inodes, u.id ≠ id)
    (hvis : s.visible id = s.db.inodes.get id) : Steady s id := by
  have hafter : ∀ l, l.Sublist s.unapplied → (s.after l).inode id = s.db.inodes.get id := fun l hl =>
    Sys.after_inode_of_not_mem fun t ht => hrow t (hl.subset ht)
  refine ⟨fun l l' hl => ?_, fun l hl => ?_⟩
  · rw [hafter _ hl, hafter l ((sublist_append_left l l').trans hl)]; exact .refl _
  · rw [hafter l hl, hvis]; exact .refl _

end Steady

namespace Sys

variable {sealedLen : Extent → Nat} {s s' : Sys} {a : Action}

variable {tid : Nat} {c' c : Call} {applied : Bool} {todo : List Nat}

theorem locked_of_put (hcalls : s'.calls = s.calls.put tid c')
    (hnot : ∀ u, s.At tid u → Unsubmitted u) {id : InodeId} (h : Locked s id) : Locked s' id := by
  obtain ⟨t, c, hc, hp, hid⟩ := h
  refine ⟨t, c, ?_, hp, hid⟩
  have hne : t ≠ tid := by
    rintro rfl
    exact (Ordered.unsubmitted (hnot c hc)).1 hp
  exact (at_put_ne hcalls hne).2 hc

section

variable (h : ∀ id, ¬Locked s id → Steady s id) (hso : Sound s)
include h hso

/-- A call is answered: what it had saved is committed or gone. -/
theorem steady_answer {result : Except FsError Unit} (hheld : HeldLast s) (hov : Overlaid s')
    (hr : Replied s s' applied result tid todo c) : ∀ id, ¬Locked s' id → Steady s' id := by
  intro id hl
  have hord := hso.ordered
  have hc := hr.get
  have hun := hr.unsent
  have hnot := hr.not_mem_unsent hord
  have hold : ∀ t ∈ s'.unsent, s'.calls.get t = s.calls.get t := by
    intro t ht
    have hne : t ≠ tid := fun e => hnot (e ▸ ht)
    rw [hr.calls, get_put_ne hne]
  have hsub : s'.unapplied ⊆ s'.unsent := unapplied_subset_unsent
  cases hn : newest (s'.slotsOf s'.unsent) id with
  | none =>
    refine .of_committed (fun t ht u hu r hr heq => ?_) (visible_answer hov hn)
    have hmem : (r.id, r.value) ∈ u.txn.rows := mem_map.2 ⟨r, hr, rfl⟩
    have hsubm : u.phase.submitted := by
      exact ((hord.mem_iff t).1 (by rw [hun]; exact mem_cons_of_mem _ (hsub ht))).phase
        ((hold t (hsub ht)).symm.trans hu)
    rw [← slots_rows (hov.owned t u hu hsubm)] at hmem
    obtain ⟨p, hp, hpe⟩ := mem_map.1 hmem
    refine newest_eq_none_iff.1 hn p ?_ ((Prod.mk.inj hpe).1.trans heq)
    exact mem_flatMap.2 ⟨t, hsub ht, by rw [hu]; exact hp⟩
  | some p =>
    -- the newest row is a later call's, so the answered call had not locked the inode
    have hslots : s'.slotsOf s'.unsent = s.slotsOf s'.unsent := slotsOf_congr fun t ht => by rw [hold t ht]
    have hvis : s'.visible id = s.visible id := by
      unfold visible
      rw [hov.pending, hn, hso.overlaid.pending, hun, slotsOf_cons hc, newest_append, ← hslots, hn]
      rfl
    have hl' : ¬Locked s id := by
      rintro ⟨t, u, hu, hp, hid⟩
      by_cases hte : t = tid
      · subst hte
        cases hc.symm.trans hu
        have hmem := mem_of_newest hn
        obtain ⟨t', ht', hp'⟩ := mem_flatMap.1 hmem
        have hget := hold t' ht'
        cases hu' : s'.calls.get t' with
        | none => rw [hu'] at hp'; cases hp'
        | some u' =>
          rw [hu'] at hp' hget
          have hlast := hheld
          unfold HeldLast at hlast
          rw [hun, pairwise_cons] at hlast
          refine hlast.1 t' ht' c u' hc hget.symm id hid ?_
          obtain ⟨z, hz, hze⟩ := mem_map.1 hp'
          have hup := (of_mem_zip (show (z.1, z.2) ∈ _ from hz)).1
          rw [← (Prod.mk.inj hze).1]
          exact (hso.separated.call t' u' hget.symm).updates_ids z.1 hup
      · exact hl ⟨t, u, (at_put_ne hr.calls hte).2 hu, hp, hid⟩
    refine (h id hl').congr (by rw [hr.unapplied]) (fun l hsubl => ?_) hvis
    exact after_put hr.calls hr.db fun hm => hnot (hsub (hsubl.subset hm))

/-- A call is submitted. One that drops its locks leaves every inode at least as long as it may find it. -/
theorem steady_submit (he : Enqueued s s' tid c)
    (hgrow : c.pipelined = true → ∀ id ∈ c.ids, ∀ l, l.Sublist s.unapplied →
      Grows ((s.after l).inode id) (((s.after l).apply c.txn).inode id)) : ∀ id, ¬Locked s' id → Steady s' id := by
  intro id hl
  have hok := hso.separated.call tid c he.get
  have hord := hso.ordered
  have hl' : ¬Locked s id := by
    intro hlk
    refine hl (locked_of_put he.calls (fun u hu => ?_) hlk)
    cases he.get.symm.trans hu
    exact he.unsubmitted
  obtain ⟨hmono, hsee⟩ := h id hl'
  -- the row of the inode on top of any state, whichever it is
  have hrow : ∀ v : View, (v.apply c.txn).inode id = (newest c.txn.rows id).getD (v.inode id) := fun v => rfl
  have hstep : ∀ l, l.Sublist s.unapplied → Grows ((s.after l).inode id) (((s.after l).apply c.txn).inode id) := by
    intro l hsub
    by_cases hid : id ∈ c.ids
    · cases hpipe : c.pipelined with
      | true => exact hgrow hpipe id hid l hsub
      | false =>
        refine absurd ⟨tid, s.queuedCall c, he.get_new, trivial, ?_⟩ hl
        show id ∈ if c.pipelined then [] else c.held
        rw [hpipe]
        exact Viewed.ids_held hok he.planning hid
    · have hsame : ((s.after l).apply c.txn).inode id = (s.after l).inode id :=
        View.apply_inode_of_not_mem fun u hu e => hid (e ▸ hok.updates_ids u hu)
      rw [hsame]
      exact .refl _
  have hover : ∀ {l row}, l.Sublist s.unapplied → Grows ((s.after l).inode id) row →
      Grows ((s.after l).inode id) ((newest c.txn.rows id).getD row) := by
    intro l row hsub hg
    have hstep' := hstep l hsub
    rw [hrow] at hstep'
    cases hn : newest c.txn.rows id with
    | none => exact hg
    | some v => rw [hn] at hstep'; exact hstep'
  refine ⟨fun l l' hsub => ?_, fun l hsub => ?_⟩
  · rcases he.sublist_cases hsub with hsub' | ⟨l₀, heq, hsub'⟩
    · rw [he.after_old hord hsub', he.after_old hord ((sublist_append_left l l').trans hsub')]; exact hmono l l' hsub'
    rcases eq_nil_or_concat l' with rfl | ⟨m, x, rfl⟩
    · rw [append_nil]; exact .refl _
    -- the new call is the last one
    rw [concat_eq_append, ← append_assoc] at heq ⊢
    obtain ⟨rfl, hx⟩ := append_inj' heq rfl
    cases hx
    have hsub₁ := (sublist_append_left l m).trans hsub'
    rw [he.after_new hord hsub', he.after_old hord hsub₁, hrow]
    exact hover hsub₁ (hmono l m hsub')
  · rw [visible_submit he id]
    rcases he.sublist_cases hsub with hsub' | ⟨l₀, rfl, hsub'⟩
    · rw [he.after_old hord hsub']; exact hover hsub' (hsee l hsub')
    rw [he.after_new hord hsub', hrow]
    cases newest c.txn.rows id with
    | none => exact hsee l₀ hsub'
    | some v => exact .refl _

/-- A batch is applied: a state after it is one that has the whole batch. -/
theorem steady_apply {batch : List Nat} (hw : s.worker = .drained batch)
    (hs : Stepped sealedLen s .apply s') (hcalls : s'.calls = s.calls)
    (hdb : s'.db = s.db.applyBatch (s.txnsOf batch)) : ∀ id, ¬Locked s' id → Steady s' id := by
  intro id hl
  have hun := unapplied_drained hw
  have hl' : ¬Locked s id := fun ⟨t, c, hc, hp, hid⟩ => hl ⟨t, c, at_eq hcalls ▸ hc, hp, hid⟩
  obtain ⟨hmono, hsee⟩ := h id hl'
  have hun' : s'.unapplied = s.queue := by
    cases hs with
    | apply => rfl
  have hafter : ∀ l, s'.after l = s.after (batch ++ l) := fun l => after_applyBatch batch l hcalls hdb
  refine ⟨fun l l' hsub => ?_, fun l hsub => ?_⟩
  · rw [hafter, hafter, ← append_assoc]
    refine hmono (batch ++ l) l' ?_
    rw [hun, append_assoc]
    exact List.Sublist.append_left (hun' ▸ hsub) batch
  · rw [hafter, visible_apply hso hw hs]
    refine hsee (batch ++ l) ?_
    rw [hun]
    exact List.Sublist.append_left (hun' ▸ hsub) batch

theorem steady_settle {done : List Nat} (hw : s.worker = .settling applied done (tid :: todo))
    (hc : s.At tid c) (hcalls : s'.calls = s.calls.put tid c')
    (hheld : c'.held = c.held) (hphase : c'.phase = .settled) (hpend : s'.pending = s.pending) (hdb : s'.db = s.db)
    (hun' : s'.unapplied = s.queue) : ∀ id, ¬Locked s' id → Steady s' id := by
  intro id hl
  have hl' : ¬Locked s id := by
    rintro ⟨t, u, hu, hsub, hid⟩
    refine hl ?_
    by_cases hte : t = tid
    · subst hte
      cases hc.symm.trans hu
      exact ⟨t, c', at_put hcalls, by rw [hphase]; trivial, by rw [hheld]; exact hid⟩
    · exact ⟨t, u, (at_put_ne hcalls hte).2 hu, hsub, hid⟩
  obtain ⟨hun, hnot⟩ := unapplied_settling hso.ordered hw
  refine (h id hl').congr (by rw [hun, hun']) (fun l hsub => ?_) (visible_congr hpend hdb id)
  exact after_put hcalls hdb fun hm => hnot (by rw [hun, ← hun']; exact hsub.subset hm)

/-- **Every step keeps the sizes steady** when calls that drop their locks leave their inodes at least as long. -/
theorem step_steady (hheld : HeldLast s)
    (hgrow : ∀ tid c, s.At tid c → c.phase = .staging [] → c.pipelined = true → ∀ id ∈ c.ids, ∀ l,
      l.Sublist s.unapplied → Grows ((s.after l).inode id) (((s.after l).apply c.txn).inode id))
    (hs : Stepped sealedLen s a s') : ∀ id, ¬Locked s' id → Steady s' id := by
  have hord := hso.ordered
  have hov := (hso.step hs).overlaid
  cases hs.moved hord with
  | edit he =>
    intro id hl
    exact (h id fun hl' => hl (locked_of_put he.calls he.before hl')).congr (by rw [he.unapplied])
      (fun l hsub => he.after_eq hord hsub) (visible_congr he.pending he.db id)
  | shift hm =>
    intro id hl
    have hl' : ¬Locked s id := fun ⟨t, c, hc, hp, hid⟩ => hl ⟨t, c, at_eq hm.calls ▸ hc, hp, hid⟩
    exact (h id hl').congr hm.sublist (fun l _ => after_congr hm.db fun t _ => by rw [hm.calls])
      (visible_congr hm.pending hm.db id)
  | submit he => exact steady_submit h hso he (hgrow _ _ he.get he.phase)
  | apply hw => exact steady_apply h hso hw (Stepped.apply hw : Stepped sealedLen s _ _) rfl rfl
  | settle hw hc hp => exact steady_settle h hso hw hc rfl rfl rfl rfl rfl rfl
  | answer hr => exact steady_answer h hso hheld hov hr

end

end Sys

end ZeroFS
