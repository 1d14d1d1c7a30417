import ZeroFS.Lib.Machine
import ZeroFS.Pipeline.Overlay

/-!
# Invariants of the view

`Sound` collects what every run keeps. The view changes only when a transaction is submitted or a batch rejected, so a
property of the view and of the open calls at their inodes is shown for the steps that plan, stage, submit and reject
(`Viewed.step`).
-/

namespace ZeroFS

open Machine List

/-! ## Every run is sound -/

/-- What every run keeps. -/
structure Sound (s : Sys) : Prop where
  separated : Separated s.calls s.inflight
  ordered : Ordered s
  stored : Stored s
  overlaid : Overlaid s

section Sound

variable {sealedLen : Extent → Nat} {s s' : Sys} {a : Action}

theorem Sound.stepped (h : Sound s) (ha : a.awaited = true) (hstep : s.step sealedLen a = some s') :
    Sys.Stepped sealedLen s a s' :=
  Sys.step_stepped (Sys.not_settled h.ordered) ha hstep

theorem Sound.step (h : Sound s) (hs : Sys.Stepped sealedLen s a s') : Sound s' :=
  ⟨Sys.step_separated h.separated h.stored.cached hs, Sys.step_ordered h.ordered hs,
    Sys.step_stored h.stored h.separated h.ordered hs, Sys.step_overlaid h.overlaid h.ordered hs⟩

theorem no_calls {db : Db} {quota : LogicalQuota} {segments : Segments} {t : Nat} {c : Call} {p : Prop}
    (h : (Sys.boot db quota segments).calls.get t = some c) : p := by
  cases (Table.get_empty t).symm.trans h

theorem boot_sound (db : Db) (quota : LogicalQuota) (segments : Segments) : Sound (Sys.boot db quota segments) := by
  refine ⟨⟨?_, ?_, ?_, ?_⟩, ⟨nodup_nil, fun t => ⟨fun ht => absurd ht not_mem_nil, ?_⟩, ?_, trivial, ?_⟩,
    ⟨?_, ?_⟩, ?_, fun _ => rfl, List.Pairwise.nil, ?_, ?_⟩
  · exact fun _ _ => no_calls
  · exact fun _ _ _ _ => no_calls
  · exact fun _ _ => no_calls
  · exact fun _ _ _ _ => no_calls
  · rintro ⟨c, hc, _⟩; exact no_calls hc
  · exact fun t ht => absurd ht not_mem_nil
  · exact ⟨[], rfl, fun t ht => absurd ht not_mem_nil⟩
  · intro key loc hk; cases (Table.get_empty key).symm.trans hk
  · exact fun _ _ => no_calls
  · exact fun _ _ => no_calls
  · exact fun p hp => absurd hp not_mem_nil
  · exact fun id p hp => by cases hp

end Sound

/-! ## How the view changes -/

namespace Sys

variable {sealedLen : Extent → Nat} {s s' : Sys} {a : Action} {tid : Nat} {c c' : Call} {l : List Nat}

/-- The state that the calls `l` of the queue lead to when the others are rejected. -/
def after (s : Sys) (l : List Nat) : View := (s.txnsOf l).foldl View.apply s.db.view

theorem after_unapplied : s.after s.unapplied = s.view := rfl

theorem after_append (l l' : List Nat) : s.after (l ++ l') = (s.txnsOf l').foldl View.apply (s.after l) := by
  unfold after
  rw [txnsOf_append, foldl_append]

theorem after_concat (hc : s.At tid c) (l : List Nat) : s.after (l ++ [tid]) = (s.after l).apply c.txn := by
  have hone : s.txnsOf [tid] = [c.txn] := by
    unfold txnsOf
    rw [filterMap_cons, hc]
    rfl
  rw [after_append, hone]
  rfl

theorem after_congr (hdb : s'.db = s.db)
    (h : ∀ t ∈ l, (s'.calls.get t).map Call.txn = (s.calls.get t).map Call.txn) : s'.after l = s.after l := by
  unfold after
  rw [hdb]
  exact congrArg (foldl View.apply s.db.view) (filterMap_congr h)

theorem after_put (hcalls : s'.calls = s.calls.put tid c') (hdb : s'.db = s.db) (hn : tid ∉ l) :
    s'.after l = s.after l := by
  refine after_congr hdb fun t ht => ?_
  have hne : t ≠ tid := fun e => hn (e ▸ ht)
  rw [hcalls, Table.get_put_ne hne]

/-- The transactions of a batch move from the queue into the committed state. -/
theorem after_applyBatch (batch l : List Nat) (hcalls : s'.calls = s.calls)
    (hdb : s'.db = s.db.applyBatch (s.txnsOf batch)) : s'.after l = s.after (batch ++ l) := by
  unfold after txnsOf
  rw [hcalls, hdb, Db.view_applyBatch, filterMap_append, foldl_append]
  rfl

theorem view_put (hcalls : s'.calls = s.calls.put tid c') (hdb : s'.db = s.db)
    (hun : s'.unapplied = s.unapplied) (hn : tid ∉ s.unapplied) : s'.view = s.view := by
  rw [← after_unapplied, hun]
  exact after_put hcalls hdb hn

namespace Enqueued

variable (he : Enqueued s s' tid c)
include he

theorem sublist_cases (hl : l.Sublist s'.unapplied) :
    l.Sublist s.unapplied ∨ ∃ l₀, l = l₀ ++ [tid] ∧ l₀.Sublist s.unapplied := by
  rw [he.unapplied] at hl
  obtain ⟨l₁, l₂, rfl, h1, h2⟩ := sublist_append_iff.1 hl
  rcases sublist_singleton.1 h2 with rfl | rfl
  · exact .inl (by rw [append_nil]; exact h1)
  · exact .inr ⟨l₁, rfl, h1⟩

theorem after_old (hord : Ordered s) (hl : l.Sublist s.unapplied) : s'.after l = s.after l :=
  after_put he.calls he.db fun hm => not_mem_unapplied hord he.get he.unsubmitted (hl.subset hm)

/-- A submitted transaction is laid over the states before it. -/
theorem after_new (hord : Ordered s) (hl : l.Sublist s.unapplied) :
    s'.after (l ++ [tid]) = (s.after l).apply c.txn := by
  rw [after_concat he.get_new, he.after_old hord hl]
  rfl

theorem view (hord : Ordered s) : s'.view = s.view.apply c.txn := by
  rw [← after_unapplied, he.unapplied]
  exact he.after_new hord (List.Sublist.refl _)

end Enqueued

theorem Edited.after_eq (he : Edited s s' tid c') (hord : Ordered s) (hl : l.Sublist s'.unapplied) :
    s'.after l = s.after l :=
  after_put he.calls he.db fun hm => he.not_mem_unapplied hord (by rw [← he.unapplied]; exact hl.subset hm)

/-- **The view only changes at submit and reject.** -/
theorem view_eq (hord : Ordered s) (hs : Stepped sealedLen s a s') (hsub : ∀ tid, a ≠ .submit tid)
    (hrej : ∀ late, a ≠ .reject late) : s'.view = s.view := by
  cases hs.moved hord with
  | edit he => exact view_put he.calls he.db he.unapplied (he.not_mem_unapplied hord)
  | shift hm =>
    rw [← after_unapplied, hm.unapplied.resolve_right fun ⟨⟨late, heq⟩, _⟩ => hrej late heq]
    exact after_congr hm.db fun t _ => by rw [hm.calls]
  | submit he => exact absurd rfl (hsub _)
  | @apply batch hw =>
    rw [← after_unapplied, ← after_unapplied, unapplied_drained hw]
    exact after_applyBatch batch s.queue rfl rfl
  | settle hw hc hp =>
    obtain ⟨hun, hnot⟩ := unapplied_settling hord hw
    exact view_put rfl rfl hun.symm hnot
  | answer hr => exact view_put hr.calls hr.db hr.unapplied (unapplied_sending hord hr.sending).2

end Sys

/-! ## The rule -/

def CallPhase.planning : CallPhase → Prop
  | .preparing .. | .staging _ => True
  | _ => False

theorem Sys.Enqueued.planning {s s' : Sys} {tid : Nat} {c : Call} (he : Enqueued s s' tid c) : c.phase.planning := by
  rw [he.phase]
  trivial

/-- The views agree on some inodes and their extents. -/
def View.AgreeOn (ids : List InodeId) (v v' : View) : Prop :=
  ∀ id ∈ ids, v'.inode id = v.inode id ∧ ∀ idx, v'.frame (id, idx) = v.frame (id, idx)

/-- A step that plans or stages establishes `P` of its call. -/
structure Sys.Plans (sealedLen : Extent → Nat) (s : Sys) (a : Action) (P : Call → Prop) : Prop where
  start : ∀ tid c, s.At tid c → c.phase = .locking [] → P { c with phase := .preparing c.tasks [] }
  prepare : ∀ tid now c task todo ops plan rs q, a = .prepare tid now → s.At tid c →
    c.phase = .preparing (task :: todo) ops → task.plan now c.creds c.checkPermissions (s.visible task.id) = .ok plan →
    reserveGrowth s.quota plan.growth = (.ok rs, q) → P (planned c task.id (s.visible task.id) plan rs todo ops)
  stage : ∀ tid lane c op todo r, s.At tid c → c.phase = .staging (op :: todo) →
    s.stageOp sealedLen lane op = some r → P (stagedCall c r todo)

theorem Sys.Plans.step {sealedLen : Extent → Nat} {s s' : Sys} {a : Action} {P : Call → Prop}
    (h : Plans sealedLen s a P) (hs : Stepped sealedLen s a s') (hold : ∀ t c, s.At t c → c.phase.planning → P c)
    (t : Nat) (c : Call) (hc : s'.At t c) (hplan : c.phase.planning) : P c := by
  have hput : ∀ {tid c'}, (s.calls.put tid c').get t = some c → (c'.phase.planning → P c') → P c := by
    intro tid c' hc hnew
    rcases Table.cases_put hc with ⟨-, rfl⟩ | ⟨-, hc⟩
    · exact hnew hplan
    · exact hold t c hc hplan
  cases hs with
  | start hc' hp hfree => exact hput hc fun _ => h.start _ _ hc' hp
  | prepare hc' hp hplan hres => exact hput hc fun _ => h.prepare _ _ _ _ _ _ _ _ _ rfl hc' hp hplan hres
  | stage hc' hp hst => exact hput hc fun _ => h.stage _ _ _ _ _ _ hc' hp hst
  | drain | reject | apply | reply | rotate | pack | loadLocation | evictLocation | evictTail => exact hold t c hc hplan
  | _ => exact hput hc fun hp => absurd hp id

/-- `B` holds of the view, and `Q` of each call that plans or stages. -/
structure Viewed (B : View → Prop) (Q : View → Call → Prop) (s : Sys) : Prop where
  base : B s.view
  call : ∀ t c, s.At t c → c.phase.planning → Q s.view c

namespace Viewed

variable {sealedLen : Extent → Nat} {s s' : Sys} {a : Action} {B : View → Prop} {Q : View → Call → Prop}

variable {c c' : Call} {tid : Nat}

theorem ids_held (h : CallOk c) (hp : c.phase.planning) : c.ids ⊆ c.held := by
  have hph := h.phase
  cases hc : c.phase with
  | preparing todo ops | staging todo => rw [hc] at hph; exact hph.1
  | _ => rw [hc] at hp; exact absurd hp id

/-- A transaction does not touch the inodes that another call has locked. -/
theorem agree_of_locked (hso : Sound s) {t t' : Nat} (hc : s.At t c) (hp : c.phase.planning)
    (hc' : s.At t' c') (hp' : c'.phase.planning) (hne : t ≠ t') (v : View) :
    View.AgreeOn c.ids v (v.apply c'.txn) := by
  have hok := hso.separated.call t c hc
  have hok' := hso.separated.call t' c' hc'
  have hfar : ∀ id ∈ c.ids, id ∉ c'.ids := fun id hid hid' =>
    hso.separated.exclusive t t' c c' hc hc' hne id (ids_held hok hp hid) (ids_held hok' hp' hid')
  intro id hid
  refine ⟨View.apply_inode_of_not_mem fun u hu e => ?_, fun idx => View.apply_frame_of_not_mem fun e he heq => ?_⟩
  · exact hfar id hid (e ▸ hok'.updates_ids u hu)
  refine hfar id hid ?_
  have := hok'.edits_ids e he
  rw [heq] at this
  exact this

/-- A transaction is laid over the view; the other calls have locked other inodes. -/
theorem submit (h : Viewed B Q s) (hso : Sound s)
    (hlocal : ∀ v v' c, CallOk c → View.AgreeOn c.ids v v' → Q v c → Q v' c) (he : Sys.Enqueued s s' tid c)
    (hB : B (s.view.apply c.txn)) : Viewed B Q s' := by
  have hview := he.view hso.ordered
  refine ⟨hview ▸ hB, fun t u hu hpl => ?_⟩
  rw [hview]
  rcases Sys.cases_at he.calls hu with ⟨-, rfl⟩ | ⟨hne, hu⟩
  · exact absurd hpl id
  · exact hlocal _ _ u (hso.separated.call t u hu) (agree_of_locked hso hu hpl he.get he.planning hne _)
      (h.call t u hu hpl)

/-- **The rule.** A property of the view and of the open calls at their own inodes is kept when planning and staging
establish it, a submitted transaction keeps it, and a rejected batch does. -/
theorem step (h : Viewed B Q s) (hso : Sound s) (hs : Sys.Stepped sealedLen s a s')
    (hlocal : ∀ v v' c, CallOk c → View.AgreeOn c.ids v v' → Q v c → Q v' c)
    (hplans : Sys.Plans sealedLen s a (Q s.view))
    (hsubmit : ∀ tid c, s.At tid c → c.phase = .staging [] → B (s.view.apply c.txn))
    (hreject : ∀ late, a = .reject late → Viewed B Q s') : Viewed B Q s' := by
  have hkeep : s'.view = s.view → Viewed B Q s' := fun hv => ⟨hv ▸ h.base, hv ▸ hplans.step hs h.call⟩
  by_cases hrej : ∃ late, a = .reject late
  · obtain ⟨late, rfl⟩ := hrej; exact hreject late rfl
  by_cases hsub : ∃ tid, a = .submit tid
  · obtain ⟨tid, rfl⟩ := hsub
    cases hs with
    | noop hc hp he =>
      exact hkeep (Sys.view_put rfl rfl rfl (Sys.not_mem_unapplied hso.ordered hc (.inr (.inr ⟨_, hp⟩))))
    | submit hc hp he => exact h.submit hso hlocal ⟨hc, hp, rfl, rfl, rfl, rfl, rfl, rfl, rfl⟩ (hsubmit _ _ hc hp)
  · exact hkeep (Sys.view_eq hso.ordered hs (fun tid e => hsub ⟨tid, e⟩) fun late e => hrej ⟨late, e⟩)

end Viewed

end ZeroFS
