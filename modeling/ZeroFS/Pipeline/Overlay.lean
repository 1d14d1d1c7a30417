import ZeroFS.Pipeline.Stored

/-!
# The overlay of queued inodes

A submitted transaction installs its rows in the overlay and retires them when it is answered, so the overlay holds the
newest rows of the calls that are not answered. `Sys.view` is the state that the queued transactions lead to; a reader
sees it unless a rejected transaction that is not answered has saved the inode (`visible_eq_view`).
-/

namespace ZeroFS

open Updates List Table

def Txn.rows (t : Txn) : List (InodeId × Option Inode) := t.inodes.map fun u => (u.id, u.value)

def Txn.frames (t : Txn) : List ((InodeId × Nat) × Option Frame) := t.edits.map fun e => (e.key, e.frame)

/-- The overlay slots of a queued call, with their values. -/
def Call.slots (c : Call) : List (InodeId × Nat × Option Inode) :=
  (c.txn.inodes.zip c.owned).map fun p => (p.1.id, p.2.2, p.1.value)

/-! ## Views -/

/-- The inodes and extents that a reader finds. -/
structure View where
  inode : InodeId → Option Inode
  frame : InodeId × Nat → Option Frame

namespace View

def apply (v : View) (t : Txn) : View where
  inode id := (newest t.rows id).getD (v.inode id)
  frame key := (newest t.frames key).getD (v.frame key)

theorem apply_inode_of_not_mem {v : View} {t : Txn} {id : InodeId} (h : ∀ u ∈ t.inodes, u.id ≠ id) :
    (v.apply t).inode id = v.inode id := by
  unfold apply Txn.rows
  dsimp only
  rw [newest_eq_none_iff.2]
  · rfl
  intro p hp
  obtain ⟨u, hu, rfl⟩ := mem_map.1 hp
  exact h u hu

theorem apply_frame_of_not_mem {v : View} {t : Txn} {key : InodeId × Nat} (h : ∀ e ∈ t.edits, e.key ≠ key) :
    (v.apply t).frame key = v.frame key := by
  unfold apply Txn.frames
  dsimp only
  rw [newest_eq_none_iff.2]
  · rfl
  intro p hp
  obtain ⟨e, he, rfl⟩ := mem_map.1 hp
  exact h e he

theorem apply_frame_of_mem {v : View} {t : Txn} (hn : (t.edits.map Edit.key).Nodup) {e : Edit} (he : e ∈ t.edits) :
    (v.apply t).frame e.key = e.frame := by
  unfold apply
  dsimp only
  rw [newest_of_mem (v := e.frame)]
  · rfl
  · unfold Txn.frames; rw [map_map]; exact hn
  · exact mem_map.2 ⟨e, he, rfl⟩

end View

namespace Db

def view (db : Db) : View := ⟨db.inodes.get, db.extents.get⟩

theorem applyInode_eq : applyInode = fun t u => t.set u.id u.value := by
  funext t u
  unfold applyInode
  cases u.value <;> rfl

theorem inodes_applyBatch (db : Db) (txns : List Txn) :
    (db.applyBatch txns).inodes = db.inodes.setAll (txns.flatMap Txn.rows) := by
  unfold applyBatch setAll Txn.rows
  rw [← map_flatMap, foldl_map, applyInode_eq]

theorem get_inodes_applyBatch (db : Db) (txns : List Txn) (id : InodeId) :
    (db.applyBatch txns).inodes.get id = (newest (txns.flatMap Txn.rows) id).getD (db.inodes.get id) := by
  rw [inodes_applyBatch, get_setAll]

/-- Applying a batch is applying its transactions one after the other. -/
theorem view_applyBatch (db : Db) (txns : List Txn) : (db.applyBatch txns).view = txns.foldl View.apply db.view := by
  have hone : ∀ (txns : List Txn) (v : View), txns.foldl View.apply v =
      ⟨fun id => (newest (txns.flatMap Txn.rows) id).getD (v.inode id),
        fun key => (newest (txns.flatMap Txn.frames) key).getD (v.frame key)⟩ := by
    intro txns
    induction txns with
    | nil => exact fun v => rfl
    | cons t txns ih =>
      intro v
      rw [foldl_cons, ih]
      simp only [flatMap_cons, newest_append, View.apply, View.mk.injEq]
      constructor
      · funext id; cases newest (txns.flatMap Txn.rows) id <;> rfl
      · funext key; cases newest (txns.flatMap Txn.frames) key <;> rfl
  rw [hone]
  unfold view
  simp only [View.mk.injEq]
  constructor
  · funext id; exact get_inodes_applyBatch db txns id
  funext key
  rw [get_extents_applyBatch, map_flatMap]
  rfl

end Db

namespace Sys

variable {sealedLen : Extent → Nat} {s s' : Sys} {a : Action}

theorem txnsOf_append (tids tids' : List Nat) : s.txnsOf (tids ++ tids') = s.txnsOf tids ++ s.txnsOf tids' :=
  filterMap_append

/-- The state that the queued transactions lead to. -/
def view (s : Sys) : View := (s.txnsOf s.unapplied).foldl View.apply s.db.view

def slotsOf (s : Sys) (tids : List Nat) : List (InodeId × Nat × Option Inode) :=
  tids.flatMap fun t => (s.calls.get t).elim [] Call.slots

def rowsOf (s : Sys) (tids : List Nat) : List (InodeId × Option Inode) := (s.txnsOf tids).flatMap Txn.rows

end Sys

/-! ## The invariant -/

/-- The overlay has the newest row of the unsent calls. -/
structure Overlaid (s : Sys) : Prop where
  owned : ∀ t c, s.At t c → c.phase.submitted → c.owned.map Prod.fst = c.txn.inodes.map InodeUpdate.id
  pending : ∀ id, s.pending.get id = newest (s.slotsOf s.unsent) id
  increasing : ((s.slotsOf s.unsent).map fun p => p.2.1).Pairwise (· < ·)
  below : ∀ p ∈ s.slotsOf s.unsent, p.2.1 < s.nextSeq
  published : ∀ id p, newest (s.slotsOf s.worker.applied) id = some p → s.db.inodes.get id = p.2

namespace Sys

variable {sealedLen : Extent → Nat} {s s' : Sys} {a : Action} {c : Call}

theorem slotsOf_append (tids tids' : List Nat) : s.slotsOf (tids ++ tids') = s.slotsOf tids ++ s.slotsOf tids' :=
  flatMap_append

theorem slotsOf_cons {t : Nat} (hc : s.At t c) (tids : List Nat) :
    s.slotsOf (t :: tids) = c.slots ++ s.slotsOf tids := by
  unfold slotsOf
  rw [flatMap_cons, hc]
  rfl

theorem slotsOf_congr {tids : List Nat}
    (h : ∀ t ∈ tids, (s'.calls.get t).elim [] Call.slots = (s.calls.get t).elim [] Call.slots) :
    s'.slotsOf tids = s.slotsOf tids := by
  unfold slotsOf
  induction tids with
  | nil => rfl
  | cons t tids ih =>
    rw [flatMap_cons, flatMap_cons, h t mem_cons_self, ih fun t ht => h t (mem_cons_of_mem _ ht)]

theorem slots_owned (h : c.owned.map Prod.fst = c.txn.inodes.map InodeUpdate.id) :
    c.slots.map (fun p => (p.1, p.2.1)) = c.owned := by
  unfold Call.slots
  generalize c.txn.inodes = us at h
  generalize c.owned = os at h
  induction us generalizing os with
  | nil => rw [map_nil, map_eq_nil_iff] at h; rw [h]; rfl
  | cons u us ih =>
    cases os with
    | nil => cases h
    | cons o os =>
      rw [map_cons, map_cons, cons.injEq] at h
      rw [zip_cons_cons, map_cons, map_cons, ih os h.2]
      simp only [← h.1]

theorem slots_rows (h : c.owned.map Prod.fst = c.txn.inodes.map InodeUpdate.id) :
    c.slots.map (fun p => (p.1, p.2.2)) = c.txn.rows := by
  have hlen : c.txn.inodes.length ≤ c.owned.length := by
    have := congrArg length h
    rw [length_map, length_map] at this
    exact this.ge
  unfold Call.slots Txn.rows
  rw [map_map]
  have hcomp : ((fun p : InodeId × Nat × Option Inode => (p.1, p.2.2)) ∘
      fun p : InodeUpdate × InodeId × Nat => (p.1.id, p.2.2, p.1.value)) = (fun u => (u.id, u.value)) ∘ Prod.fst := rfl
  rw [hcomp, ← map_map, map_fst_zip hlen]

theorem applied_subset_unsent : s.worker.applied ⊆ s.unsent := by
  intro t ht
  refine mem_append_left _ ?_
  cases hw : s.worker with
  | idle | drained batch => rw [hw] at ht; cases ht
  | settling applied done todo | sending applied result todo =>
    rw [hw] at ht
    cases applied with
    | false => cases ht
    | true => exact ht

end Sys

namespace Overlaid

variable {s s' : Sys} {tid : Nat} {c c' : Call}

theorem put (h : Overlaid s) (hcalls : s'.calls = s.calls.put tid c') (hpend : s'.pending = s.pending)
    (hseq : s'.nextSeq = s.nextSeq) (hdb : s'.db = s.db) (hun : s'.unsent = s.unsent)
    (happ : s'.worker.applied = s.worker.applied)
    (hslots : tid ∈ s.unsent → some c'.slots = (s.calls.get tid).map Call.slots)
    (howned : c'.phase.submitted → c'.owned.map Prod.fst = c'.txn.inodes.map InodeUpdate.id) : Overlaid s' := by
  have hcongr : ∀ tids ⊆ s.unsent, s'.slotsOf tids = s.slotsOf tids := by
    intro tids hsub
    refine Sys.slotsOf_congr fun t ht => ?_
    rw [hcalls, get_put]
    split
    · rename_i heq
      subst heq
      have := hslots (hsub ht)
      cases hg : s.calls.get t with
      | none => rw [hg] at this; cases this
      | some c => rw [hg] at this; exact Option.some.inj this
    · rfl
  have hall := hcongr s.unsent (List.Subset.refl _)
  refine ⟨?_, ?_, ?_, ?_, ?_⟩
  · intro t u hu hsub
    rcases Sys.cases_at hcalls hu with ⟨-, rfl⟩ | ⟨-, hu⟩
    · exact howned hsub
    · exact h.owned t u hu hsub
  · intro id; rw [hpend, hun, hall]; exact h.pending id
  · rw [hun, hall]; exact h.increasing
  · rw [hun, hall, hseq]; exact h.below
  · intro id p hp
    rw [happ, hcongr _ Sys.applied_subset_unsent] at hp
    rw [hdb]
    exact h.published id p hp

theorem edit (h : Overlaid s) (hord : Ordered s) (he : Sys.Edited s s' tid c') : Overlaid s' :=
  h.put he.calls he.pending he.nextSeq he.db he.unsent (by rw [he.worker])
    (fun ht => absurd ht (he.not_mem_unsent hord))
    fun hsub => absurd hsub he.after

theorem shift {a : Action} (h : Overlaid s) (hm : Sys.Shifted s a s') : Overlaid s' := by
  have hcongr : ∀ tids, s'.slotsOf tids = s.slotsOf tids := fun tids => Sys.slotsOf_congr fun t _ => by rw [hm.calls]
  refine ⟨?_, fun id => ?_, ?_, ?_, fun id p hp => ?_⟩
  · rw [Sys.at_eq hm.calls]; exact h.owned
  · rw [hm.pending, hm.unsent, hcongr]; exact h.pending id
  · rw [hm.unsent, hcongr]; exact h.increasing
  · rw [hm.unsent, hcongr, hm.nextSeq]; exact h.below
  · rw [hcongr, hm.applied] at hp; rw [hm.db]; exact h.published id p hp

theorem answer {applied : Bool} {result : Except FsError Unit} {todo : List Nat} (h : Overlaid s) (hord : Ordered s)
    (hr : Sys.Replied s s' applied result tid todo c) : Overlaid s' := by
  have hun := hr.unsent
  have hc := hr.get
  have hsub : c.phase.submitted := ((hord.mem_iff tid).1 (by rw [hun]; exact mem_cons_self)).phase hc
  have hnot := hr.not_mem_unsent hord
  have hcongr : ∀ tids, tid ∉ tids → s'.slotsOf tids = s.slotsOf tids := by
    intro tids hn
    refine Sys.slotsOf_congr fun t ht => ?_
    have hne : t ≠ tid := fun e => hn (e ▸ ht)
    rw [hr.calls, get_put_ne hne]
  have hsplit : s.slotsOf s.unsent = c.slots ++ s'.slotsOf s'.unsent := by
    rw [hun, Sys.slotsOf_cons hc, hcongr _ hnot]
  have hinc := h.increasing
  rw [hsplit, map_append, pairwise_append] at hinc
  refine ⟨?_, ?_, hinc.2.1, ?_, ?_⟩
  · intro t u hu hsub'
    rcases Sys.cases_at hr.calls hu with ⟨-, rfl⟩ | ⟨-, hu⟩
    · exact absurd hsub' id
    · exact h.owned t u hu hsub'
  · intro id
    rw [hr.pending, Sys.retirePending, ← Sys.slots_owned (h.owned tid c hc hsub)]
    refine get_retire_newest (fun k => by rw [h.pending, hsplit]) (fun p hp q hq => ?_) id
    exact Nat.ne_of_lt (hinc.2.2 _ (mem_map_of_mem hp) _ (mem_map_of_mem hq))
  · intro p hp; rw [hr.nextSeq]; exact h.below p (by rw [hsplit]; exact mem_append_right _ hp)
  intro id p hp
  rw [hr.worker, Sys.afterSend_applied] at hp
  rw [hr.db]
  cases applied with
  | false => cases hp
  | true =>
    rw [if_pos rfl] at hp
    refine h.published id p ?_
    have htodo : tid ∉ todo := fun hm => hnot (by
      rw [Sys.unsent, hr.worker, Sys.afterSend_unsent]
      exact mem_append_left _ hm)
    rw [hcongr _ htodo] at hp
    have happ : s.worker.applied = tid :: todo := by rw [hr.sending]; rfl
    rw [happ, Sys.slotsOf_cons hc, newest_append, hp]
    rfl

end Overlaid

namespace Sys

variable {sealedLen : Extent → Nat} {s s' : Sys} {a : Action}

theorem rows_slotsOf (h : Overlaid s) {tids : List Nat} (hsub : ∀ t ∈ tids, InPhase s.calls CallPhase.submitted t) :
    (s.slotsOf tids).map (fun p => (p.1, p.2.2)) = s.rowsOf tids := by
  unfold rowsOf txnsOf slotsOf
  induction tids with
  | nil => rfl
  | cons t tids ih =>
    obtain ⟨c, hc, hp⟩ := hsub t mem_cons_self
    rw [flatMap_cons, map_append, ih fun t ht => hsub t (mem_cons_of_mem _ ht), filterMap_cons, hc]
    simp only [Option.elim_some, Option.map_some, flatMap_cons]
    rw [slots_rows (h.owned t c hc hp)]

theorem newest_rowsOf (h : Overlaid s) {tids : List Nat} (hsub : ∀ t ∈ tids, InPhase s.calls CallPhase.submitted t)
    (id : InodeId) : newest (s.rowsOf tids) id = (newest (s.slotsOf tids) id).map Prod.snd := by
  rw [← rows_slotsOf h hsub, newest_map]

theorem installPending_eq (c : Call) :
    s.installPending c = (s.queuedCall c).slots.foldl (fun t p => t.put p.1 p.2) s.pending := by
  unfold installPending Call.slots
  rw [foldl_map]
  rfl

theorem owned_queuedCall (c : Call) :
    (s.queuedCall c).owned.map Prod.fst = (s.queuedCall c).txn.inodes.map InodeUpdate.id := by
  show (s.ownedSlots c).map Prod.fst = c.txn.inodes.map InodeUpdate.id
  unfold ownedSlots
  refine ext_getElem (by simp) fun i _ _ => ?_
  simp

/-- The sequence numbers of a call at submit: one for each row, from `nextSeq`. -/
theorem seqs_queuedCall (c : Call) :
    (s.queuedCall c).slots.map (fun p => p.2.1) = range' s.nextSeq c.txn.inodes.length := by
  have h := congrArg (map Prod.snd) (slots_owned (s.owned_queuedCall c))
  rw [map_map] at h
  refine Eq.trans h ?_
  show (s.ownedSlots c).map Prod.snd = _
  unfold ownedSlots
  refine ext_getElem (by simp) fun i _ _ => ?_
  simp

/-- A call installs its rows above everything else. -/
theorem overlaid_submit {tid : Nat} {c : Call} (h : Overlaid s) (hord : Ordered s) (he : Enqueued s s' tid c) :
    Overlaid s' := by
  have hfar := not_mem_unsent hord he.get he.unsubmitted
  have hcongr : ∀ tids ⊆ s.unsent, s'.slotsOf tids = s.slotsOf tids := by
    intro tids hsub
    refine slotsOf_congr fun t ht => ?_
    have hne : t ≠ tid := fun e => hfar (e ▸ hsub ht)
    rw [he.calls, get_put_ne hne]
  have hslots : s'.slotsOf s'.unsent = s.slotsOf s.unsent ++ (s.queuedCall c).slots := by
    rw [he.unsent, slotsOf_append, hcongr _ (List.Subset.refl _), slotsOf_cons he.get_new]
    show _ ++ (_ ++ []) = _
    rw [append_nil]
  refine ⟨?_, ?_, ?_, ?_, ?_⟩
  · intro t u hu hsub
    rcases cases_at he.calls hu with ⟨-, rfl⟩ | ⟨-, hu⟩
    · exact s.owned_queuedCall c
    · exact h.owned t u hu hsub
  · intro id; rw [he.pending, installPending_eq, get_foldl_put, hslots, newest_append, h.pending]
  · rw [hslots, map_append, seqs_queuedCall, pairwise_append]
    refine ⟨h.increasing, pairwise_lt_range', fun q hq q' hq' => ?_⟩
    obtain ⟨p, hp, rfl⟩ := mem_map.1 hq
    have hlt := h.below p hp
    have hle := (mem_range'_1.1 hq').1
    omega
  · intro p hp
    rw [hslots, mem_append] at hp
    rw [he.nextSeq]
    rcases hp with hp | hp
    · have := h.below p hp; omega
    have hm := mem_map_of_mem (f := fun p => p.2.1) hp
    rw [seqs_queuedCall] at hm
    exact (mem_range'_1.1 hm).2
  · intro id p hp
    rw [he.worker, hcongr _ applied_subset_unsent] at hp
    rw [he.db]
    exact h.published id p hp

/-- **Every step keeps the overlay.** -/
theorem step_overlaid (h : Overlaid s) (hord : Ordered s) (hs : Stepped sealedLen s a s') : Overlaid s' := by
  cases hs.moved hord with
  | edit he => exact h.edit hord he
  | shift hm => exact h.shift hm
  | submit he => exact overlaid_submit h hord he
  | answer hr => exact h.answer hord hr
  | @apply batch hw =>
    have hun := unsent_drained hw
    obtain ⟨howned, hpend, hinc, hbelow, hpub⟩ := h
    have hsub : ∀ t ∈ batch, InPhase s.calls CallPhase.submitted t := fun t ht =>
      (hord.mem_iff t).1 (by rw [hun]; exact mem_append_left _ ht)
    have hnew := fun id => newest_rowsOf ⟨howned, hpend, hinc, hbelow, hpub⟩ hsub id
    rw [hun] at hinc hbelow
    simp only [hun] at hpend
    refine ⟨howned, hpend, hinc, hbelow, fun id p hp => ?_⟩
    have hp' : newest (s.slotsOf batch) id = some p := hp
    show ((s.db.applyBatch _).inodes.get id) = _
    rw [Db.get_inodes_applyBatch]
    show (newest (s.rowsOf batch) id).getD _ = _
    rw [hnew, hp']
    rfl
  | @settle applied done tid todo c hw hc hp =>
    have happ : s.worker.applied = (Worker.settling applied (done ++ [tid]) todo).applied := by
      rw [hw]
      cases applied <;> simp [Worker.applied]
    have hsub : c.phase.submitted := by rw [hp]; trivial
    refine h.put rfl rfl rfl rfl (unsent_settling hw).symm happ.symm (fun _ => ?_) fun _ => h.owned tid c hc hsub
    rw [hc]
    rfl

theorem view_inode (id : InodeId) : s.view.inode id = (newest (s.rowsOf s.unapplied) id).getD (s.db.inodes.get id) := by
  unfold view
  rw [← Db.view_applyBatch]
  exact Db.get_inodes_applyBatch _ _ _

/-- **A reader sees the view** unless a rejected transaction that is not answered yet has saved the inode. -/
theorem visible_eq_view (h : Overlaid s) (hord : Ordered s) {id : InodeId}
    (hr : ∀ p ∈ s.rowsOf s.worker.rejected, p.1 ≠ id) : s.visible id = s.view.inode id := by
  have hsub : ∀ t ∈ s.unsent, InPhase s.calls CallPhase.submitted t := fun t ht => (hord.mem_iff t).1 ht
  have hqueue := newest_rowsOf h (fun t ht => hsub t (mem_append_right _ ht)) id
  have hwork := newest_rowsOf h (fun t ht => hsub t (mem_append_left _ ht)) id
  have hpend := h.pending id
  rw [unsent, slotsOf_append, newest_append] at hpend
  have hview : s.view.inode id =
      ((newest (s.rowsOf s.queue) id).or (newest (s.rowsOf s.worker.batch) id)).getD (s.db.inodes.get id) := by
    rw [view_inode, unapplied, rowsOf, txnsOf_append, flatMap_append, newest_append]
    rfl
  unfold visible
  rw [hview, hpend, hqueue]
  cases newest (s.slotsOf s.queue) id with
  | some p => rfl
  | none =>
    cases hn : newest (s.slotsOf s.worker.unsent) id with
    | none =>
      rw [hn] at hwork
      have hbatch : newest (s.rowsOf s.worker.batch) id = none := by
        cases hw : s.worker with
        | drained batch => rw [hw] at hwork; exact hwork
        | _ => rfl
      rw [hbatch]
      rfl
    | some p =>
      rw [hn] at hwork
      cases hw : s.worker with
      | idle => rw [hw] at hn; cases hn
      | drained batch =>
        rw [hw] at hwork
        show _ = (newest (s.rowsOf batch) id).getD _
        rw [show newest (s.rowsOf batch) id = some p.2 from hwork]
        rfl
      | settling applied done todo | sending applied result todo =>
        rw [hw] at hwork hn hr
        cases applied with
        | true => refine (h.published id p ?_).symm; rw [hw]; exact hn
        | false => exact absurd rfl (hr _ (mem_of_newest hwork))

end Sys

end ZeroFS
