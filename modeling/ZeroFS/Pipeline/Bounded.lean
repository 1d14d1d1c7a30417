import ZeroFS.Pipeline.States

/-!
# Extents end with their file

No extent key lies at or past the end of its file (`View.Bounded`). A call keeps it when its operations fit the state
they will be applied to (`OpSafe`); what it owes in each phase is `Fits`, for any state `Sys.after l` that the queue can
lead to.
-/

namespace ZeroFS

open Updates List

/-- The extents of an inode end with the file. -/
def View.BoundedAt (v : View) (id : InodeId) : Prop :=
  ∀ idx f i, v.frame (id, idx) = some f → v.inode id = some i → idx < extentCount i.size

def View.Bounded (v : View) : Prop := ∀ id, v.BoundedAt id

/-- The operations of a planning call fit the view (`F`), and where it has none left the extents will end with the
file. -/
def Fits (F : Option Inode → Option Inode → ExtentOp → Prop) (v : View) (c : Call) : Prop :=
  match c.phase with
  | .preparing todo ops => (∀ op ∈ ops, F (v.inode op.id) ((v.apply c.txn).inode op.id) op) ∧
      ∀ id ∈ c.ids, id ∉ ops.map ExtentOp.id → id ∉ todo.map Task.id → Grows (v.inode id) ((v.apply c.txn).inode id)
  | .staging todo => (∀ op ∈ todo, F (v.inode op.id) ((v.apply c.txn).inode op.id) op) ∧
      ∀ id ∈ c.ids, id ∉ todo.map ExtentOp.id → (v.apply c.txn).BoundedAt id
  | _ => True

/-- `R` holds between the records before and after each task that is planned. -/
def Achieves (R : Option Inode → Option Inode → Task → Prop) (v : View) (c : Call) : Prop :=
  match c.phase with
  | .preparing todo _ => ∀ t ∈ c.tasks, t.id ∉ todo.map Task.id → R (v.inode t.id) ((v.apply c.txn).inode t.id) t
  | .staging _ => ∀ t ∈ c.tasks, R (v.inode t.id) ((v.apply c.txn).inode t.id) t
  | _ => True

/-- The operations work with the sizes of the view. -/
abbrev Fitted : View → Call → Prop := Fits OpFits

/-- The operation leaves no extent past the end of the file. -/
def OpSafe (before after : Option Inode) : ExtentOp → Prop
  | .write _ offset data oldSize => (∃ b, before = some b ∧ b.size ≤ oldSize) ∧ Grows before after ∧
      ∀ a, after = some a → offset + data.length ≤ a.size
  | .truncate _ oldSize newSize => if newSize < oldSize
      then (∀ b, before = some b → b.size ≤ oldSize) ∧ ∀ a, after = some a → before.isSome ∧ a.size = newSize
      else Grows before after
  | .zeroRange .. | .deleteRange .. | .repoint .. => Grows before after

/-- An operation that fits the record it was planned from is safe for a file that is no longer than that record. -/
theorem OpFits.safe {w before after : Option Inode} {op : ExtentOp} (h : OpFits before after op) (hg : Grows w before) :
    OpSafe w after op := by
  cases op with
  | write id offset data oldSize =>
    obtain ⟨b, a, rfl, rfl, rfl, ha⟩ := h
    obtain ⟨x, rfl, hx⟩ := hg b rfl
    refine ⟨⟨x, rfl, hx⟩, fun y hy => ⟨x, rfl, ?_⟩, fun y hy => ?_⟩
    · cases hy; omega
    · cases hy; omega
  | truncate id oldSize newSize =>
    obtain ⟨b, a, rfl, rfl, rfl, rfl⟩ := h
    obtain ⟨x, rfl, hx⟩ := hg b rfl
    simp only [OpSafe]
    split
    · refine ⟨fun y hy => ?_, fun y hy => ⟨rfl, ?_⟩⟩
      · cases hy; exact hx
      · cases hy; rfl
    · refine fun y hy => ⟨x, rfl, ?_⟩; cases hy; omega
  | zeroRange id offset length fileSize =>
    obtain ⟨b, a, rfl, rfl, rfl, ha⟩ := h
    obtain ⟨x, rfl, hx⟩ := hg b rfl
    intro y hy
    cases hy
    exact ⟨x, rfl, hx.trans ha⟩
  | deleteRange | repoint => exact hg.trans h

namespace View

variable {v v' : View} {ids : List InodeId} {id : InodeId}

theorem AgreeOn.apply (h : AgreeOn ids v v') (t : Txn) : AgreeOn ids (v.apply t) (v'.apply t) := by
  intro id hid
  obtain ⟨hi, hf⟩ := h id hid
  refine ⟨?_, fun idx => ?_⟩
  · show (newest t.rows id).getD (v'.inode id) = (newest t.rows id).getD (v.inode id); rw [hi]
  · show (newest t.frames (id, idx)).getD (v'.frame (id, idx)) = (newest t.frames (id, idx)).getD (v.frame (id, idx))
    rw [hf idx]

theorem BoundedAt.congr (h : v.BoundedAt id) (hi : v'.inode id = v.inode id)
    (hf : ∀ idx, v'.frame (id, idx) = v.frame (id, idx)) : v'.BoundedAt id := by
  intro idx f i hfr hin
  rw [hf] at hfr
  rw [hi] at hin
  exact h idx f i hfr hin

/-- An inode that does not shrink and gets no extents. -/
theorem BoundedAt.grow (h : v.BoundedAt id) (hg : Grows (v.inode id) (v'.inode id))
    (hf : ∀ idx f, v'.frame (id, idx) = some f → ∃ f', v.frame (id, idx) = some f') : v'.BoundedAt id := by
  intro idx f i hfr hin
  obtain ⟨b, hb, hle⟩ := hg i hin
  obtain ⟨f', hf'⟩ := hf idx f hfr
  exact lt_of_lt_of_le (h idx f' b hf' hb) (extentCount_mono hle)

end View

variable {F : Option Inode → Option Inode → ExtentOp → Prop} {R : Option Inode → Option Inode → Task → Prop}

theorem Fits.local {v v' : View} {c : Call} (hok : CallOk c) (h : View.AgreeOn c.ids v v') (hf : Fits F v c) :
    Fits F v' c := by
  have happ := h.apply c.txn
  have hph := hok.phase
  unfold Fits at *
  cases hp : c.phase with
  | preparing todo ops =>
    rw [hp] at hf hph
    obtain ⟨hops, hgrow⟩ := hf
    refine ⟨fun op hop => ?_, fun id hid h1 h2 => ?_⟩
    · have hid : op.id ∈ c.ids := (hph.2.2.2.1 op hop).id_mem
      rw [(h _ hid).1, (happ _ hid).1]
      exact hops op hop
    · rw [(h _ hid).1, (happ _ hid).1]; exact hgrow id hid h1 h2
  | staging todo =>
    rw [hp] at hf hph
    obtain ⟨hops, hbound⟩ := hf
    refine ⟨fun op hop => ?_, fun id hid h1 => ?_⟩
    · have hid : op.id ∈ c.ids := (hph.2.1 op hop).id_mem
      rw [(h _ hid).1, (happ _ hid).1]
      exact hops op hop
    · exact (hbound id hid h1).congr (happ _ hid).1 (happ _ hid).2
  | _ => trivial

theorem Achieves.local {v v' : View} {c : Call} (h : View.AgreeOn c.ids v v') (ha : Achieves R v c) :
    Achieves R v' c := by
  have happ := h.apply c.txn
  unfold Achieves at *
  cases hp : c.phase with
  | preparing todo ops =>
    rw [hp] at ha
    intro t ht hnot
    have hid : t.id ∈ c.ids := mem_map_of_mem ht
    rw [(h _ hid).1, (happ _ hid).1]
    exact ha t ht hnot
  | staging todo =>
    rw [hp] at ha
    intro t ht
    have hid : t.id ∈ c.ids := mem_map_of_mem ht
    rw [(h _ hid).1, (happ _ hid).1]
    exact ha t ht
  | _ => trivial

/-! ## Planning -/

section Planning

variable {v : View} {c : Call} {task : Task} {todo : List Task} {ops : List ExtentOp} {plan : Plan}
  {inode : Option Inode} {rs : List ProvisionalQuotaReservation} {now : Nat → Timestamp}

/-- The row that a plan writes, if it writes one. -/
def Plan.row (plan : Plan) (inode : Option Inode) : Option (Option Inode) :=
  match inode, plan.update with
  | some _, some value => some value
  | _, _ => none

theorem Plan.after_eq : plan.after inode = (plan.row inode).getD inode := by
  unfold Plan.after Plan.row
  cases inode with
  | none => rfl
  | some base => cases plan.update <;> rfl

theorem planned_phase : (Sys.planned c task.id inode plan rs todo ops).phase =
    if todo = [] then .staging (ops ++ plan.ops) else .preparing todo (ops ++ plan.ops) := rfl

theorem rows_updates (id : InodeId) : (Sys.updates id inode plan).map (fun u => (u.id, u.value)) =
    (plan.row inode).toList.map fun value => (id, value) := by
  unfold Sys.updates Plan.row
  cases inode with
  | none => rfl
  | some base => cases plan.update <;> rfl

theorem planned_rows : (Sys.planned c task.id inode plan rs todo ops).txn.rows =
    c.txn.rows ++ (plan.row inode).toList.map fun value => (task.id, value) := by
  rw [← rows_updates]
  exact map_append

theorem planned_inode_ne {id : InodeId} (hne : id ≠ task.id) :
    (v.apply (Sys.planned c task.id inode plan rs todo ops).txn).inode id = (v.apply c.txn).inode id := by
  show (newest _ id).getD _ = _
  rw [planned_rows, newest_append, newest_eq_none_iff.2]
  · rfl
  intro p hp
  obtain ⟨_, _, rfl⟩ := mem_map.1 hp
  exact hne.symm

section

variable (hok : CallOk c) (hp : c.phase = .preparing (task :: todo) ops)
include hok hp

theorem planned_inode_self :
    (v.apply (Sys.planned c task.id inode plan rs todo ops).txn).inode task.id = (plan.row inode).getD
      (v.inode task.id) := by
  obtain ⟨_, _, _, _, _, hun⟩ := hok.phaseOk hp
  have hold : newest c.txn.rows task.id = none := by
    refine newest_eq_none_iff.2 fun p hp => ?_
    obtain ⟨u, hu, rfl⟩ := mem_map.1 hp
    exact (nodup_append.1 hun).2.2 u.id (mem_map_of_mem hu) task.id mem_cons_self
  show (newest _ task.id).getD _ = _
  rw [planned_rows, newest_append, hold]
  cases plan.row inode with
  | none => rfl
  | some value => simp [newest]

/-- A task is planned whose operations fit, or which has none and does not shrink its inode. -/
theorem Fits.planned (hB : v.Bounded) (hf : Fits F v c)
    (hplan : task.plan now c.creds c.checkPermissions inode = .ok plan)
    (hfits : ∀ op ∈ plan.ops, F (v.inode task.id) ((plan.row inode).getD (v.inode task.id)) op)
    (hgrows : plan.ops = [] → Grows (v.inode task.id) ((plan.row inode).getD (v.inode task.id))) :
    Fits F v (Sys.planned c task.id inode plan rs todo ops) := by
  obtain ⟨_, hstaged, htodo, hopsOk, hopn, _⟩ := hok.phaseOk hp
  unfold Fits at hf
  rw [hp] at hf
  obtain ⟨hops, hgrow⟩ := hf
  obtain ⟨hsub, _⟩ := plan_ops hplan
  have hplanid : ∀ op ∈ plan.ops, op.id = task.id := fun op hop =>
    mem_singleton.1 (hsub.subset (mem_map_of_mem (f := ExtentOp.id) hop))
  have hops' : ∀ op ∈ ops ++ plan.ops, F (v.inode op.id)
      ((v.apply (Sys.planned c task.id inode plan rs todo ops).txn).inode op.id) op := by
    intro op hop
    rcases mem_append.1 hop with hop | hop
    · have hne : op.id ≠ task.id := by
        exact (nodup_append.1 hopn).2.2 op.id (mem_map_of_mem hop) task.id mem_cons_self
      rw [planned_inode_ne hne]
      exact hops op hop
    · rw [hplanid op hop, planned_inode_self hok hp]; exact hfits op hop
  have hgrow' : ∀ id ∈ c.ids, id ∉ (ops ++ plan.ops).map ExtentOp.id → id ∉ todo.map Task.id →
      Grows (v.inode id) ((v.apply (Sys.planned c task.id inode plan rs todo ops).txn).inode id) := by
    intro id hid h1 h2
    rw [map_append, mem_append, not_or] at h1
    by_cases hne : id = task.id
    · subst hne
      rw [planned_inode_self hok hp]
      refine hgrows (eq_nil_iff_forall_not_mem.2 fun op hop => h1.2 ?_)
      rw [← hplanid op hop]
      exact mem_map_of_mem hop
    · rw [planned_inode_ne hne]
      refine hgrow id hid h1.1 ?_
      rw [map_cons, mem_cons, not_or]
      exact ⟨hne, h2⟩
  by_cases ht : todo = []
  · rw [Fits, planned_phase, if_pos ht]
    refine ⟨hops', fun id hid h1 => ?_⟩
    refine (hB id).grow (hgrow' id hid h1 (by rw [ht]; exact not_mem_nil)) fun idx f hfr => ⟨f, ?_⟩
    refine (View.apply_frame_of_not_mem fun e he => ?_).symm.trans hfr
    exact absurd he (CallOk.not_mem_edits hstaged e)
  · rw [Fits, planned_phase, if_neg ht]
    exact ⟨hops', hgrow'⟩

theorem Achieves.planned (h : Achieves R v c)
    (hR : R (v.inode task.id) ((plan.row inode).getD (v.inode task.id)) task) :
    Achieves R v (Sys.planned c task.id inode plan rs todo ops) := by
  unfold Achieves at h
  have hph := hok.phase
  rw [hp] at h hph
  have hnew : ∀ t ∈ c.tasks, t.id ∉ todo.map Task.id →
      R (v.inode t.id) ((v.apply (Sys.planned c task.id inode plan rs todo ops).txn).inode t.id) t := by
    intro t ht hnot
    by_cases hne : t.id = task.id
    · rw [inj_on_of_nodup_map hok.nodup ht (hph.2.2.1 task mem_cons_self) hne, planned_inode_self hok hp]; exact hR
    rw [planned_inode_ne hne]
    refine h t ht ?_
    rw [map_cons, mem_cons, not_or]
    exact ⟨hne, hnot⟩
  by_cases ht : todo = []
  · rw [Achieves, planned_phase, if_pos ht]; exact fun t hmem => hnew t hmem (by rw [ht]; exact not_mem_nil)
  · rw [Achieves, planned_phase, if_neg ht]; exact hnew

end

end Planning

/-! ## Staging -/

section Staging

variable {sealedLen : Extent → Nat} {lane : Nat} {s : Sys} {tid : Nat} {c : Call} {op : ExtentOp} {todo : List ExtentOp}
  {r : Sys.Staged} {v : View} {l : List Nat}

section

variable (hso : Sound s) (hc : s.At tid c)
include hso hc

/-- A locked extent that no queued write claims is as stored, whatever part of the queue is applied. -/
theorem after_frame_locked {key : InodeId × Nat} (hheld : key.1 ∈ c.held)
    (hout : tid ∉ s.unapplied) (hl : l.Sublist s.unapplied)
    (hfree : ∀ w ∈ s.inflight, w.id = key.1 → ¬(w.start ≤ key.2 ∧ key.2 ≤ w.stop)) :
    (s.after l).frame key = s.db.extents.get key := by
  refine Sys.after_frame_of_not_mem fun e he => ?_
  obtain ⟨t, ht, u, hu, he⟩ := Sys.mem_editsOf.1 he
  have ht' := hl.subset ht
  have hq : u.phase = .queued := by
    rcases mem_append.1 ht' with hb | hq
    · have hw := hso.ordered.worker
      cases hworker : s.worker with
      | drained batch => rw [hworker] at hw hb; exact (hw t hb).phase hu
      | _ => rw [hworker] at hb; cases hb
    · exact (hso.ordered.queue t hq).phase hu
  have hne : t ≠ tid := fun e => hout (e ▸ ht')
  exact (hso.separated.fresh_keys (e := ⟨key, none, none⟩) hc hheld hfree hu hne (by rw [hq]; trivial) he).symm

theorem stored_of_staging (hp : c.phase = .staging (op :: todo))
    (hl : l.Sublist s.unapplied) (hfree : s.inflightOn op.id = false) (idx : Nat) :
    (s.after l).frame (op.id, idx) = s.db.extents.get (op.id, idx) := by
  have hph := (hso.separated.call tid c hc).phaseOk hp
  refine after_frame_locked hso hc (hph.1 (hph.2.1 op mem_cons_self).id_mem)
    (Sys.not_mem_unapplied hso.ordered hc (.inr (.inr ⟨_, hp⟩))) hl fun w hw hid => ?_
  exact absurd hid (Sys.not_inflightOn hfree hw)

theorem after_frame_staged (hp : c.phase = .staging (op :: todo))
    (hl : l.Sublist s.unapplied) (hok : Sys.StagedOk s op r) {e : Edit} (he : e ∈ r.passes.flatten) :
    (s.after l).frame e.key = s.db.extents.get e.key := by
  have hph := (hso.separated.call tid c hc).phaseOk hp
  refine after_frame_locked hso hc ?_ (Sys.not_mem_unapplied hso.ordered hc (.inr (.inr ⟨_, hp⟩))) hl fun w hw hid => ?_
  · rw [hok.key_id e he]; exact hph.1 (hph.2.1 op mem_cons_self).id_mem
  · exact hok.free e he w hw (hid.trans (hok.key_id e he))

end

theorem frames_stagedCall : (Sys.stagedCall c r todo).txn.frames =
    c.txn.frames ++ r.passes.flatten.map fun e => (e.key, e.frame) := by
  show ((c.txn.staged ++ r.passes).flatten.map fun e => (e.key, e.frame)) = _
  rw [flatten_append, map_append]
  rfl

/-- The frames of the staged inode: the new edits over the view. -/
theorem staged_frame (hfresh : ∀ e ∈ c.txn.edits, e.key.1 ≠ op.id) {idx : Nat} {f : Frame}
    (hf : (v.apply (Sys.stagedCall c r todo).txn).frame (op.id, idx) = some f) :
    (∃ e ∈ r.passes.flatten, e.key = (op.id, idx) ∧ e.frame = some f) ∨
      ((∀ e ∈ r.passes.flatten, e.key ≠ (op.id, idx)) ∧ v.frame (op.id, idx) = some f) := by
  have hold : newest c.txn.frames (op.id, idx) = none := by
    refine newest_eq_none_iff.2 fun p hp => ?_
    obtain ⟨e, he, rfl⟩ := mem_map.1 hp
    intro heq
    have heq' : e.key = (op.id, idx) := heq
    exact hfresh e he (by rw [heq'])
  have hf' : (newest (Sys.stagedCall c r todo).txn.frames (op.id, idx)).getD (v.frame (op.id, idx)) = some f := hf
  rw [frames_stagedCall, newest_append, hold, Option.or_none] at hf'
  cases hn : newest (r.passes.flatten.map fun e => (e.key, e.frame)) (op.id, idx) with
  | none =>
    rw [hn] at hf'
    refine .inr ⟨fun e he heq => ?_, hf'⟩
    exact newest_eq_none_iff.1 hn _ (mem_map_of_mem he) heq
  | some o =>
    rw [hn] at hf'
    have hmem := mem_of_newest hn
    obtain ⟨e, he, heq⟩ := mem_map.1 hmem
    obtain ⟨hk, hfr⟩ := Prod.mk.inj heq
    exact .inl ⟨e, he, hk, hfr.trans hf'⟩

/-- New frames replace old ones or lie below the size of a file that does not shrink. -/
theorem boundedAt_grow (hB : v.BoundedAt op.id) (hfresh : ∀ e ∈ c.txn.edits, e.key.1 ≠ op.id)
    (hg : Grows (v.inode op.id) ((v.apply c.txn).inode op.id))
    (hnew : ∀ e ∈ r.passes.flatten, ∀ f, e.frame = some f → (∃ f', v.frame e.key = some f') ∨
      ∀ a, (v.apply c.txn).inode op.id = some a → e.key.2 < extentCount a.size) :
    (v.apply (Sys.stagedCall c r todo).txn).BoundedAt op.id := by
  intro idx f i hf (hi : (v.apply c.txn).inode op.id = some i)
  obtain ⟨b, hb, hle⟩ := hg i hi
  have hold : ∀ f', v.frame (op.id, idx) = some f' → idx < extentCount i.size := fun f' hf' =>
    lt_of_lt_of_le (hB idx f' b hf' hb) (extentCount_mono hle)
  rcases staged_frame hfresh hf with ⟨e, he, hk, hfr⟩ | ⟨_, hfr⟩
  · have := hnew e he f hfr
    rw [hk] at this
    rcases this with ⟨f', hf'⟩ | hlt
    · exact hold f' hf'
    · exact hlt i hi
  · exact hold f hfr

/-- The extents past the new size are deleted. -/
theorem boundedAt_truncate (hso : Sound s) (hl : l.Sublist s.unapplied) (hB : (s.after l).Bounded) (hc : s.At tid c)
    {id : InodeId} {oldSize newSize : Nat} (hp : c.phase = .staging (.truncate id oldSize newSize :: todo))
    (hfree : s.inflightOn id = false) (hst : s.stageTruncate sealedLen lane id oldSize newSize = some r)
    (hle : ∀ b, (s.after l).inode id = some b → b.size ≤ oldSize)
    (heq : ∀ a, ((s.after l).apply c.txn).inode id = some a → ((s.after l).inode id).isSome ∧ a.size = newSize) :
    ((s.after l).apply (Sys.stagedCall c r todo).txn).BoundedAt id := by
  have hph := (hso.separated.call tid c hc).phaseOk hp
  have hfresh := hph.2.2.2 _ mem_cons_self
  have hstored := stored_of_staging hso hc hp hl hfree
  -- what is staged: the deleted extents, and the last one
  obtain ⟨es, hflat, hlast⟩ : ∃ es,
      r.passes.flatten = s.deleteEdits id (extentCount newSize) (extentCount oldSize) ++ es ∧
        ∀ e ∈ es, e.key.2 < extentCount newSize := by
    unfold Sys.stageTruncate at hst
    split at hst
    · cases hst; exact ⟨[], by simp, fun _ => nofun⟩
    rename_i hmod
    obtain ⟨⟨es, g⟩, hse, hst⟩ := Option.bind_eq_some_iff.1 hst
    cases hst
    refine ⟨es, by simp, fun e he => ?_⟩
    obtain ⟨p, hp', hk, _⟩ := Sys.mem_stageEdits hso.stored.cached hse he
    cases mem_singleton.1 hp'
    rw [hk]
    exact Sys.extentCount_pred_lt hmod
  intro idx f i hf (hi : ((s.after l).apply c.txn).inode id = some i)
  obtain ⟨hsome, rfl⟩ := heq i hi
  obtain ⟨b, hb⟩ := Option.isSome_iff_exists.1 hsome
  rcases staged_frame hfresh hf with ⟨e, he, hk, hfr⟩ | ⟨hnone, hfr⟩
  · rw [hflat] at he
    rcases mem_append.1 he with he | he
    · obtain ⟨_, _, _, _, hnone, _⟩ := Sys.mem_deleteEdits he
      cases hnone.symm.trans hfr
    · have hlt := hlast e he; rwa [hk] at hlt
  · by_contra hge
    have hlt : idx < extentCount oldSize := lt_of_lt_of_le (hB id idx f b hfr hb) (extentCount_mono (hle b hb))
    have hfr' : s.db.extents.get (id, idx) = some f := (hstored idx).symm.trans hfr
    refine hnone ⟨(id, idx), none, some f.loc⟩ (hflat ▸ mem_append_left _ ?_) rfl
    exact mem_map.2 ⟨(idx, f), Sys.mem_scanExtents.2 ⟨hfr', Nat.not_lt.1 hge, hlt⟩, rfl⟩

/-- **A staged operation leaves no extent past the end of the file**, whatever part of the queue is applied before
it. -/
theorem bounded_staged (hso : Sound s) (hl : l.Sublist s.unapplied) (hB : (s.after l).Bounded) (hc : s.At tid c)
    (hp : c.phase = .staging (op :: todo)) (hst : s.stageOp sealedLen lane op = some r)
    (hsafe : OpSafe ((s.after l).inode op.id) (((s.after l).apply c.txn).inode op.id) op) :
    ((s.after l).apply (Sys.stagedCall c r todo).txn).BoundedAt op.id := by
  have hcall := hso.separated.call tid c hc
  have hph := hcall.phaseOk hp
  have hfresh := hph.2.2.2 op mem_cons_self
  have hok := (hcall.staged hso.stored.cached hp hst).1
  cases op with
  | write id offset data oldSize =>
    obtain ⟨_, hg, hend⟩ := hsafe
    have hne : data ≠ [] := (hph.2.1 _ mem_cons_self).1
    have hlen : 0 < data.length := length_pos_iff.2 hne
    obtain ⟨_, hspan⟩ := Sys.stageWrite_span hso.stored.cached hne hst
    refine boundedAt_grow (hB _) hfresh hg fun e he f _ => .inr fun a ha => ?_
    have hle := (hspan e he).2
    have := hend a ha
    rw [lt_extentCount]
    unfold extentSize at *
    omega
  | truncate id oldSize newSize =>
    simp only [Sys.stageOp] at hst
    simp only [OpSafe] at hsafe
    split at hst
    · cases hst; rw [if_neg (by omega)] at hsafe; exact boundedAt_grow (hB _) hfresh hsafe (by simp)
    · split at hst
      · cases hst
      rename_i hlt hfree
      rw [if_pos (by omega)] at hsafe
      exact boundedAt_truncate hso hl hB hc hp (Bool.eq_false_iff.2 hfree) hst hsafe.1 hsafe.2
  | zeroRange id offset length fileSize =>
    refine boundedAt_grow (hB _) hfresh hsafe fun e he f hf => .inl ?_
    -- bytes are only zeroed in extents that are stored
    have hview := after_frame_staged hso hc hp hl hok he
    simp only [Sys.stageOp] at hst
    split at hst
    · cases hst
    obtain ⟨⟨es, g⟩, hse, hst⟩ := Option.bind_eq_some_iff.1 hst
    cases hst
    obtain ⟨p, hp', hk, hd, _⟩ := Sys.mem_stageEdits hso.stored.cached hse (by simpa using he)
    obtain ⟨idx, _, hz⟩ := mem_filterMap.1 hp'
    rw [hf] at hd
    obtain ⟨x, hx⟩ := zeroEdit_stored hz hd.symm
    obtain ⟨f', hf', _⟩ := Option.map_eq_some_iff.1 hx
    exact ⟨f', by rw [hview, hk]; exact hf'⟩
  | deleteRange id start stop =>
    refine boundedAt_grow (hB _) hfresh hsafe fun e he f hf => ?_
    obtain ⟨-, rfl⟩ := Machine.of_guard_not hst
    obtain ⟨_, _, _, _, hnone, _⟩ := Sys.mem_deleteEdits (by simpa using he)
    cases hnone.symm.trans hf
  | repoint id items =>
    refine boundedAt_grow (hB _) hfresh hsafe fun e he f hf => .inl ?_
    -- a swapped extent was stored before
    have hview := after_frame_staged hso hc hp hl hok he
    obtain ⟨_, hedits, _⟩ := Sys.stagedOk_repoint (hcall.items_nodup id items (hph.2.1 _ mem_cons_self)) hst
    rw [hedits] at he
    obtain ⟨item, _, he⟩ := mem_filterMap.1 he
    obtain ⟨f', hf', hk', _⟩ := Sys.repointEdit_eq_some he
    exact ⟨f', by rw [hview, hk', hf']⟩

theorem Fits.staged (hso : Sound s) (hc : s.At tid c) (hp : c.phase = .staging (op :: todo))
    (hst : s.stageOp sealedLen lane op = some r) (hf : Fits F v c)
    (hB : (v.apply (Sys.stagedCall c r todo).txn).BoundedAt op.id) : Fits F v (Sys.stagedCall c r todo) := by
  unfold Fits at hf
  rw [hp] at hf
  obtain ⟨hops, hbound⟩ := hf
  have hok := ((hso.separated.call tid c hc).staged hso.stored.cached hp hst).1
  refine ⟨fun op' hop => hops op' (mem_cons_of_mem _ hop), fun id hid hnot => ?_⟩
  by_cases hne : id = op.id
  · rw [hne]; exact hB
  refine (hbound id hid ?_).congr rfl fun idx => ?_
  · rw [map_cons, mem_cons, not_or]; exact ⟨hne, hnot⟩
  show (newest (Sys.stagedCall c r todo).txn.frames (id, idx)).getD _ = (newest c.txn.frames (id, idx)).getD _
  rw [frames_stagedCall, newest_append, newest_eq_none_iff.2]
  · rfl
  intro p hp
  obtain ⟨e, he, rfl⟩ := mem_map.1 hp
  intro heq
  have heq' : e.key = (id, idx) := heq
  exact hne (by rw [← hok.key_id e he, heq'])

theorem Achieves.staged (hp : c.phase = .staging (op :: todo)) (h : Achieves R v c) :
    Achieves R v (Sys.stagedCall c r todo) := by
  unfold Achieves at h
  rw [hp] at h
  exact h

/-- The transaction is submitted: no extent lies past the end of a file. -/
theorem Fits.bounded (hok : CallOk c) (hp : c.phase = .staging []) (hB : v.Bounded) (hf : Fits F v c) :
    (v.apply c.txn).Bounded := by
  unfold Fits at hf
  rw [hp] at hf
  intro id
  by_cases hid : id ∈ c.ids
  · exact hf.2 id hid not_mem_nil
  refine (hB id).congr (View.apply_inode_of_not_mem fun u hu e => hid (e ▸ hok.updates_ids u hu)) fun idx => ?_
  refine View.apply_frame_of_not_mem fun e he heq => hid ?_
  have := hok.edits_ids e he
  rw [heq] at this
  exact this

end Staging

end ZeroFS
