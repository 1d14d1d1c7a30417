import ZeroFS.Pipeline.Stage

/-!
# What a call holds in each phase

`CallOk` relates a call's phase to its locks, planned operations and staged transaction: rows and extents belong to the
call's inodes, each once, and the extents of a write lie in the ranges it claims in flight.
-/

namespace ZeroFS

open List

/-! ## Plans -/

/-- An operation planned for one of the tasks. -/
def OpOk (tasks : List Task) : ExtentOp → Prop
  | .write id offset data _ => data ≠ [] ∧ Task.write id offset data ∈ tasks
  | .repoint id items => Task.repoint id items ∈ tasks
  | op => op.id ∈ tasks.map Task.id ∧ tasks.all Task.isWrite = false

theorem OpOk.id_mem {tasks : List Task} {op : ExtentOp} (h : OpOk tasks op) : op.id ∈ tasks.map Task.id := by
  cases op with
  | write id offset data _ => exact mem_map_of_mem (f := Task.id) h.2
  | repoint id items => exact mem_map_of_mem (f := Task.id) h
  | truncate | zeroRange | deleteRange => exact h.1

theorem not_all_isWrite {tasks : List Task} {t : Task} (h : t ∈ tasks) (ht : t.isWrite = false) :
    tasks.all Task.isWrite = false := by
  rw [all_eq_false]
  exact ⟨t, h, by simp [ht]⟩

section Plans

variable {now : Nat → Timestamp} {creds : Credentials} {checkPermissions : Bool} {inode : Option Inode} {plan : Plan}
  {id : InodeId}

theorem withInode_eq_ok {f : Inode → Except FsError Plan} (h : Task.withInode inode f = .ok plan) :
    ∃ i, inode = some i ∧ f i = .ok plan := by
  cases inode with
  | none => cases h
  | some i => exact ⟨i, rfl, h⟩

/-- A planned write: the visible file, the operation, and the growth past its size. -/
theorem planWrite_ok {offset : Nat} {data : List UInt8} {i : Inode}
    (h : Task.planWrite now creds checkPermissions id offset data i = .ok plan) :
    ∃ size a p n k, i = .leaf ⟨.file size, a, p, n, k⟩ ∧ ((data = [] ∧ plan = {}) ∨
      (data ≠ [] ∧ offset + data.length ≤ u64Max ∧ plan = {
        update := (NsDb.writeRecord now creds ⟨.file size, a, p, n, k⟩ size offset data.length).map (some ∘ Inode.leaf)
        ops := [.write id offset data size]
        growth := max size (offset + data.length) - size })) := by
  obtain ⟨record, hr, h⟩ := bind_eq_ok.1 h
  cases h
  unfold NsDb.writeInode at hr
  split at hr
  · refine ⟨_, _, _, _, _, rfl, ?_⟩
    obtain ⟨_, _, hr⟩ := bind_eq_ok.1 hr
    split at hr
    · have hnil : data = [] := length_eq_zero_iff.1 (by assumption)
      exact .inl ⟨hnil, if_pos hnil⟩
    have hne : data ≠ [] := fun e => absurd (by rw [e]; rfl) (by assumption : ¬data.length = 0)
    obtain ⟨_, hle, hr⟩ := bind_eq_ok.1 hr
    cases hr
    refine .inr ⟨hne, Nat.not_lt.1 (throwIf_eq_ok.1 hle), (if_neg hne).trans ?_⟩
    rw [Option.map_map]
    rfl
  · cases hr

/-- At most one operation, and it belongs to the task. -/
def PlanOps (t : Task) (ops : List ExtentOp) : Prop :=
  (ops.map ExtentOp.id).Sublist [t.id] ∧ ∀ tasks, t ∈ tasks → ∀ op ∈ ops, OpOk tasks op

theorem PlanOps.nil (t : Task) : PlanOps t [] := ⟨nil_sublist _, fun _ _ _ hop => absurd hop not_mem_nil⟩

theorem PlanOps.one {t : Task} {op : ExtentOp} (hid : op.id = t.id) (hok : ∀ tasks, t ∈ tasks → OpOk tasks op) :
    PlanOps t [op] := by
  refine ⟨by simp [hid], fun tasks ht op' hop => ?_⟩
  rw [mem_singleton.1 hop]
  exact hok tasks ht

/-- An operation of a task that is not a write. -/
theorem opOk_of_task {t : Task} (ht : t.isWrite = false) {tasks : List Task} (hmem : t ∈ tasks) :
    t.id ∈ tasks.map Task.id ∧ tasks.all Task.isWrite = false :=
  ⟨mem_map_of_mem (f := Task.id) hmem, not_all_isWrite hmem ht⟩

/-- The record once the plan is committed. -/
def Plan.after (plan : Plan) (inode : Option Inode) : Option Inode :=
  match inode, plan.update with
  | some _, some value => value
  | inode, _ => inode

/-- The size of an inode that may not exist. -/
def recordSize (inode : Option Inode) : Nat := inode.elim 0 Inode.size

/-- The inode is gone, or it existed and is at least as long. -/
def Grows (before after : Option Inode) : Prop := ∀ a, after = some a → ∃ b, before = some b ∧ b.size ≤ a.size

theorem Grows.refl (inode : Option Inode) : Grows inode inode := fun a ha => ⟨a, ha, le_rfl⟩

theorem Grows.none (before : Option Inode) : Grows before none := nofun

theorem Grows.trans {a b c : Option Inode} (h : Grows a b) (h' : Grows b c) : Grows a c := by
  intro z hz
  obtain ⟨y, hy, hle⟩ := h' z hz
  obtain ⟨x, hx, hle'⟩ := h y hy
  exact ⟨x, hx, hle'.trans hle⟩

/-- The operation works with the size of the record before the plan, up to the size after it. -/
def OpFits (before after : Option Inode) : ExtentOp → Prop
  | .write _ offset data oldSize =>
    ∃ b a, before = some b ∧ after = some a ∧ b.size = oldSize ∧ a.size = max oldSize (offset + data.length)
  | .truncate _ oldSize newSize => ∃ b a, before = some b ∧ after = some a ∧ b.size = oldSize ∧ a.size = newSize
  | .zeroRange _ _ _ fileSize => ∃ b a, before = some b ∧ after = some a ∧ b.size = fileSize ∧ fileSize ≤ a.size
  | .deleteRange .. | .repoint .. => Grows before after

/-- The bytes that a plan reserves and releases are the change of the size. -/
def Plan.Sized (plan : Plan) (inode : Option Inode) : Prop :=
  plan.growth = recordSize (plan.after inode) - recordSize inode ∧
    plan.shrink = recordSize inode - recordSize (plan.after inode)

theorem Plan.Sized.refl (hg : plan.growth = 0) (hs : plan.shrink = 0)
    (h : recordSize (plan.after inode) = recordSize inode) : plan.Sized inode := by
  unfold Plan.Sized
  rw [hg, hs, h, Nat.sub_self]
  exact ⟨rfl, rfl⟩

/-- What a task plans. -/
structure PlanOk (t : Task) (inode : Option Inode) (plan : Plan) : Prop where
  ops : PlanOps t plan.ops
  fits : ∀ op ∈ plan.ops, OpFits inode (plan.after inode) op
  grows : plan.ops = [] → Grows inode (plan.after inode)
  size : plan.Sized inode

variable {t : Task} {offset : Nat} {i : Inode}

theorem PlanOk.nil (hops : plan.ops = []) (hgrows : Grows inode (plan.after inode))
    (hsize : plan.Sized inode) : PlanOk t inode plan := by
  refine ⟨hops ▸ .nil t, fun op hop => ?_, fun _ => hgrows, hsize⟩
  rw [hops] at hop
  cases hop

theorem PlanOk.one {op : ExtentOp} (hops : plan.ops = [op]) (hid : op.id = t.id)
    (hok : ∀ tasks, t ∈ tasks → OpOk tasks op) (hfits : OpFits inode (plan.after inode) op)
    (hsize : plan.Sized inode) : PlanOk t inode plan := by
  refine ⟨hops ▸ .one hid hok, fun op' hop => ?_, fun hnil => ?_, hsize⟩
  · rw [hops] at hop; rw [mem_singleton.1 hop]; exact hfits
  · cases hops.symm.trans hnil

theorem PlanOk.idle (t : Task) (inode : Option Inode) : PlanOk t inode {} := by
  refine .nil rfl ?_ ?_
  · cases inode <;> exact .refl _
  · cases inode <;> exact .refl rfl rfl rfl

theorem planOk_deletion (ht : t.isWrite = false) (i : Inode) :
    PlanOk t (some i) (Task.deletion t.id i) := by
  have hsize : (Task.deletion t.id i).Sized (some i) := ⟨(Nat.zero_sub _).symm, rfl⟩
  by_cases hsmall : i.isFile ∧ extentCount i.size ≤ Task.smallFileTombstoneThreshold
  · exact .one (if_pos hsmall) rfl (fun _ hmem => opOk_of_task ht hmem) (Grows.none _) hsize
  · exact .nil (if_neg hsmall) (Grows.none _) hsize

/-- The record of a file after a write, when it is republished, and when it is not. -/
theorem writeRecord_size (now : Nat → Timestamp) (creds : Credentials) (l : LeafInode) (size offset len : Nat)
    (hl : l.kind = .file size) :
    ∃ a, ((NsDb.writeRecord now creds l size offset len).map (some ∘ Inode.leaf)).getD (some (.leaf l)) = some a ∧
      a.size = max size (offset + len) := by
  unfold NsDb.writeRecord
  dsimp only
  split
  · exact ⟨_, rfl, rfl⟩
  rename_i hsame
  refine ⟨.leaf l, rfl, ?_⟩
  have : max size (offset + len) = size := by
    by_contra hne
    exact hsame (.inl hne)
  rw [this]
  obtain ⟨kind, _, _, _, _⟩ := l
  cases hl
  rfl

theorem planOk_write {data : List UInt8}
    (h : Task.planWrite now creds checkPermissions id offset data i = .ok plan) :
    PlanOk (.write id offset data) (some i) plan := by
  obtain ⟨size, a, p, n, k, rfl, ⟨_, rfl⟩ | ⟨hne, _, rfl⟩⟩ := planWrite_ok h
  · exact .idle _ _
  obtain ⟨after, hafter, hsize⟩ := writeRecord_size now creds ⟨.file size, a, p, n, k⟩ size offset data.length rfl
  have heq : Plan.after
      { update := (NsDb.writeRecord now creds ⟨.file size, a, p, n, k⟩ size offset data.length).map (some ∘ Inode.leaf)
        ops := [.write id offset data size]
        growth := max size (offset + data.length) - size } (some (.leaf ⟨.file size, a, p, n, k⟩)) = some after := by
    rw [← hafter]
    cases NsDb.writeRecord now creds ⟨.file size, a, p, n, k⟩ size offset data.length <;> rfl
  refine .one rfl rfl (fun _ hmem => ⟨hne, hmem⟩) ⟨_, after, rfl, heq, rfl, hsize⟩ ?_
  unfold Plan.Sized
  rw [heq]
  show max size (offset + data.length) - size = after.size - size ∧ 0 = size - after.size
  omega

theorem planOk_setattr {attr : SetAttributes} {opened : Bool}
    (h : Task.planSetattr now creds id attr opened i = .ok plan) : PlanOk (.setattr id attr opened) (some i) plan := by
  obtain ⟨_, _, h⟩ := bind_eq_ok.1 h
  cases h
  generalize NsDb.setattrInode now creds attr i = j
  by_cases hne : j.size ≠ i.size
  · exact .one (if_pos hne) rfl (fun _ hmem => opOk_of_task rfl hmem) ⟨i, j, rfl, rfl, rfl, rfl⟩ ⟨rfl, rfl⟩
  refine .nil (if_neg hne) (fun a ha => ⟨i, rfl, ?_⟩) ⟨rfl, rfl⟩
  cases ha
  omega

theorem le_fallocateSize (mode : FallocateMode) (size stop : Nat) : size ≤ fallocateSize mode size stop := by
  unfold fallocateSize
  split <;> omega

theorem planOk_fallocate {length : Nat} {mode : FallocateMode}
    (h : Task.planFallocate now creds id offset length mode i = .ok plan) :
    PlanOk (.fallocate id offset length mode) (some i) plan := by
  unfold Task.planFallocate at h
  split at h
  · rename_i size a p n k
    cases h
    have hle := le_fallocateSize mode size (offset + length)
    have hzero : 0 = size - fallocateSize mode size (offset + length) := by omega
    by_cases hz : mode ≠ .allocate ∧ offset < size
    · exact .one (if_pos hz) rfl (fun _ hmem => opOk_of_task rfl hmem) ⟨_, _, rfl, rfl, rfl, hle⟩ ⟨rfl, hzero⟩
    refine .nil (if_neg hz) (fun b hb => ⟨_, rfl, ?_⟩) ⟨rfl, hzero⟩
    cases hb
    exact hle
  · cases h

theorem planOk_unlink {defer : Bool} (h : Task.planUnlink now id defer i = .ok plan) :
    PlanOk (.unlink id defer) (some i) plan := by
  have hkeep : ∀ (l l' : LeafInode), l'.kind = l.kind →
      PlanOk (.unlink id defer) (some (.leaf l)) { update := some (some (.leaf l')) } := by
    rintro ⟨_, _, _, _, _⟩ ⟨kind, _, _, _, _⟩ rfl
    refine .nil rfl (fun b hb => ⟨_, rfl, ?_⟩) ?_
    · cases hb; cases kind <;> exact le_rfl
    · cases kind <;> exact .refl rfl rfl rfl
  unfold Task.planUnlink at h
  split at h
  · rename_i l
    split at h
    · cases h; exact hkeep l _ rfl
    split at h
    · cases h; exact hkeep l _ rfl
    · cases h; exact planOk_deletion (t := .unlink id defer) rfl _
  · cases h

/-- **What a task plans**: at most one operation of its own, on the size of the record it read; the quota it reserves
and releases is the difference in size. -/
theorem plan_ok (h : t.plan now creds checkPermissions inode = .ok plan) : PlanOk t inode plan := by
  cases t with
  | write id offset data => obtain ⟨i, rfl, hp⟩ := withInode_eq_ok h; exact planOk_write hp
  | setattr id attr opened => obtain ⟨i, rfl, hp⟩ := withInode_eq_ok h; exact planOk_setattr hp
  | fallocate id offset length mode =>
    iterate 2 obtain ⟨_, _, h⟩ := bind_eq_ok.1 h
    obtain ⟨i, rfl, hp⟩ := withInode_eq_ok h
    exact planOk_fallocate hp
  | trim id offset length =>
    simp only [Task.plan] at h
    split at h
    · cases h; exact .idle _ _
    obtain ⟨i, rfl, hp⟩ := withInode_eq_ok h
    unfold Task.planTrim at hp
    split at hp
    · obtain ⟨_, _, hp⟩ := bind_eq_ok.1 hp
      obtain ⟨_, _, hp⟩ := bind_eq_ok.1 hp
      cases hp
      exact .one rfl rfl (fun _ hmem => opOk_of_task rfl hmem) ⟨_, _, rfl, rfl, rfl, le_rfl⟩ (.refl rfl rfl rfl)
    · cases hp
  | unlink id defer => obtain ⟨i, rfl, hp⟩ := withInode_eq_ok h; exact planOk_unlink hp
  | relocate id fromDir toDir toName =>
    obtain ⟨i, rfl, hp⟩ := withInode_eq_ok h
    cases hp
    have hsize := NsDb.relocate_size fromDir toDir toName i
    refine .nil rfl (fun b hb => ⟨i, rfl, ?_⟩) (.refl rfl rfl hsize)
    cases hb
    exact hsize.ge
  | reclaim id =>
    cases h
    unfold Task.planReclaim
    split
    · split
      · exact planOk_deletion (t := .reclaim id) rfl _
      · exact .idle _ _
    · exact .idle _ _
  | deleteExtents id start stop =>
    cases h
    cases inode <;> exact .one rfl rfl (fun _ hmem => opOk_of_task rfl hmem) (Grows.refl _) (.refl rfl rfl rfl)
  | repoint id items =>
    cases h
    cases inode <;> exact .one rfl rfl (fun _ hmem => hmem) (Grows.refl _) (.refl rfl rfl rfl)

theorem plan_ops (h : t.plan now creds checkPermissions inode = .ok plan) : PlanOps t plan.ops := (plan_ok h).ops

end Plans

/-! ## The invariant of a call -/

/-- The call may have staged extents that are not settled. -/
def CallPhase.active : CallPhase → Prop
  | .staging _ | .queued => True
  | _ => False

/-- The call is in the commit queue or in the worker's hands. -/
def CallPhase.submitted : CallPhase → Prop
  | .queued | .settled => True
  | _ => False

/-- The locks and planned operations of a call in each phase. -/
def PhaseOk (c : Call) : CallPhase → Prop
  | .locking todo => (∀ i ∈ c.ids, i ∈ todo ∨ i ∈ c.held) ∧ c.txn.inodes = [] ∧ c.txn.staged = []
  | .preparing todo ops =>
    c.ids ⊆ c.held ∧ c.txn.staged = [] ∧ (∀ t ∈ todo, t ∈ c.tasks) ∧ (∀ op ∈ ops, OpOk c.tasks op) ∧
      (ops.map ExtentOp.id ++ todo.map Task.id).Nodup ∧ (c.txn.inodes.map InodeUpdate.id ++ todo.map Task.id).Nodup
  | .staging todo => c.ids ⊆ c.held ∧ (∀ op ∈ todo, OpOk c.tasks op) ∧ (todo.map ExtentOp.id).Nodup ∧
      ∀ op ∈ todo, ∀ e ∈ c.txn.edits, e.key.1 ≠ op.id
  | .queued | .settled => c.pipelined = false → c.ids ⊆ c.held
  | .answered _ => True

/-- What every open call keeps. -/
structure CallOk (c : Call) : Prop where
  nodup : c.ids.Nodup
  items_nodup : ∀ id items, Task.repoint id items ∈ c.tasks → (items.map Prod.fst).Nodup
  updates_ids : ∀ u ∈ c.txn.inodes, u.id ∈ c.ids
  updates_nodup : (c.txn.inodes.map InodeUpdate.id).Nodup
  edits_nodup : (c.txn.edits.map Edit.key).Nodup
  edits_ids : ∀ e ∈ c.txn.edits, e.key.1 ∈ c.ids
  edits_span : c.pipelined = true →
    ∀ e ∈ c.txn.edits, ∃ sp ∈ c.spans, sp.1 = e.key.1 ∧ sp.2.1 ≤ e.key.2 ∧ e.key.2 ≤ sp.2.2
  phase : PhaseOk c c.phase

namespace CallOk

variable {c : Call}

theorem new {tasks : List Task} {creds : Credentials} {checkPermissions : Bool} {todo : List InodeId}
    (hn : (tasks.map Task.id).Nodup) (hi : ∀ id items, Task.repoint id items ∈ tasks → (items.map Prod.fst).Nodup)
    (htodo : ∀ i ∈ tasks.map Task.id, i ∈ todo) :
    CallOk ⟨tasks, creds, checkPermissions, .locking todo, [], {}, [], 0, []⟩ := by
  refine ⟨hn, hi, fun _ h => absurd h not_mem_nil, nodup_nil, nodup_nil, fun _ h => absurd h not_mem_nil,
    fun _ _ h => absurd h not_mem_nil, fun i h => .inl (htodo i h), rfl, rfl⟩

theorem phaseOk {p : CallPhase} (h : CallOk c) (hp : c.phase = p) : PhaseOk c p := hp ▸ h.phase

/-- A later phase asks for no more than the locks it keeps. -/
theorem advance (h : CallOk c) {p : CallPhase} {held : List InodeId} {growth : List ProvisionalQuotaReservation}
    {shrink : Nat} {owned : List (InodeId × Nat)} (hp : PhaseOk { c with phase := p, held := held } p) :
    CallOk { c with phase := p, held := held, growth := growth, shrink := shrink, owned := owned } := by
  refine ⟨h.nodup, h.items_nodup, h.updates_ids, h.updates_nodup, h.edits_nodup, h.edits_ids, h.edits_span, ?_⟩
  cases p <;> exact hp

theorem lock {id : InodeId} {todo : List InodeId} (h : CallOk c) (hp : c.phase = .locking (id :: todo)) :
    CallOk { c with held := id :: c.held, phase := .locking todo } := by
  obtain ⟨hheld, hi, hs⟩ := h.phaseOk hp
  refine h.advance ⟨fun i hi => ?_, hi, hs⟩
  rcases hheld i hi with hm | hm
  · rcases mem_cons.1 hm with rfl | hm
    · exact .inr mem_cons_self
    · exact .inl hm
  · exact .inr (mem_cons_of_mem _ hm)

theorem start (h : CallOk c) (hp : c.phase = .locking []) : CallOk { c with phase := .preparing c.tasks [] } := by
  obtain ⟨hheld, hi, hs⟩ := h.phaseOk hp
  refine h.advance ⟨fun i hi => (hheld i hi).resolve_left not_mem_nil, hs, fun _ ht => ht, fun _ => nofun, h.nodup, ?_⟩
  rw [hi]
  exact h.nodup

theorem updates_sublist (id : InodeId) (inode : Option Inode) (plan : Plan) :
    ((Sys.updates id inode plan).map InodeUpdate.id).Sublist [id] := by
  unfold Sys.updates
  split
  · exact List.Sublist.refl _
  · exact nil_sublist _

theorem not_mem_edits {t : Txn} (h : t.staged = []) (e : Edit) : e ∉ t.edits := by
  rw [Txn.edits, h]
  exact not_mem_nil

theorem planned {task : Task} {todo : List Task} {ops : List ExtentOp} {now : Nat → Timestamp} {inode : Option Inode}
    {plan : Plan} {rs : List ProvisionalQuotaReservation} (h : CallOk c) (hp : c.phase = .preparing (task :: todo) ops)
    (hplan : task.plan now c.creds c.checkPermissions inode = .ok plan) :
    CallOk (Sys.planned c task.id inode plan rs todo ops) := by
  obtain ⟨hheld, hs, htodo, hops, hopn, hun⟩ := h.phaseOk hp
  obtain ⟨hsub, hok⟩ := plan_ops hplan
  have htask : task ∈ c.tasks := htodo task mem_cons_self
  have hops' : ∀ op ∈ ops ++ plan.ops, OpOk c.tasks op := fun op hop =>
    (mem_append.1 hop).elim (hops op) (hok c.tasks htask op)
  have hopn' : ((ops ++ plan.ops).map ExtentOp.id ++ todo.map Task.id).Nodup := by
    refine List.Nodup.sublist ?_ hopn
    rw [map_append, append_assoc]
    exact (List.Sublist.refl _).append (hsub.append (List.Sublist.refl _))
  have hun' : ((c.txn.inodes ++ Sys.updates task.id inode plan).map InodeUpdate.id ++ todo.map Task.id).Nodup := by
    refine List.Nodup.sublist ?_ hun
    rw [map_append, append_assoc]
    exact (List.Sublist.refl _).append ((updates_sublist _ _ _).append (List.Sublist.refl _))
  have hedits : (Sys.planned c task.id inode plan rs todo ops).txn.edits = [] :=
    eq_nil_iff_forall_not_mem.2 (not_mem_edits hs)
  refine ⟨h.nodup, h.items_nodup, ?_, (nodup_append.1 hun').1, ?_, ?_, ?_, ?_⟩
  · intro u hu
    rcases mem_append.1 hu with hu | hu
    · exact h.updates_ids u hu
    have := (updates_sublist task.id inode plan).subset (mem_map_of_mem (f := InodeUpdate.id) hu)
    rw [mem_singleton.1 this]
    exact mem_map_of_mem (f := Task.id) htask
  · rw [hedits]; exact nodup_nil
  · rw [hedits]; exact fun _ => nofun
  · rw [hedits]; exact fun _ _ => nofun
  · by_cases ht : todo = []
    · subst ht
      exact ⟨hheld, hops', by simpa using hopn', fun _ _ => by rw [hedits]; exact fun _ => nofun⟩
    · rw [Sys.planned, if_neg ht]
      exact ⟨hheld, hs, fun t htt => htodo t (mem_cons_of_mem _ htt), hops', hopn', hun'⟩

theorem edits_stagedCall {r : Sys.Staged} {todo : List ExtentOp} :
    (Sys.stagedCall c r todo).txn.edits = c.txn.edits ++ r.passes.flatten := flatten_append

/-- The staged edits of an operation that belongs to the call. -/
theorem staged {s : Sys} {sealedLen : Extent → Nat} {lane : Nat} {op : ExtentOp} {todo : List ExtentOp} {r : Sys.Staged}
    (hc : s.LocationsCached) (h : CallOk c) (hp : c.phase = .staging (op :: todo))
    (hst : s.stageOp sealedLen lane op = some r) :
    Sys.StagedOk s op r ∧ CallOk (Sys.stagedCall c r todo) := by
  obtain ⟨hheld, hops, hopn, hfresh⟩ := h.phaseOk hp
  have hop : OpOk c.tasks op := hops op mem_cons_self
  have hok : Sys.StagedOk s op r := by
    by_cases hr : ∃ id items, op = .repoint id items
    · obtain ⟨id, items, rfl⟩ := hr; exact (Sys.stagedOk_repoint (h.items_nodup id items hop) hst).1
    refine (Sys.stageOp_spec hc ?_ (fun id items e => hr ⟨id, items, e⟩) hst).1
    rintro id offset oldSize rfl
    exact hop.1 rfl
  refine ⟨hok, h.nodup, h.items_nodup, h.updates_ids, h.updates_nodup, ?_, ?_, ?_, ?_⟩
  · rw [edits_stagedCall, map_append]
    refine nodup_append.2 ⟨h.edits_nodup, hok.nodup, ?_⟩
    intro k hk k' hk' heq
    obtain ⟨e, he, rfl⟩ := mem_map.1 hk
    obtain ⟨e', he', rfl⟩ := mem_map.1 hk'
    refine hfresh op mem_cons_self e he ?_
    rw [heq, hok.key_id e' he']
  · intro e he
    rw [edits_stagedCall] at he
    rcases mem_append.1 he with he | he
    · exact h.edits_ids e he
    · rw [hok.key_id e he]; exact hop.id_mem
  · intro hpipe e he
    rw [edits_stagedCall] at he
    rcases mem_append.1 he with he | he
    · exact h.edits_span hpipe e he
    -- only writes are planned for a pipelined call
    cases op with
    | write id offset data oldSize =>
      obtain ⟨hspan, hrange⟩ := Sys.stageWrite_span hc hop.1 hst
      refine ⟨(id, offset / extentSize, (offset + data.length - 1) / extentSize), ?_, (hok.key_id e he).symm,
        hrange e he⟩
      refine mem_filterMap.2 ⟨_, hop.2, ?_⟩
      simp only [Task.span, hspan, Option.map_some]
      rfl
    | repoint id items => exact absurd hpipe (Bool.eq_false_iff.1 (not_all_isWrite hop rfl))
    | truncate | zeroRange | deleteRange => exact absurd hpipe (Bool.eq_false_iff.1 hop.2)
  · refine ⟨hheld, fun op' ho => hops op' (mem_cons_of_mem _ ho), (nodup_cons.1 hopn).2, ?_⟩
    intro op' ho e he
    rw [edits_stagedCall] at he
    rcases mem_append.1 he with he | he
    · exact hfresh op' (mem_cons_of_mem _ ho) e he
    rw [hok.key_id e he]
    intro heq
    exact (nodup_cons.1 hopn).1 (heq ▸ mem_map_of_mem (f := ExtentOp.id) ho)

end CallOk

end ZeroFS
