import ZeroFS.Extent.SparseFile
import ZeroFS.Pipeline.Bytes

/-!
# Queued writes take effect in the order of their submission

Without a rejected batch a call plans from the view, the state after everything that is submitted, and submitting it
writes to the view as to an array of bytes (`SparseFile`).
-/

namespace ZeroFS

open Machine Updates List

/-- The file of an inode in a view. -/
def View.file (v : View) (id : InodeId) : SparseFile := ⟨recordSize (v.inode id), v.byte id⟩

/-- The range and the data of a write on the inode. -/
def Task.writeOn (id : InodeId) : Task → Option (Nat × List UInt8)
  | write i offset data => if i = id then some (offset, data) else none
  | _ => none

/-- The writes on an inode that a list of calls makes, in order. -/
def Sys.writesOn (s : Sys) (id : InodeId) (tids : List Nat) : List (Nat × List UInt8) :=
  tids.flatMap fun t => ((s.calls.get t).map Call.tasks).getD [] |>.filterMap (Task.writeOn id)

/-- A write makes the file as long as it needs. -/
def WriteExact (before after : Option Inode) : Task → Prop
  | .write _ offset data => ∃ b a, before = some b ∧ after = some a ∧
      a.size = if data = [] then b.size else max b.size (offset + data.length)
  | _ => True

/-! ## The writes of a call -/

section Writes

variable {tasks : List Task} {id : InodeId} {offset : Nat} {data : List UInt8}

theorem writeOn_eq_some {t : Task} {w : Nat × List UInt8} : t.writeOn id = some w ↔ t = .write id w.1 w.2 := by
  cases t with
  | write i o d =>
    simp only [Task.writeOn, Option.ite_none_right_eq_some, Option.some.injEq, Task.write.injEq]
    constructor
    · rintro ⟨rfl, rfl⟩; exact ⟨rfl, rfl, rfl⟩
    · rintro ⟨rfl, rfl, rfl⟩; exact ⟨rfl, rfl⟩
  | _ => exact ⟨nofun, nofun⟩

theorem writeOn_of_not_mem (h : id ∉ tasks.map Task.id) : tasks.filterMap (Task.writeOn id) = [] := by
  refine eq_nil_iff_forall_not_mem.2 fun w hw => h ?_
  obtain ⟨t, ht, hwt⟩ := mem_filterMap.1 hw
  rw [writeOn_eq_some.1 hwt] at ht
  exact mem_map_of_mem (f := Task.id) ht

theorem writeOn_of_mem (hn : (tasks.map Task.id).Nodup) (h : Task.write id offset data ∈ tasks) :
    tasks.filterMap (Task.writeOn id) = [(offset, data)] := by
  induction tasks with
  | nil => cases h
  | cons t rest ih =>
    rw [map_cons, nodup_cons] at hn
    rcases mem_cons.1 h with rfl | h
    · have hsome : (Task.write id offset data).writeOn id = some (offset, data) := writeOn_eq_some.2 rfl
      have hrest : rest.filterMap (Task.writeOn id) = [] := writeOn_of_not_mem hn.1
      rw [filterMap_cons, hsome, hrest]
    have hid : id ∈ rest.map Task.id := mem_map_of_mem (f := Task.id) h
    have hnone : t.writeOn id = none := by
      refine Option.eq_none_iff_forall_not_mem.2 fun w hw => hn.1 ?_
      rw [writeOn_eq_some.1 hw]
      exact hid
    rw [filterMap_cons, hnone]
    exact ih hn.2 h

end Writes

/-! ## The invariant -/

/-- No batch is rejected and only writes are made. -/
def Action.pureWrite (a : Action) : Bool := a.noReject && a.isWriting

abbrev PureWrite (_ : Sys) (a : Action) : Prop := a.pureWrite = true

/-- The files of the view are the sequential result of the submitted writes. -/
def Replayed (file : InodeId → SparseFile) (s : Sys) : Prop :=
  ∀ id, s.view.file id = (file id).writeAll (s.writesOn id s.log)

/-- What a run of writes without a rejected batch keeps. -/
structure Linear (file : InodeId → SparseFile) (s : Sys) : Prop where
  sound : Sound s
  accepted : s.worker.rejected = []
  fitted : Viewed View.Bounded Fitted s
  tail : TailOk s
  staged : Viewed (fun _ => True) (fun v c => Achieves WriteExact v c ∧ Laid v c ∧ Complete c) s
  files : Replayed file s

namespace Sys

variable {sealedLen : Extent → Nat} {s s' : Sys} {a : Action} {file : InodeId → SparseFile}

theorem get_of_log (hord : Ordered s) {t : Nat} (ht : t ∈ s.log) : ∃ c, s.At t c := by
  obtain ⟨done, hlog, hdone⟩ := hord.log
  rw [hlog] at ht
  rcases mem_append.1 ht with ht | ht
  · obtain ⟨c, hc, _⟩ := hdone t ht; exact ⟨c, hc⟩
  · obtain ⟨c, hc, _⟩ := (hord.mem_iff t).1 ht; exact ⟨c, hc⟩

theorem writesOn_log (hord : Ordered s) (hs : Stepped sealedLen s a s') (id : InodeId) :
    s'.writesOn id s.log = s.writesOn id s.log := by
  refine flatMap_congr fun t ht => ?_
  obtain ⟨c, hc⟩ := get_of_log hord ht
  obtain ⟨c', hc', htasks⟩ := step_tasks hs hc
  rw [hc, hc', Option.map_some, Option.map_some, htasks]

theorem plan_exact {now : Nat → Timestamp} {creds : Credentials} {checkPermissions : Bool} {inode : Option Inode}
    {plan : Plan} {task : Task} (h : task.plan now creds checkPermissions inode = .ok plan) :
    WriteExact inode (plan.after inode) task := by
  cases task with
  | write id offset data =>
    have hfits := (plan_ok h).fits
    obtain ⟨i, rfl, hp⟩ := withInode_eq_ok h
    obtain ⟨size, a, p, n, k, rfl, ⟨hempty, rfl⟩ | ⟨hne, _, rfl⟩⟩ := planWrite_ok hp
    · exact ⟨_, _, rfl, rfl, (if_pos hempty).symm⟩
    · obtain ⟨b, x, hb, hx, hbs, hxs⟩ := hfits _ mem_cons_self
      exact ⟨b, x, hb, hx, by rw [if_neg hne, hxs, hbs]⟩
  | _ => trivial

/-- What a call stages is its data over the view. -/
theorem step_laid (h : Linear file s) (ha : PureWrite s a) (hs : Stepped sealedLen s a s') :
    Viewed (fun _ => True) (fun v c => Achieves WriteExact v c ∧ Laid v c ∧ Complete c) s' := by
  have hso := h.sound
  refine h.staged.step hso hs ?_ ⟨?_, ?_, ?_⟩ (fun _ _ _ _ => trivial) ?_
  · intro v v' c hok hag ⟨hach, hlaid, hcomp⟩; exact ⟨hach.local hag, hlaid.local hok hag, hcomp⟩
  · intro tid c hc hp
    exact ⟨fun t ht hnot => absurd (mem_map_of_mem ht) hnot, .start (hso.separated.call tid c hc) hp, .start c⟩
  · intro tid now c task todo ops plan rs q _ hc hp hplan _
    have hok := hso.separated.call tid c hc
    obtain ⟨hach, _, hcomp⟩ := h.staged.call tid c hc (by rw [hp]; trivial)
    refine ⟨hach.planned hok hp ?_, .planned hok hp, hcomp.planned hok hp hplan⟩
    have hexact := plan_exact hplan
    rw [visible_of_accepted hso h.accepted] at hexact ⊢
    rw [← Plan.after_eq]
    exact hexact
  · intro tid lane c op todo r hc hp hst
    obtain ⟨hach, hlaid, hcomp⟩ := h.staged.call tid c hc (by rw [hp]; trivial)
    have hfits := h.fitted.call tid c hc (by rw [hp]; trivial)
    unfold Fitted Fits at hfits
    have hph := (hso.separated.call tid c hc).phase
    rw [hp] at hph hfits
    obtain ⟨id, offset, data, oldSize, rfl⟩ := write_of_pipelined (h.tail.pipelined tid c hc) (hph.2.1 op mem_cons_self)
    obtain ⟨b, _, hb, _, hbs, _⟩ := hfits.1 _ mem_cons_self
    exact ⟨hach.staged hp, Laid.staged hso h.tail (List.Sublist.refl _) h.fitted.base hc hp hst ⟨b, hb, hbs.le⟩ hlaid,
      hcomp.staged hso hc hp hst⟩
  · rintro late rfl; cases ha

theorem file_apply {tid : Nat} {c : Call} (h : Linear file s) (hc : s.At tid c) (hp : c.phase = .staging [])
    (id : InodeId) :
    (s.view.apply c.txn).file id = (s.view.file id).writeAll (c.tasks.filterMap (Task.writeOn id)) := by
  have hok := h.sound.separated.call tid c hc
  obtain ⟨hach, hlaid, hcomp⟩ := h.staged.call tid c hc (by rw [hp]; trivial)
  unfold Achieves at hach
  rw [hp] at hach
  by_cases hid : id ∈ c.ids
  · obtain ⟨t, ht, rfl⟩ := mem_map.1 hid
    have hwrite := all_eq_true.1 (h.tail.pipelined tid c hc) t ht
    cases t with
    | write id offset data =>
      obtain ⟨b, a, hb, ha, hsize⟩ := hach _ ht
      have hb' : s.view.inode id = some b := hb
      have ha' : (s.view.apply c.txn).inode id = some a := ha
      show (s.view.apply c.txn).file id = (s.view.file id).writeAll (c.tasks.filterMap (Task.writeOn id))
      rw [writeOn_of_mem hok.nodup ht]
      show (s.view.apply c.txn).file id = (s.view.file id).write offset data
      have hbyte : (s.view.apply c.txn).byte id = ((s.view.file id).write offset data).byte := by
        funext pos
        rw [SparseFile.byte_write]
        exact byte_apply hok hp hlaid hcomp ht pos
      unfold View.file at hbyte ⊢
      rw [hbyte, ha', hb']
      unfold SparseFile.write
      show SparseFile.mk a.size _ = _
      rw [hsize]
      split <;> rfl
    | _ => cases hwrite
  · rw [writeOn_of_not_mem hid]
    have hrow : (s.view.apply c.txn).inode id = s.view.inode id :=
      View.apply_inode_of_not_mem fun u hu e => hid (e ▸ hok.updates_ids u hu)
    have hbyte : (s.view.apply c.txn).byte id = s.view.byte id := funext fun pos => byte_apply_of_not_mem hok hid pos
    unfold View.file
    rw [hrow, hbyte]
    rfl

theorem files_submit {tid : Nat} {c : Call} (h : Linear file s) (he : Enqueued s s' tid c)
    (hwrites : ∀ id, s'.writesOn id s.log = s.writesOn id s.log) : Replayed file s' := by
  intro id
  have hnew : s'.writesOn id [tid] = c.tasks.filterMap (Task.writeOn id) := by
    unfold writesOn
    rw [flatMap_singleton, he.get_new]
    rfl
  have happ : s'.writesOn id (s.log ++ [tid]) = s'.writesOn id s.log ++ s'.writesOn id [tid] := flatMap_append
  rw [he.view h.sound.ordered, file_apply h he.get he.phase id, h.files id, he.log, happ, hwrites id, hnew,
    SparseFile.writeAll_append]

theorem step_files (h : Linear file s) (ha : PureWrite s a) (hs : Stepped sealedLen s a s') : Replayed file s' := by
  have hord := h.sound.ordered
  have hwrites := writesOn_log hord hs
  have hsame : s'.view = s.view → s'.log = s.log → Replayed file s' := by
    intro hview hlog id
    rw [hview, hlog, hwrites, h.files id]
  by_cases hsub : ∃ tid, a = .submit tid
  · obtain ⟨tid, rfl⟩ := hsub
    cases hs with
    | noop hc hp he => exact hsame (view_put rfl rfl rfl (not_mem_unapplied hord hc (.inr (.inr ⟨_, hp⟩)))) rfl
    | submit hc hp he => exact files_submit h ⟨hc, hp, rfl, rfl, rfl, rfl, rfl, rfl, rfl⟩ hwrites
  · have hrej : ∀ late, a ≠ .reject late := by
      rintro late rfl
      cases ha
    refine hsame (view_eq hord hs (fun tid e => hsub ⟨tid, e⟩) hrej) ?_
    cases hs with
    | submit => exact absurd ⟨_, rfl⟩ hsub
    | _ => rfl

theorem step_linear (h : Linear file s) (ha : PureWrite s a) (hs : Stepped sealedLen s a s') : Linear file s' := by
  obtain ⟨hrej, hwr⟩ := Bool.and_eq_true_iff.1 ha
  exact ⟨h.sound.step hs, step_accepted h.accepted hs hrej, step_fitted h.sound h.accepted h.fitted hs hrej,
    step_tailOk h.tail h.sound hwr hs, step_laid h ha hs, step_files h ha hs⟩

end Sys

/-! ## The result -/

section Result

variable {sealedLen : Extent → Nat} {db : Db} {quota : LogicalQuota} {segments : Segments} {s : Sys}

theorem boot_tailOk (db : Db) (quota : LogicalQuota) (segments : Segments) : TailOk (Sys.boot db quota segments) := by
  refine ⟨fun _ _ => no_calls, fun _ _ => no_calls, fun t ht => absurd ht not_mem_nil,
    fun id idx x hx => ?_⟩
  cases (Table.get_empty id).symm.trans hx

theorem boot_linear (h : db.view.Bounded) : Linear db.view.file (Sys.boot db quota segments) := by
  exact ⟨boot_sound _ _ _, rfl, ⟨h, fun _ _ => no_calls⟩, boot_tailOk _ _ _,
    ⟨trivial, fun _ _ => no_calls⟩, fun _ => rfl⟩

/-- **Queued writes linearise in the order of their submission.** When nothing is queued any more, every file is what
the submitted writes make of it one after another; and every extent that is about to be submitted is the data of its
write over the bytes of all writes submitted before it. -/
theorem writes_linearise (h : db.view.Bounded)
    (hr : Reach (Sys.step sealedLen) PureWrite (Sys.boot db quota segments) s) :
    (s.unapplied = [] → ∀ id, s.db.view.file id = (db.view.file id).writeAll (s.writesOn id s.log)) ∧
    ∀ tid c, s.calls.get tid = some c → c.phase = .staging [] →
      ∀ id offset data, Task.write id offset data ∈ c.tasks → ∀ e ∈ c.txn.edits, e.key.1 = id → ∀ j : Fin extentSize,
        Extent.ofEdit (e.frame.map Frame.data) j =
          (((db.view.file id).writeAll (s.writesOn id s.log)).write offset data).byte (e.key.2 * extentSize + j) := by
  have hinv := hr.invariant (I := Linear db.view.file) (boot_linear h) fun s a t hi ha hstep => Sys.step_linear hi ha
    (hi.sound.stepped (Action.awaited_of_noReject (Bool.and_eq_true_iff.1 ha).1) hstep)
  refine ⟨fun hnone id => ?_, fun tid c hc hp id offset data ht e he hid j => ?_⟩
  · have hview : s.view = s.db.view := by
      rw [← Sys.after_unapplied, hnone]
      rfl
    rw [← hview]
    exact hinv.files id
  obtain ⟨_, hlaid, _⟩ := hinv.staged.call tid c hc (by rw [hp]; trivial)
  subst hid
  have hj := j.isLt
  have hdiv : (e.key.2 * extentSize + j) / extentSize = e.key.2 := by
    rw [Nat.mul_comm, Nat.mul_add_div extentSize_pos, Nat.div_eq_of_lt hj, Nat.add_zero]
  have hmod : (e.key.2 * extentSize + j) % extentSize = j := by
    rw [Nat.mul_comm, Nat.mul_add_mod, Nat.mod_eq_of_lt hj]
  rw [← hinv.files e.key.1, SparseFile.byte_write, hlaid e he offset data ht]
  unfold Extent.overlay
  split
  · rfl
  congr 1
  · rw [hdiv]
  · exact Fin.ext hmod.symm

theorem reach_sound (h : Reach (Sys.step sealedLen) Awaited (Sys.boot db quota segments) s) : Sound s :=
  h.invariant (I := Sound) (boot_sound ..) fun _ _ _ hi ha hs => hi.step (hi.stepped ha hs)

/-- **Calls are isolated**, whatever batches are rejected: no inode is locked twice, the calls in flight edit different
extents, and answers leave in the order of submission. -/
theorem calls_isolated (h : Reach (Sys.step sealedLen) Awaited (Sys.boot db quota segments) s) :
    (∀ t t' c c', s.calls.get t = some c → s.calls.get t' = some c' → t ≠ t' → c.held.Disjoint c'.held ∧
      (c.phase.active → c'.phase.active → ∀ e ∈ c.txn.edits, ∀ e' ∈ c'.txn.edits, e.key ≠ e'.key)) ∧
    ∃ done, s.log = done ++ s.unsent ∧ (∀ t ∈ done, InPhase s.calls CallPhase.isAnswered t) ∧
      ∀ t ∈ s.unsent, ¬InPhase s.calls CallPhase.isAnswered t := by
  have hso := reach_sound h
  refine ⟨fun t t' c c' hc hc' hne => ⟨hso.separated.exclusive t t' c c' hc hc' hne,
    hso.separated.disjoint t t' c c' hc hc' hne⟩, ?_⟩
  obtain ⟨done, hlog, hdone⟩ := hso.ordered.log
  refine ⟨done, hlog, hdone, fun t ht hans => ?_⟩
  obtain ⟨c, hc, hp⟩ := (hso.ordered.mem_iff t).1 ht
  obtain ⟨r, hr⟩ := hans.phase hc
  rw [hr] at hp
  exact hp

/-- **Readers are up to date**: a location is read as it is stored, and an inode as the queue leaves it, unless a
rejected transaction that is not answered yet has saved it. -/
theorem reads_current (h : Reach (Sys.step sealedLen) Awaited (Sys.boot db quota segments) s) :
    (∀ id n idx, s.lookupLoc id n idx = s.db.locOf (id, idx)) ∧
    ∀ id, (∀ p ∈ s.rowsOf s.worker.rejected, p.1 ≠ id) →
      s.visible id = (s.db.applyBatch (s.txnsOf s.unapplied)).inodes.get id := by
  have hso := reach_sound h
  refine ⟨Sys.lookupLoc_eq hso.stored.cached, fun id hr => ?_⟩
  rw [Db.get_inodes_applyBatch]
  exact (Sys.visible_eq_view hso.overlaid hso.ordered hr).trans (Sys.view_inode id)

end Result

/-- Two writes of one file are queued at once; a third one waits for the first extent and writes next to its byte. -/
def linearRun : List Action :=
  Sample.write 0 1 0 [7] ++ Sample.write 1 1 40000 [8] ++ [.drain 2, .apply, .settle, .settle, .reply true, .send,
    .send] ++ Sample.write 2 1 1 [9] ++ [.drain 1, .apply, .settle, .reply true, .send]

theorem linearRun_done : (run (guarded (Sys.step Sample.sealedLen) PureWrite) (Sample.boot 1000000) linearRun).map
    (fun s => (s.unapplied, s.writesOn 1 s.log)) = some ([], [(0, [7]), (40000, [8]), (1, [9])]) := by decide +kernel

theorem writes_linearise_sample : ∃ s, Reach (Sys.step Sample.sealedLen) PureWrite (Sample.boot 1000000) s ∧
    (s.db.view.file 1).size = 40001 ∧ (s.db.view.file 1).byte 0 = 7 ∧ (s.db.view.file 1).byte 1 = 9 ∧
      (s.db.view.file 1).byte 40000 = 8 := by
  obtain ⟨s, hs, heq⟩ := Option.map_eq_some_iff.1 linearRun_done
  obtain ⟨hun, hwrites⟩ := Prod.mk.inj heq
  have hr : Reach (Sys.step Sample.sealedLen) PureWrite (Sample.boot 1000000) s := reach_of_run .init hs
  have hfile := (writes_linearise Sample.counts_exact.bounded hr).1 hun 1
  rw [hwrites] at hfile
  refine ⟨s, hr, ?_⟩
  rw [hfile]
  exact ⟨by decide +kernel, by decide +kernel, by decide +kernel, by decide +kernel⟩

/-- Two writes are applied and the first one is answered. -/
theorem halfAnswered_reached : ∃ s, Reach (Sys.step Sample.sealedLen) Awaited (Sample.boot 10) s ∧ s.log = [0, 1] ∧
    s.unsent = [1] ∧ s.worker.rejected = [] :=
  ⟨_, reach_of_run .init (l := Sample.write 0 1 0 [7] ++ Sample.write 1 2 0 [8] ++
    [.drain 2, .apply, .settle, .settle, .reply true, .send]) rfl, rfl, rfl, rfl⟩

theorem calls_isolated_answered : ∃ s, Reach (Sys.step Sample.sealedLen) Awaited (Sample.boot 10) s ∧
    ∃ done, [0, 1] = done ++ [1] ∧ (∀ t ∈ done, InPhase s.calls CallPhase.isAnswered t) ∧
      ∀ t ∈ [1], ¬InPhase s.calls CallPhase.isAnswered t := by
  obtain ⟨s, hr, hlog, hun, -⟩ := halfAnswered_reached
  have hans := (calls_isolated hr).2
  rw [hlog, hun] at hans
  exact ⟨s, hr, hans⟩

theorem reads_current_answered : ∃ s, Reach (Sys.step Sample.sealedLen) Awaited (Sample.boot 10) s ∧
    s.visible 2 = (s.db.applyBatch (s.txnsOf s.unapplied)).inodes.get 2 := by
  obtain ⟨s, hr, -, -, hrej⟩ := halfAnswered_reached
  exact ⟨s, hr, (reads_current hr).2 2 (by rw [hrej]; exact nofun)⟩

end ZeroFS
