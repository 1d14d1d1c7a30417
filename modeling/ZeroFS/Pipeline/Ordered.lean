import ZeroFS.Pipeline.Separated

/-!
# Submission order

The calls that are not answered stand in the worker's lists and in the queue in submission order, each once, and their
phases say how far they are (`Ordered`). `Moved` says in six cases what a step does to the calls and the queue.
-/

namespace ZeroFS

open List

/-- Call `t` is in a phase with `p`. -/
def InPhase (calls : Table Nat Call) (p : CallPhase → Prop) (t : Nat) : Prop := ∃ c, calls.get t = some c ∧ p c.phase

namespace InPhase

variable {calls : Table Nat Call} {p q : CallPhase → Prop} {t tid : Nat} {c c' : Call}

theorem phase (h : InPhase calls p t) (hc : calls.get t = some c) : p c.phase := by
  obtain ⟨u, hu, hp⟩ := h
  cases hc.symm.trans hu
  exact hp

theorem put_ne (hne : t ≠ tid) : InPhase (calls.put tid c') p t ↔ InPhase calls p t := by
  unfold InPhase
  rw [Table.get_put_ne hne]

theorem put_self : InPhase (calls.put tid c') p tid ↔ p c'.phase := by
  unfold InPhase
  rw [Table.get_put_self]
  constructor
  · rintro ⟨c, hc, hp⟩; cases hc; exact hp
  · intro hp; exact ⟨c', rfl, hp⟩

end InPhase

def CallPhase.isQueued (p : CallPhase) : Prop := p = .queued

def CallPhase.isSettled (p : CallPhase) : Prop := p = .settled

def CallPhase.isAnswered (p : CallPhase) : Prop := ∃ r, p = .answered r

/-- How far the calls in the worker's hands are. -/
def Worker.PhasesOk (calls : Table Nat Call) : Worker → Prop
  | idle => True
  | drained batch => ∀ t ∈ batch, InPhase calls CallPhase.isQueued t
  | settling _ done todo =>
    (∀ t ∈ done, InPhase calls CallPhase.isSettled t) ∧ ∀ t ∈ todo, InPhase calls CallPhase.isQueued t
  | sending applied _ todo =>
    (∀ t ∈ todo, InPhase calls CallPhase.isSettled t) ∨
      (applied = false ∧ ∀ t ∈ todo, InPhase calls CallPhase.isQueued t)

/-- Submitted calls stand in one order, each once. -/
structure Ordered (s : Sys) : Prop where
  nodup : s.unsent.Nodup
  mem_iff : ∀ t, t ∈ s.unsent ↔ InPhase s.calls CallPhase.submitted t
  queue : ∀ t ∈ s.queue, InPhase s.calls CallPhase.isQueued t
  worker : s.worker.PhasesOk s.calls
  log : ∃ done, s.log = done ++ s.unsent ∧ ∀ t ∈ done, InPhase s.calls CallPhase.isAnswered t

namespace Ordered

theorem PhasesOk.congr {w : Worker} {calls calls' : Table Nat Call} (h : w.PhasesOk calls)
    (hcalls : ∀ t ∈ w.unsent, ∀ p, InPhase calls p t → InPhase calls' p t) : w.PhasesOk calls' := by
  cases w with
  | idle => trivial
  | drained batch => exact fun t ht => hcalls t ht _ (h t ht)
  | settling applied done todo =>
    exact ⟨fun t ht => hcalls t (mem_append_left _ ht) _ (h.1 t ht),
      fun t ht => hcalls t (mem_append_right _ ht) _ (h.2 t ht)⟩
  | sending applied result todo =>
    rcases h with h | ⟨ha, h⟩
    · exact .inl fun t ht => hcalls t ht _ (h t ht)
    · exact .inr ⟨ha, fun t ht => hcalls t ht _ (h t ht)⟩

variable {s : Sys} {c : Call}

theorem unsubmitted (hu : Sys.Unsubmitted c) : ¬c.phase.submitted ∧ ¬c.phase.isAnswered := by
  rcases hu with ⟨_, hp⟩ | ⟨_, _, hp⟩ | ⟨_, hp⟩ <;> rw [hp] <;> exact ⟨id, nofun⟩

theorem phases {w : Worker} (h : Ordered s) (hw : s.worker = w) : w.PhasesOk s.calls := hw ▸ h.worker

end Ordered

/-! ## The shape of a step -/

/-- The steps of the worker between batches and within one, and those on segments and caches. -/
def Action.shifting : Action → Bool
  | .drain _ | .reject _ | .reply _ | .rotate _ | .pack | .loadLocation _ | .evictLocation _ | .evictTail _ => true
  | _ => false

/-- The steps of a call before its submission. -/
def Action.editing : Action → Bool
  | .spawn .. | .compact .. | .lock _ | .start _ | .prepare .. | .stage .. | .abort _ => true
  | _ => false

namespace Sys


/-- A call that is not submitted changes, and nothing of the queue and of the committed state does. -/
structure Edited (s s' : Sys) (tid : Nat) (c' : Call) : Prop where
  calls : s'.calls = s.calls.put tid c'
  db : s'.db = s.db
  worker : s'.worker = s.worker
  queue : s'.queue = s.queue
  log : s'.log = s.log
  pending : s'.pending = s.pending
  nextSeq : s'.nextSeq = s.nextSeq
  before : ∀ c, s.At tid c → Unsubmitted c
  after : ¬c'.phase.submitted

/-- The worker moves on, or something changes that no call depends on. -/
structure Shifted (s : Sys) (a : Action) (s' : Sys) : Prop where
  calls : s'.calls = s.calls
  db : s'.db = s.db
  log : s'.log = s.log
  pending : s'.pending = s.pending
  nextSeq : s'.nextSeq = s.nextSeq
  queue : s'.queue ⊆ s.queue
  phases : s'.worker.PhasesOk s.calls
  unsent : s'.unsent = s.unsent
  applied : s'.worker.applied = s.worker.applied
  unapplied : s'.unapplied = s.unapplied ∨ (∃ late, a = .reject late) ∧ s'.unapplied = s.queue

/-- A transaction takes its place in the queue. -/
structure Enqueued (s s' : Sys) (tid : Nat) (c : Call) : Prop where
  get : s.At tid c
  phase : c.phase = .staging []
  calls : s'.calls = s.calls.put tid (s.queuedCall c)
  db : s'.db = s.db
  worker : s'.worker = s.worker
  queue : s'.queue = s.queue ++ [tid]
  log : s'.log = s.log ++ [tid]
  pending : s'.pending = s.installPending c
  nextSeq : s'.nextSeq = s.nextSeq + c.txn.inodes.length

/-- The first call in the worker's hands is answered. -/
structure Replied (s s' : Sys) (applied : Bool) (result : Except FsError Unit) (tid : Nat) (todo : List Nat)
    (c : Call) : Prop where
  sending : s.worker = .sending applied result (tid :: todo)
  get : s.At tid c
  calls : s'.calls = s.calls.put tid (answeredCall c result)
  db : s'.db = s.db
  worker : s'.worker = afterSend applied result todo
  queue : s'.queue = s.queue
  log : s'.log = s.log
  pending : s'.pending = s.retirePending c
  nextSeq : s'.nextSeq = s.nextSeq

/-- What a step does to the calls and the queue. -/
inductive Moved (s : Sys) : Action → Sys → Prop
  | edit {a s' tid c'} (h : Edited s s' tid c') : Moved s a s'
  | shift {a s'} (h : Shifted s a s') : Moved s a s'
  | submit {s' tid c} (h : Enqueued s s' tid c) : Moved s (.submit tid) s'
  | apply {batch} (hw : s.worker = .drained batch) : Moved s .apply (s.applyBatch batch)
  | settle {applied done tid todo c} (hw : s.worker = .settling applied done (tid :: todo)) (hc : s.At tid c)
      (hp : c.phase = .queued) :
    Moved s .settle { s.settleCall tid c applied with worker := .settling applied (done ++ [tid]) todo }
  | answer {a s' applied result tid todo c} (h : Replied s s' applied result tid todo c) : Moved s a s'

variable {sealedLen : Extent → Nat} {s s' : Sys} {a : Action} {tid : Nat} {c c' : Call} {todo : List Nat}
  {applied : Bool}

theorem unsent_drained {batch : List Nat} (hw : s.worker = .drained batch) : s.unsent = batch ++ s.queue := by
  rw [unsent, hw]
  rfl

theorem unsent_settling {done : List Nat} (hw : s.worker = .settling applied done (tid :: todo)) :
    s.unsent = (done ++ [tid]) ++ todo ++ s.queue := by
  rw [unsent, hw]
  simp [Worker.unsent]

theorem not_submitted_planned {i : InodeId} {inode : Option Inode} {plan : Plan}
    {rs : List ProvisionalQuotaReservation} {todo : List Task} {ops : List ExtentOp} :
    ¬(planned c i inode plan rs todo ops).phase.submitted := by
  unfold planned
  split <;> exact id

theorem not_settled (hord : Ordered s) {done : List Nat} (hw : s.worker = .settling applied done (tid :: todo)) :
    ∃ c, s.At tid c ∧ c.phase = .queued :=
  (hord.phases hw).2 tid mem_cons_self

theorem rejected_of_queued (hord : Ordered s) {result : Except FsError Unit}
    (hw : s.worker = .sending applied result (tid :: todo)) (hc : s.At tid c) (hp : c.phase = .queued) :
    applied = false := by
  rcases hord.phases hw with hset | ⟨hf, _⟩
  · have := (hset tid mem_cons_self).phase hc; rw [hp] at this; cases this
  · exact hf

theorem Stepped.shifted (hord : Ordered s) (hs : Stepped sealedLen s a s') (ha : a.shifting = true) :
    Shifted s a s' := by
  cases hs with
  | @drain n hw hn hle =>
    refine ⟨rfl, rfl, rfl, rfl, rfl, drop_subset _ _, fun t ht => hord.queue t (mem_of_mem_take ht), ?_,
      by rw [hw]; rfl, .inl ?_⟩
    · rw [unsent, unsent, hw]; exact take_append_drop n s.queue
    · rw [unapplied, unapplied, hw]; exact take_append_drop n s.queue
  | @reject late batch hw =>
    have hbatch := hord.phases hw
    have hun := unsent_drained hw
    cases late with
    | false =>
      exact ⟨rfl, rfl, rfl, rfl, rfl, List.Subset.refl _, .inr ⟨rfl, hbatch⟩, hun.symm, by rw [hw]; rfl,
        .inr ⟨⟨_, rfl⟩, rfl⟩⟩
    | true =>
      exact ⟨rfl, rfl, rfl, rfl, rfl, List.Subset.refl _, ⟨nofun, hbatch⟩, hun.symm, by rw [hw]; rfl,
        .inr ⟨⟨_, rfl⟩, rfl⟩⟩
  | @reply durable applied done hw =>
    refine ⟨rfl, rfl, rfl, rfl, rfl, List.Subset.refl _, .inl (hord.phases hw).1, ?_, ?_, .inl ?_⟩
    · rw [unsent, unsent, hw]; simp [Worker.unsent]
    · rw [hw]; cases applied <;> simp [Worker.applied]
    · rw [unapplied, unapplied, hw]; rfl
  | rotate | pack | loadLocation | evictLocation | evictTail =>
    exact ⟨rfl, rfl, rfl, rfl, rfl, List.Subset.refl _, hord.worker, rfl, rfl, .inl rfl⟩
  | _ => cases ha

theorem before_of (hc : s.At tid c) (hu : Unsubmitted c) : ∀ u, s.At tid u → Unsubmitted u := by
  intro u hu'
  cases hc.symm.trans hu'
  exact hu

theorem Stepped.edited (hs : Stepped sealedLen s a s') (ha : a.editing = true) : ∃ tid c', Edited s s' tid c' := by
  cases hs with
  | spawn hnew hv | compact hnew =>
    exact ⟨_, _, rfl, rfl, rfl, rfl, rfl, rfl, rfl, fun c hc => (by cases hnew.symm.trans hc), id⟩
  | lock hc hp hb | start hc hp hfree =>
    exact ⟨_, _, rfl, rfl, rfl, rfl, rfl, rfl, rfl, before_of hc (.inl ⟨_, hp⟩), id⟩
  | prepare hc hp hplan hres =>
    exact ⟨_, _, rfl, rfl, rfl, rfl, rfl, rfl, rfl, before_of hc (.inr (.inl ⟨_, _, hp⟩)), not_submitted_planned⟩
  | refused hc hp hplan hres =>
    exact ⟨_, _, rfl, rfl, rfl, rfl, rfl, rfl, rfl, before_of hc (.inr (.inl ⟨_, _, hp⟩)), id⟩
  | invalid hc hp | abort hc hp => exact ⟨_, _, rfl, rfl, rfl, rfl, rfl, rfl, rfl, before_of hc hp, id⟩
  | stage hc hp hst => exact ⟨_, _, rfl, rfl, rfl, rfl, rfl, rfl, rfl, before_of hc (.inr (.inr ⟨_, hp⟩)), id⟩
  | _ => cases ha

theorem edited_noop (hc : s.At tid c) (hp : c.phase = .staging []) :
    Edited s (s.setCall tid { c with phase := .answered (.ok ()), held := [] }) tid
      { c with phase := .answered (.ok ()), held := [] } :=
  ⟨rfl, rfl, rfl, rfl, rfl, rfl, rfl, before_of hc (.inr (.inr ⟨_, hp⟩)), id⟩

theorem Stepped.moved (hord : Ordered s) (hs : Stepped sealedLen s a s') : Moved s a s' := by
  have hs' := hs
  cases hs with
  | spawn | compact | lock | start | prepare | refused | invalid | stage | abort =>
    obtain ⟨_, _, he⟩ := hs'.edited rfl
    exact .edit he
  | noop hc hp he => exact .edit (edited_noop hc hp)
  | submit hc hp he => exact .submit ⟨hc, hp, rfl, rfl, rfl, rfl, rfl, rfl, rfl⟩
  | drain | reject | reply | rotate | pack | loadLocation | evictLocation | evictTail =>
    exact .shift (hs'.shifted hord rfl)
  | apply hw => exact .apply hw
  | settle hw hc hp => exact .settle hw hc hp
  | send hw hc hp | sendSettle hw hc hp => exact .answer ⟨hw, hc, rfl, rfl, rfl, rfl, rfl, rfl, rfl⟩

theorem unapplied_subset_unsent : s.unapplied ⊆ s.unsent := by
  intro t ht
  rcases mem_append.1 ht with ht | ht
  · refine mem_append_left _ ?_
    cases hw : s.worker with
    | drained batch => rw [hw] at ht; exact ht
    | _ => rw [hw] at ht; cases ht
  · exact mem_append_right _ ht

theorem not_mem_unsent (h : Ordered s) (hc : s.At tid c) (hu : Unsubmitted c) : tid ∉ s.unsent := fun ht =>
  (Ordered.unsubmitted hu).1 (((h.mem_iff tid).1 ht).phase hc)

theorem not_mem_unapplied (h : Ordered s) (hc : s.At tid c) (hu : Unsubmitted c) : tid ∉ s.unapplied := fun ht =>
  not_mem_unsent h hc hu (unapplied_subset_unsent ht)

theorem unapplied_drained {batch : List Nat} (hw : s.worker = .drained batch) : s.unapplied = batch ++ s.queue := by
  rw [unapplied, hw]
  rfl

theorem not_mem_queue (h : Ordered s) {t : Nat} (ht : t ∈ s.worker.unsent) : t ∉ s.queue := fun hq =>
  (nodup_append.1 h.nodup).2.2 t ht t hq rfl

theorem unapplied_eq_queue (hw : s.worker.batch = []) : s.unapplied = s.queue := by
  unfold unapplied
  rw [hw]
  rfl

theorem unapplied_settling (h : Ordered s) {done : List Nat} (hw : s.worker = .settling applied done (tid :: todo)) :
    s.unapplied = s.queue ∧ tid ∉ s.unapplied := by
  have hun : s.unapplied = s.queue := unapplied_eq_queue (by rw [hw]; rfl)
  rw [hun]
  exact ⟨rfl, not_mem_queue h (by rw [hw]; exact mem_append_right _ mem_cons_self)⟩

theorem unapplied_sending (h : Ordered s) {result : Except FsError Unit}
    (hw : s.worker = .sending applied result (tid :: todo)) : s.unapplied = s.queue ∧ tid ∉ s.unapplied := by
  have hun : s.unapplied = s.queue := unapplied_eq_queue (by rw [hw]; rfl)
  rw [hun]
  exact ⟨rfl, not_mem_queue h (by rw [hw]; exact mem_cons_self)⟩

namespace Edited

theorem unsent (h : Edited s s' tid c') : s'.unsent = s.unsent := by
  unfold Sys.unsent
  rw [h.worker, h.queue]

theorem unapplied (h : Edited s s' tid c') : s'.unapplied = s.unapplied := by
  unfold Sys.unapplied
  rw [h.worker, h.queue]

theorem not_mem_unsent (h : Edited s s' tid c') (hord : Ordered s) : tid ∉ s.unsent := by
  intro ht
  obtain ⟨c, hc, hp⟩ := (hord.mem_iff tid).1 ht
  exact (Ordered.unsubmitted (h.before c hc)).1 hp

theorem not_mem_unapplied (h : Edited s s' tid c') (hord : Ordered s) : tid ∉ s.unapplied := fun ht =>
  h.not_mem_unsent hord (unapplied_subset_unsent ht)

end Edited

theorem Shifted.sublist (h : Shifted s a s') : s'.unapplied.Sublist s.unapplied := by
  rcases h.unapplied with heq | ⟨-, heq⟩
  · rw [heq]
  · rw [heq]; exact sublist_append_right _ _

namespace Enqueued

theorem unsubmitted (h : Enqueued s s' tid c) : Unsubmitted c := .inr (.inr ⟨_, h.phase⟩)

theorem unsent (h : Enqueued s s' tid c) : s'.unsent = s.unsent ++ [tid] := by
  unfold Sys.unsent
  rw [h.worker, h.queue, append_assoc]

theorem unapplied (h : Enqueued s s' tid c) : s'.unapplied = s.unapplied ++ [tid] := by
  unfold Sys.unapplied
  rw [h.worker, h.queue, append_assoc]

theorem get_new (h : Enqueued s s' tid c) :
    s'.calls.get tid = some (s.queuedCall c) := by rw [h.calls, Table.get_put_self]

end Enqueued

namespace Replied

variable {applied : Bool} {result : Except FsError Unit} {todo : List Nat}

section

variable (h : Replied s s' applied result tid todo c)
include h

theorem unsent : s.unsent = tid :: s'.unsent := by
  rw [Sys.unsent, Sys.unsent, h.sending, h.worker, h.queue, afterSend_unsent]
  rfl

theorem not_mem_unsent (hord : Ordered s) : tid ∉ s'.unsent := by
  have := hord.nodup
  rw [h.unsent] at this
  exact (nodup_cons.1 this).1

theorem unapplied : s'.unapplied = s.unapplied := by
  rw [unapplied_eq_queue (by rw [h.worker]; exact afterSend_batch _ _ _), h.queue,
    unapplied_eq_queue (by rw [h.sending]; rfl)]

end

end Replied

end Sys

namespace Ordered

variable {s s' : Sys} {tid : Nat} {c c' : Call}

theorem edit (h : Ordered s) (he : Sys.Edited s s' tid c') : Ordered s' := by
  have hun := he.unsent
  have hfar : ∀ t, InPhase s.calls CallPhase.submitted t → t ≠ tid := by
    rintro t ⟨c, hc, hsub⟩ rfl
    exact (unsubmitted (he.before c hc)).1 hsub
  have hkeep : ∀ t ∈ s.unsent, ∀ p, InPhase s.calls p t → InPhase s'.calls p t := by
    intro t ht p hpt
    rw [he.calls]
    exact (InPhase.put_ne (hfar t ((h.mem_iff t).1 ht))).2 hpt
  refine ⟨hun ▸ h.nodup, ?_, ?_, ?_, ?_⟩
  · intro t
    rw [hun, h.mem_iff, he.calls]
    by_cases hne : t = tid
    · subst hne
      rw [InPhase.put_self]
      exact ⟨fun hsub => absurd rfl (hfar t hsub), fun hsub => absurd hsub he.after⟩
    · rw [InPhase.put_ne hne]
  · intro t ht; rw [he.queue] at ht; exact hkeep t (mem_append_right _ ht) _ (h.queue t ht)
  · rw [he.worker]; exact PhasesOk.congr h.worker fun t ht => hkeep t (mem_append_left _ ht)
  · obtain ⟨done, hdone, hans⟩ := h.log
    refine ⟨done, by rw [he.log, hun, hdone], fun t ht => ?_⟩
    rw [he.calls, InPhase.put_ne]
    · exact hans t ht
    rintro rfl
    obtain ⟨c, hc, ha⟩ := hans t ht
    exact (unsubmitted (he.before c hc)).2 ha

theorem submit (h : Ordered s) (he : Sys.Enqueued s s' tid c) : Ordered s' := by
  obtain ⟨hns, hna⟩ := unsubmitted he.unsubmitted
  have hfar := Sys.not_mem_unsent h he.get he.unsubmitted
  have hkeep : ∀ t, t ≠ tid → ∀ p, InPhase s.calls p t → InPhase s'.calls p t := by
    intro t hne p hpt
    rw [he.calls]
    exact (InPhase.put_ne hne).2 hpt
  have hun : ∀ t ∈ s.unsent, t ≠ tid := fun t ht e => hfar (e ▸ ht)
  refine ⟨?_, fun t => ?_, fun t ht => ?_, ?_, ?_⟩
  · rw [he.unsent]
    exact nodup_append.2 ⟨h.nodup, nodup_singleton _, fun t ht t' ht' => mem_singleton.1 ht' ▸ hun t ht⟩
  · rw [he.unsent, he.calls, mem_append, mem_singleton]
    by_cases hne : t = tid
    · subst hne; exact ⟨fun _ => InPhase.put_self.2 trivial, fun _ => .inr rfl⟩
    · rw [InPhase.put_ne hne, ← h.mem_iff]; exact ⟨fun ht => ht.resolve_right hne, .inl⟩
  · rw [he.queue] at ht
    rcases mem_append.1 ht with ht | ht
    · exact hkeep t (hun t (mem_append_right _ ht)) _ (h.queue t ht)
    · rw [mem_singleton.1 ht, he.calls]; exact InPhase.put_self.2 rfl
  · rw [he.worker]; exact PhasesOk.congr h.worker fun t ht => hkeep t (hun t (mem_append_left _ ht))
  · obtain ⟨done, hdone, hans⟩ := h.log
    refine ⟨done, by rw [he.log, he.unsent, hdone, append_assoc], fun t ht => hkeep t ?_ _ (hans t ht)⟩
    rintro rfl
    exact hna ((hans t ht).phase he.get)

theorem put_same (h : Ordered s) (hc : s.At tid c) (hsub : c.phase.submitted)
    (hcalls : s'.calls = s.calls.put tid c') (hw : s'.worker.unsent = s.worker.unsent) (hq : s'.queue = s.queue)
    (hlog : s'.log = s.log) (hsub' : c'.phase.submitted)
    (hqueue : ∀ t ∈ s.queue, InPhase (s.calls.put tid c') CallPhase.isQueued t)
    (hworker : s'.worker.PhasesOk (s.calls.put tid c')) : Ordered s' := by
  have hun : s'.unsent = s.unsent := by
    unfold Sys.unsent
    rw [hw, hq]
  refine ⟨hun ▸ h.nodup, fun t => ?_, ?_, ?_, ?_⟩
  · rw [hun, h.mem_iff, hcalls]
    by_cases hne : t = tid
    · subst hne; rw [InPhase.put_self]; exact ⟨fun _ => hsub', fun _ => ⟨c, hc, hsub⟩⟩
    · rw [InPhase.put_ne hne]
  · rw [hq, hcalls]; exact hqueue
  · rw [hcalls]; exact hworker
  · obtain ⟨done, hdone, hans⟩ := h.log
    refine ⟨done, by rw [hlog, hun, hdone], fun t ht => ?_⟩
    rw [hcalls, InPhase.put_ne]
    · exact hans t ht
    rintro rfl
    obtain ⟨r, hr⟩ := (hans t ht).phase hc
    rw [hr] at hsub
    exact hsub

theorem answer {applied : Bool} {result : Except FsError Unit} {todo : List Nat} (h : Ordered s)
    (hr : Sys.Replied s s' applied result tid todo c) : Ordered s' := by
  have hph := h.phases hr.sending
  have hun := hr.unsent
  have hun' : s'.unsent = todo ++ s.queue := by rw [Sys.unsent, hr.worker, hr.queue, Sys.afterSend_unsent]
  have hnot := hr.not_mem_unsent h
  have hne : ∀ t ∈ s'.unsent, t ≠ tid := fun t ht e => hnot (e ▸ ht)
  have hkeep : ∀ p, ∀ t ∈ s'.unsent, InPhase s.calls p t → InPhase s'.calls p t := by
    intro p t ht hpt
    rw [hr.calls]
    exact (InPhase.put_ne (hne t ht)).2 hpt
  obtain ⟨hnd, hmem, hqueue, _, done, hdone, hans⟩ := h
  rw [hun] at hnd hdone
  refine ⟨(nodup_cons.1 hnd).2, fun t => ?_, fun t ht => ?_, ?_, ?_⟩
  · have hm := hmem t
    rw [hun, mem_cons] at hm
    by_cases hte : t = tid
    · subst hte
      refine ⟨fun ht => absurd ht hnot, fun hsub => ?_⟩
      rw [hr.calls, InPhase.put_self] at hsub
      exact absurd hsub id
    · rw [hr.calls, InPhase.put_ne hte, ← hm]; exact ⟨.inr, fun ht => ht.resolve_left hte⟩
  · rw [hr.queue] at ht; exact hkeep _ t (hun' ▸ mem_append_right _ ht) (hqueue t ht)
  · have htodo : ∀ t ∈ todo, t ∈ s'.unsent := fun t ht => hun' ▸ mem_append_left _ ht
    rw [hr.worker]
    unfold Sys.afterSend
    split
    · trivial
    rcases hph with hph | ⟨ha, hph⟩
    · exact .inl fun t ht => hkeep _ t (htodo t ht) (hph t (mem_cons_of_mem _ ht))
    · exact .inr ⟨ha, fun t ht => hkeep _ t (htodo t ht) (hph t (mem_cons_of_mem _ ht))⟩
  · refine ⟨done ++ [tid], by rw [hr.log, hdone]; simp, fun t ht => ?_⟩
    rw [hr.calls]
    by_cases hte : t = tid
    · subst hte; exact InPhase.put_self.2 ⟨result, rfl⟩
    · rw [InPhase.put_ne hte]
      exact hans t ((mem_append.1 ht).resolve_right fun hm => hte (mem_singleton.1 hm))

end Ordered

namespace Sys

variable {sealedLen : Extent → Nat} {s s' : Sys} {a : Action}

/-- **Every step keeps the submission order.** -/
theorem step_ordered (h : Ordered s) (hs : Stepped sealedLen s a s') : Ordered s' := by
  cases hs.moved h with
  | edit he => exact h.edit he
  | submit he => exact h.submit he
  | answer hr => exact h.answer hr
  | shift hm =>
    refine ⟨hm.unsent ▸ h.nodup, fun t => ?_, fun t ht => ?_, hm.calls ▸ hm.phases, ?_⟩
    · rw [hm.unsent, hm.calls]; exact h.mem_iff t
    · rw [hm.calls]; exact h.queue t (hm.queue ht)
    · rw [hm.log, hm.unsent, hm.calls]; exact h.log
  | @apply batch hw =>
    have hbatch := h.phases hw
    have hun := unsent_drained hw
    obtain ⟨hnd, hmem, hq, _, hlog⟩ := h
    rw [hun] at hnd hlog
    simp only [hun] at hmem
    exact ⟨hnd, hmem, hq, ⟨nofun, hbatch⟩, hlog⟩
  | @settle applied done tid todo c hw hc hp =>
    have hph := h.phases hw
    have hnd := h.nodup
    rw [unsent_settling hw] at hnd
    have hin : ∀ t, t ∈ done ∨ t ∈ todo ∨ t ∈ s.queue → t ≠ tid := by
      rintro t ht rfl
      rw [append_assoc, append_assoc, nodup_append] at hnd
      obtain ⟨_, hnd, hne⟩ := hnd
      rcases ht with ht | ht
      · exact hne t ht t (by simp) rfl
      · exact (nodup_cons.1 hnd).1 (by simpa using ht)
    refine h.put_same hc (by rw [hp]; trivial) rfl ?_ rfl rfl trivial ?_ ?_
    · rw [hw]; simp [Worker.unsent]
    · exact fun t ht => (InPhase.put_ne (hin t (.inr (.inr ht)))).2 (h.queue t ht)
    · refine ⟨fun t ht => ?_, fun t ht => (InPhase.put_ne (hin t (.inr (.inl ht)))).2 (hph.2 t (mem_cons_of_mem _ ht))⟩
      rcases mem_append.1 ht with ht | ht
      · exact (InPhase.put_ne (hin t (.inl ht))).2 (hph.1 t ht)
      · rw [mem_singleton.1 ht]; exact InPhase.put_self.2 rfl

end Sys

end ZeroFS
