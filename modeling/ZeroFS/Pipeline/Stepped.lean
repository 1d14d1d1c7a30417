import ZeroFS.Pipeline.CallOk

/-!
# What a step does

`Stepped` has one constructor for each way a step can go, with what was checked on the way; the invariants are proved by
cases on it.
-/

namespace ZeroFS

namespace Worker

/-- The calls in the worker's hands that are not answered yet, in order. -/
def unsent : Worker → List Nat
  | idle => []
  | drained batch => batch
  | settling _ done todo => done ++ todo
  | sending _ _ todo => todo

/-- The batch that is neither applied nor rejected yet. -/
def batch : Worker → List Nat
  | drained batch => batch
  | _ => []

/-- The calls of an applied batch that are not answered yet. -/
def applied : Worker → List Nat
  | settling true done todo => done ++ todo
  | sending true _ todo => todo
  | _ => []

/-- The calls of a rejected batch that are not answered yet. -/
def rejected : Worker → List Nat
  | settling false done todo => done ++ todo
  | sending false _ todo => todo
  | _ => []

end Worker

namespace Sys

section

variable (b : Bool) (r : Except FsError Unit) (todo : List Nat)

@[simp] theorem afterSend_unsent : (afterSend b r todo).unsent = todo := by
  cases todo <;> rfl

@[simp] theorem afterSend_batch : (afterSend b r todo).batch = [] := by
  cases todo <;> rfl

theorem afterSend_applied : (afterSend b r todo).applied = if b then todo else [] := by
  cases todo <;> cases b <;> rfl

theorem afterSend_rejected : (afterSend b r todo).rejected = if b then [] else todo := by
  cases todo <;> cases b <;> rfl

end

def unsent (s : Sys) : List Nat := s.worker.unsent ++ s.queue

/-- The submitted calls whose transaction is neither applied nor rejected yet, in order. -/
def unapplied (s : Sys) : List Nat := s.worker.batch ++ s.queue

def Unsubmitted (c : Call) : Prop :=
  (∃ todo, c.phase = .locking todo) ∨ (∃ todo ops, c.phase = .preparing todo ops) ∨ ∃ todo, c.phase = .staging todo

variable (sealedLen : Extent → Nat) (s : Sys) {u : Call} {t : Nat}

/-- The ways a step can go while every caller waits; the calls that are settled are queued. -/
inductive Stepped : Action → Sys → Prop
  | spawn {tid tasks creds checkPermissions} (hnew : s.calls.get tid = none) (hv : validTasks tasks = true) :
    Stepped (.spawn tid tasks creds checkPermissions)
      (s.setCall tid ⟨tasks, creds, checkPermissions, .locking (lockOrder (tasks.map Task.id)), [], {}, [], 0, []⟩)
  | compact {tid id segid items} (hnew : s.calls.get tid = none) (hseg : (s.segments.info.get segid).isSome)
      (hlane : segid ∉ s.segments.lanes) (hn : (items.map Prod.fst).Nodup) (hitems : ∀ i ∈ items, i.2.2.segid = segid)
      (hfit : (s.segments.infoOf segid).bytes + (items.map fun i => i.2.2.byteLen).sum ≤ i64Max) :
    Stepped (.compact tid id segid items)
      { s.setCall tid ⟨[.repoint id items], .root, false, .locking [id], [], {}, [], 0, []⟩ with
        segments := s.segments.extend segid (items.map fun i => i.2.2.byteLen).sum items.length }
  | lock {tid c id todo} (hc : s.At tid c) (hp : c.phase = .locking (id :: todo))
      (hb : s.busy tid id = false) :
    Stepped (.lock tid) (s.setCall tid { c with held := id :: c.held, phase := .locking todo })
  | start {tid c} (hc : s.At tid c) (hp : c.phase = .locking [])
      (hfree : ∀ sp ∈ c.spans, s.overlaps sp.1 sp.2.1 sp.2.2 = false) :
    Stepped (.start tid) (s.setCall tid { c with phase := .preparing c.tasks [] })
  | prepare {tid now c task todo ops plan rs q} (hc : s.At tid c)
      (hp : c.phase = .preparing (task :: todo) ops)
      (hplan : task.plan now c.creds c.checkPermissions (s.visible task.id) = .ok plan)
      (hres : reserveGrowth s.quota plan.growth = (.ok rs, q)) :
    Stepped (.prepare tid now)
      ({ s with quota := q }.setCall tid (planned c task.id (s.visible task.id) plan rs todo ops))
  | refused {tid now c task todo ops plan e q} (hc : s.At tid c)
      (hp : c.phase = .preparing (task :: todo) ops)
      (hplan : task.plan now c.creds c.checkPermissions (s.visible task.id) = .ok plan)
      (hres : reserveGrowth s.quota plan.growth = (.error e, q)) :
    Stepped (.prepare tid now) ({ s with quota := q }.fail tid c e)
  | invalid {tid now c e} (hc : s.At tid c) (hp : Unsubmitted c) :
    Stepped (.prepare tid now) (s.fail tid c e)
  | stage {tid lane c op todo r} (hc : s.At tid c) (hp : c.phase = .staging (op :: todo))
      (hst : s.stageOp sealedLen lane op = some r) :
    Stepped (.stage tid lane) (s.stageCall tid c op r todo)
  | noop {tid c} (hc : s.At tid c) (hp : c.phase = .staging []) (he : c.txn.isEmpty = true) :
    Stepped (.submit tid) (s.setCall tid { c with phase := .answered (.ok ()), held := [] })
  | submit {tid c} (hc : s.At tid c) (hp : c.phase = .staging []) (he : c.txn.isEmpty = false) :
    Stepped (.submit tid) (s.enqueue tid c)
  | abort {tid c} (hc : s.At tid c) (hp : Unsubmitted c) : Stepped (.abort tid) (s.fail tid c .ioError)
  | drain {n} (hw : s.worker = .idle) (hn : 0 < n) (hle : n ≤ s.queue.length) :
    Stepped (.drain n) { s with worker := .drained (s.queue.take n), queue := s.queue.drop n }
  | reject {late batch} (hw : s.worker = .drained batch) :
    Stepped (.reject late)
      { s with worker := if late then .settling false [] batch else .sending false (.error .ioError) batch }
  | apply {batch} (hw : s.worker = .drained batch) : Stepped .apply (s.applyBatch batch)
  | settle {applied done tid todo c} (hw : s.worker = .settling applied done (tid :: todo))
      (hc : s.At tid c) (hp : c.phase = .queued) :
    Stepped .settle { s.settleCall tid c applied with worker := .settling applied (done ++ [tid]) todo }
  | reply {durable applied done} (hw : s.worker = .settling applied done []) :
    Stepped (.reply durable)
      { s with worker := .sending applied (if applied && durable then .ok () else .error .ioError) done }
  | send {applied result tid todo c} (hw : s.worker = .sending applied result (tid :: todo))
      (hc : s.At tid c) (hp : c.phase ≠ .queued) :
    Stepped .send
      { s with
        pending := s.retirePending c
        worker := afterSend applied result todo
        calls := s.calls.put tid (answeredCall c result) }
  | sendSettle {applied result tid todo c} (hw : s.worker = .sending applied result (tid :: todo))
      (hc : s.At tid c) (hp : c.phase = .queued) :
    Stepped .send
      { s.settleCall tid c applied with
        pending := s.retirePending c
        worker := afterSend applied result todo
        calls := s.calls.put tid (answeredCall c result) }
  | rotate {lane} : Stepped (.rotate lane)
      { s with segments := { s.segments with
        lanes := s.segments.lanes.set lane s.segments.fresh
        nextCounter := s.segments.nextCounter + 1
        info := s.segments.info.put s.segments.fresh ⟨0, 0⟩ } }
  | pack : Stepped .pack
      { s with segments := { s.segments with
        nextCounter := s.segments.nextCounter + 1
        info := s.segments.info.put s.segments.fresh ⟨0, 0⟩ } }
  | loadLocation {key} : Stepped (.loadLocation key)
      { s with extentLocationCache := s.extentLocationCache.put key (s.db.locOf key) }
  | evictLocation {key} : Stepped (.evictLocation key) { s with extentLocationCache := s.extentLocationCache.del key }
  | evictTail {id} : Stepped (.evictTail id) { s with tailCache := s.tailCache.del id }

variable {sealedLen} {s} {s' : Sys} {a : Action}

theorem step_stepped (hq : ∀ {applied done tid todo}, s.worker = .settling applied done (tid :: todo) →
      ∃ c, s.At tid c ∧ c.phase = .queued)
    (ha : a.awaited = true) (h : s.step sealedLen a = some s') : Stepped sealedLen s a s' := by
  cases a with
  | drop tid => cases ha
  | spawn tid tasks creds checkPermissions =>
    simp only [step, spawn] at h
    split at h
    · cases h
    rename_i hnew
    split at h
    · cases h; exact .spawn (by simpa using hnew) (by assumption)
    · cases h
  | compact tid id segid items =>
    obtain ⟨hg, rfl⟩ := Machine.of_guard h
    obtain ⟨hnew, hseg, hlane, hn, hitems, hfit⟩ := hg
    exact .compact (by simpa using hnew) hseg hlane hn hitems hfit
  | lock tid =>
    obtain ⟨c, hc, h⟩ := Option.bind_eq_some_iff.1 h
    split at h
    · rename_i hp; obtain ⟨hb, rfl⟩ := Machine.of_guard_not h; exact .lock hc hp (by simpa using hb)
    · cases h
  | start tid =>
    obtain ⟨c, hc, h⟩ := Option.bind_eq_some_iff.1 h
    split at h
    · rename_i hp
      obtain ⟨hfree, rfl⟩ := Machine.of_guard_not h
      refine .start hc hp fun sp hsp => ?_
      have := List.any_eq_false.1 (Bool.eq_false_iff.2 hfree) sp hsp
      simpa using this
    · cases h
  | prepare tid now =>
    obtain ⟨c, hc, h⟩ := Option.bind_eq_some_iff.1 h
    dsimp only at h
    split at h
    · rename_i task todo ops hp
      split at h
      · cases h; exact .invalid hc (.inr (.inl ⟨_, _, hp⟩))
      rename_i plan hplan
      split at h
      · rename_i e q hres; cases h; exact .refused hc hp hplan hres
      · rename_i rs q hres; cases h; exact .prepare hc hp hplan hres
    · cases h
  | stage tid lane =>
    obtain ⟨c, hc, h⟩ := Option.bind_eq_some_iff.1 h
    split at h
    · rename_i op todo hp
      obtain ⟨r, hst, h⟩ := Option.bind_eq_some_iff.1 h
      cases h
      exact .stage hc hp hst
    · cases h
  | submit tid =>
    obtain ⟨c, hc, h⟩ := Option.bind_eq_some_iff.1 h
    split at h
    · rename_i hp
      split at h
      · rename_i he; cases h; exact .noop hc hp he
      · rename_i he; cases h; exact .submit hc hp (by simpa using he)
    · cases h
  | abort tid =>
    obtain ⟨c, hc, h⟩ := Option.bind_eq_some_iff.1 h
    split at h
    · cases h; exact .abort hc (.inl ⟨_, by assumption⟩)
    · cases h; exact .abort hc (.inr (.inl ⟨_, _, by assumption⟩))
    · cases h; exact .abort hc (.inr (.inr ⟨_, by assumption⟩))
    · cases h
  | drain n =>
    simp only [step, drain] at h
    split at h
    · rename_i hw; obtain ⟨hn, rfl⟩ := Machine.of_guard h; exact .drain hw hn.1 hn.2
    · cases h
  | reject late =>
    simp only [step, reject] at h
    split at h
    · cases h; exact .reject (by assumption)
    · cases h
  | apply =>
    simp only [step, apply] at h
    split at h
    · cases h; exact .apply (by assumption)
    · cases h
  | settle =>
    simp only [step, settle] at h
    split at h
    · rename_i tid todo hw
      obtain ⟨c, hc, hp⟩ := hq hw
      cases h
      rw [takeSettlement, hc]
      dsimp only
      rw [hp]
      exact .settle hw hc hp
    · cases h
  | reply durable =>
    simp only [step, reply] at h
    split at h
    · cases h; exact .reply (by assumption)
    · cases h
  | send =>
    simp only [step, send] at h
    split at h
    · rename_i hw
      obtain ⟨c, hc, h⟩ := Option.bind_eq_some_iff.1 h
      cases h
      unfold takeSettlement
      rw [hc]
      dsimp only
      split
      · rename_i hp; exact .sendSettle hw hc hp
      · rename_i hp; exact .send hw hc hp
    · cases h
  | rotate lane => cases h; exact .rotate
  | pack => cases h; exact .pack
  | loadLocation key => cases h; exact .loadLocation
  | evictLocation key => cases h; exact .evictLocation
  | evictTail id => cases h; exact .evictTail

theorem at_eq (hcalls : s'.calls = s.calls) : s'.At = s.At := funext₂ fun _ _ => by rw [At, hcalls]

section Put

variable {tid t : Nat} {c c' u : Call} (hcalls : s'.calls = s.calls.put tid c')
include hcalls

theorem at_put : s'.At tid c' := by rw [At, hcalls, Table.get_put_self]

theorem at_put_ne (hne : t ≠ tid) : s'.At t u ↔ s.At t u := by rw [At, At, hcalls, Table.get_put_ne hne]

theorem cases_at (hu : s'.At t u) : (t = tid ∧ u = c') ∨ (t ≠ tid ∧ s.At t u) := by
  rw [At, hcalls] at hu
  exact Table.cases_put hu

theorem tasks_put (hc : s.At tid c) (htasks : c'.tasks = c.tasks) (hu : s.At t u) :
    ∃ u', s'.At t u' ∧ u'.tasks = u.tasks := by
  by_cases hne : t = tid
  · subst hne
    cases hc.symm.trans hu
    exact ⟨c', at_put hcalls, htasks⟩
  · exact ⟨u, (at_put_ne hcalls hne).2 hu, rfl⟩

theorem tasks_new (hnew : s.calls.get tid = none) (hu : s.At t u) : ∃ u', s'.At t u' ∧ u'.tasks = u.tasks := by
  have hne : t ≠ tid := by
    rintro rfl
    cases hnew.symm.trans hu
  exact ⟨u, (at_put_ne hcalls hne).2 hu, rfl⟩

end Put

theorem step_tasks (hs : Stepped sealedLen s a s') (hu : s.At t u) :
    ∃ u', s'.At t u' ∧ u'.tasks = u.tasks := by
  cases hs with
  | spawn hnew hv | compact hnew => exact tasks_new rfl hnew hu
  | lock hc hp hb | start hc hp hfree | prepare hc hp hplan hres | refused hc hp hplan hres | invalid hc hp
      | stage hc hp hst
  | noop hc hp he | submit hc hp he | abort hc hp | settle hw hc hp | send hw hc hp | sendSettle hw hc hp =>
    exact tasks_put rfl hc (by rfl) hu
  | _ => exact ⟨u, hu, rfl⟩

end Sys

end ZeroFS
