import ZeroFS.Lib.Machine
import ZeroFS.Writeback.Overlay

/-!
# The writeback tier

A mutation is validated under its key locks, takes the next sequence and is installed in the overlay (`store.rs`). The
journaler commits a batch of rows and settles it: reservations become local, overlay entries move to the journal, the
watermark is published. The remote scheduler loads a window of rows, applies the record at its frontier and immutable
creates ahead of it, and commits the contiguous completions. A remote request takes effect at one moment between
submission and response; an attempt may fail in any phase, and its request may still take effect later (`late`). A
terminal error stops the scheduler, which poisons the admission once no commit is under way. A restart loses everything
in memory.
-/

namespace ZeroFS.Writeback

/-! ## The remote store -/

structure RemoteObject where
  payload : Payload
  /-- The `e_tag` that the store issued for this version. -/
  tag : Nat

structure Remote where
  objects : Table Path RemoteObject
  issued : Nat := 0

/-- The put mode of a request to the remote store. -/
inductive RemoteMode
  | overwrite
  | create
  | update (tag : Nat)
  deriving DecidableEq

inductive RemoteRequest
  | put (path : Path) (payload : Payload) (mode : RemoteMode)
  | delete (path : Path)

namespace Remote

variable (m : Remote)

def contents : Namespace := fun p => (m.objects.get p).map (·.payload)

def permits (p : Path) : RemoteMode → Bool
  | .overwrite => true
  | .create => (m.objects.get p).isNone
  | .update tag => (m.objects.get p).any fun o => o.tag = tag

def put (p : Path) (b : Payload) : Remote :=
  { objects := m.objects.put p ⟨b, m.issued⟩, issued := m.issued + 1 }

def delete (p : Path) : Remote := { m with objects := m.objects.del p }

/-- A request that takes effect after its attempt was given up. -/
def serve : RemoteRequest → Remote
  | .put p b mode => if m.permits p mode then m.put p b else m
  | .delete p => m.delete p

end Remote

/-! ## The local journal -/

/-- The local journal. -/
structure Journal where
  rows : List MutationRecord := []
  localSeq : Nat := 0
  remoteSeq : Nat := 0
  /-- `REMOTE_OBJECT_VERSIONS`: the sequence and the `e_tag` of the object last published at a path. -/
  versions : Table Path (Nat × Nat) := Table.empty

/-- A record that the scheduler has applied, with the `e_tag` of its result. -/
abbrev Completion := MutationRecord × Option Nat

namespace Journal

variable (j : Journal)

def mutation (s : Nat) : Option MutationRecord := j.rows.find? fun r => r.sequence = s

def commitRecordBatch (batch : List MutationRecord) : Journal :=
  { j with rows := j.rows ++ batch, localSeq := j.localSeq + batch.length }

def storeRemoteObjectVersion (versions : Table Path (Nat × Nat)) (r : MutationRecord) :
    Option Nat → Table Path (Nat × Nat)
  | some tag => versions.put r.path (r.sequence, tag)
  | none => versions.del r.path

def applyRemoteObjectVersion (versions : Table Path (Nat × Nat)) (c : Completion) : Table Path (Nat × Nat) :=
  match c.1.kind with
  | .delete => versions.del c.1.path
  | .rename source _ _ => storeRemoteObjectVersion (versions.del source) c.1 c.2
  | .put _ _ _ | .copy _ _ _ => storeRemoteObjectVersion versions c.1 c.2

/-- `mark_remote_batch`: the completions must follow the remote sequence without a gap. -/
def markRemoteBatch (run : List Completion) : Option Journal :=
  if run ≠ [] ∧ run.map (·.1.sequence) = List.range' (j.remoteSeq + 1) run.length ∧
    j.remoteSeq + run.length ≤ j.localSeq ∧ ∀ c ∈ run, (j.mutation c.1.sequence).isSome then
    some { j with remoteSeq := j.remoteSeq + run.length, versions := run.foldl applyRemoteObjectVersion j.versions }
  else none

def removeRemotePrefix (through : Nat) : Journal := { j with rows := j.rows.filter fun r => through < r.sequence }

def pendingWindow (first limit : Nat) : List MutationRecord := (j.rows.filter fun r => first ≤ r.sequence).take limit

def remoteObjectEtag (p : Path) (s : Nat) : Option Nat :=
  (j.versions.get p).bind fun v => if v.1 = s then some v.2 else none

end Journal

/-! ## The remote scheduler -/

def SCHEDULER_WINDOW_PER_LANE : Nat := 8

def REMOTE_SINGLE_PUT_BYTES : Nat := 36 * 1024 * 1024

/-- Where an attempt to apply a record stands. -/
inductive Flight
  | start
  | put (mode : RemoteMode)
  /-- The object that is there is compared with the record. -/
  | verify
  /-- The delete of a path is outstanding: that of the record, or the source of a rename. -/
  | remove (target : Path) (eTag : Option Nat)
  | done (eTag : Option Nat)
  deriving DecidableEq

inductive CommitPhase
  /-- The run is chosen, and not yet marked in the journal. -/
  | ready
  | marked
  | retired
  | pruned
  deriving DecidableEq

/-- The drain: what is in flight, done and being committed. -/
structure Scheduler where
  next : Nat := 1
  window : List MutationRecord := []
  active : Table Nat (MutationRecord × Flight) := Table.empty
  completed : Table Nat Completion := Table.empty
  committing : Option (List Completion × CommitPhase) := none
  retry : Bool := false
  /-- A terminal error: nothing is started any more. -/
  stopped : Bool := false

namespace Scheduler

variable (sch : Scheduler)

/-- The attempt at a record is over. -/
def complete (s : Nat) (c : Completion) : Scheduler :=
  { sch with active := sch.active.del s, completed := sch.completed.put s c }

/-- The frontier moves, and the completions behind it go. -/
def advance (next : Nat) : Scheduler :=
  { sch with
    committing := none
    next := next
    completed := sch.completed.filterMapVals fun s c => if next ≤ s then some c else none }

end Scheduler

/-- `validate_scheduler_window`: the rows above the durable remote sequence have no gap. -/
def validateSchedulerWindow (j : Journal) (window : List MutationRecord) (first : Nat) : Bool :=
  if j.localSeq < first then true
  else
    let durableFrontier := min (max (j.remoteSeq + 1) first) (j.localSeq + 1)
    match window with
    | [] => j.localSeq < durableFrontier
    | r :: _ => first ≤ r.sequence && r.sequence ≤ durableFrontier &&
        window.map (·.sequence) == List.range' r.sequence window.length

/-- The scan of `collect_pipeline_batch`: `keys` are those of the records before this one. -/
def collectFrom (available first : Nat) (skip : Nat → Bool) :
    List MutationRecord → Nat → List Path → List MutationRecord → List MutationRecord
  | [], _, _, batch => batch
  | r :: rs, expected, keys, batch =>
    if r.sequence ≠ expected ∨ batch.length = available then batch
    else
      let conflicts := r.touchedKeys.any fun k => keys.contains k
      let batch' :=
        if !skip r.sequence && !conflicts && (r.sequence = first || r.fence = .immutableCreate) then batch ++ [r]
          else batch
      collectFrom available first skip rs (expected + 1) (keys ++ r.touchedKeys) batch'

def collectPipelineBatch (records : List MutationRecord) (first limit completed active : Nat)
    (isCompleted isActive : Nat → Bool) : List MutationRecord :=
  let heldLimit := max (limit * SCHEDULER_WINDOW_PER_LANE) limit
  let room := min (limit - active) (heldLimit - completed)
  let frontierNeedsSlot := records.head?.any fun r => r.sequence = first && !isCompleted first && !isActive first
  let available := if room = 0 && frontierNeedsSlot && active < limit then 1 else room
  if available = 0 then []
  else collectFrom available first (fun s => isCompleted s || isActive s)
    (records.filter fun r => first ≤ r.sequence) first [] []

/-- The completions that are contiguous with the frontier. -/
def readyRun (completed : Table Nat Completion) : Nat → Nat → List Completion
  | 0, _ => []
  | fuel + 1, n =>
    match completed.get n with
    | none => []
    | some c => c :: readyRun completed fuel (n + 1)

/-- The request of an attempt that has not taken effect yet. -/
def Flight.outstanding (r : MutationRecord) : Flight → List RemoteRequest
  | .put mode => [.put r.path (r.payload.getD []) mode]
  | .remove target _ => [.delete target]
  | _ => []

/-- A published target: a rename still has to delete its source. -/
def Flight.published (r : MutationRecord) (tag : Nat) : Flight :=
  match r.kind with
  | .rename source _ _ => .remove source (some tag)
  | _ => .done (some tag)

inductive RemoteModeError
  /-- The attempt fails and is retried. -/
  | precondition
  | missingRemotePredecessor

def remotePutMode (incarnation : Nat) (j : Journal) (r : MutationRecord) : Except RemoteModeError RemoteMode :=
  let mode := match r.kind with
    | .put mode _ _ | .copy _ mode _ | .rename _ mode _ => mode
    | .delete => .overwrite
  match mode with
  | .overwrite => .ok .overwrite
  | .create => .ok .create
  | .update =>
    match r.remotePredecessorEtag with
    | some tag => .ok (.update tag)
    | none =>
      match r.kind with
      | .put _ (some (.wb etag)) _ =>
        if etag.incarnation ≠ incarnation then .error .precondition
        else
          match j.remoteObjectEtag r.path etag.sequence with
          | some tag => .ok (.update tag)
          | none => .error .missingRemotePredecessor
      | _ => .error .precondition

/-! ## Clients -/

structure UpdateVersion where
  eTag : Option Version
  version : Option Version

inductive PutMode
  | overwrite
  | create
  | update (expected : UpdateVersion)

inductive VisibleVersion
  | loc (etag : LocalEtag)
  | remote (tag : Nat)
  deriving DecidableEq

inductive StoreError
  | alreadyExists (source : String)
  | precondition (source : String)
  | notFound
  | generic
  deriving DecidableEq

def versionMatches (expected : UpdateVersion) (visible : VisibleVersion) : Bool :=
  let visibleEtag : Option Version := match visible with
    | .loc etag => some (.wb etag)
    | .remote tag => some (.remote tag)
  let visibleVersion : Option Version := match visible with
    | .loc etag => some (.wb etag)
    | .remote _ => none
  expected.eTag.all (fun e => some e = visibleEtag) && expected.version.all (fun v => some v = visibleVersion) &&
    (expected.eTag.isSome || expected.version.isSome)

def validatePutMode (mode : PutMode) (visible : Option VisibleVersion) :
    Except StoreError (MutationMode × Option Version × Option Nat) :=
  match mode with
  | .overwrite => .ok (.overwrite, none, none)
  | .create =>
    if visible.isSome then .error (.alreadyExists "overlay-visible object already exists")
      else .ok (.create, none, none)
  | .update expected =>
    match visible with
    | none => .error (.precondition "update target does not exist")
    | some v =>
      if !versionMatches expected v then .error (.precondition "update version is stale")
      else
        match expected.eTag.or expected.version with
        | none => .error (.precondition "update requires an ETag or version")
        | some e => .ok (.update, some e, match v with | .loc _ => none | .remote tag => some tag)

inductive Request
  | put (path : Path) (payload : Payload) (mode : PutMode) (generatedSegmentCreate : Bool)
  | delete (path : Path)
  | copy (source target : Path) (create rename : Bool)

/-! ## The system -/

inductive SettlePhase
  | committed
  | transitioned
  | observed
  deriving DecidableEq

structure Config where
  incarnation : Nat
  uploadConcurrency : Nat
  /-- The paths of segments and SSTs below the database's own directory. -/
  canonical : Path → Bool
  charge : MutationRecord → Nat

/-- The write-back tier over the remote store. -/
structure Tier where
  accepted : List MutationRecord := []
  overlay : OverlayIndex := Table.empty
  journal : Journal := {}
  /-- The batch whose rows are committed and that is being settled. -/
  settling : Option (List MutationRecord × SettlePhase) := none
  watermark : Nat := 0
  failed : Bool := false
  /-- `outstanding_physical_claims`, and whether the admission has been poisoned. -/
  claims : Nat := 0
  poisoned : Bool := false
  scheduler : Scheduler := {}
  remote : Remote
  late : List RemoteRequest := []

inductive Action
  /-- `reserved`: the reservation was granted before the admission was poisoned. -/
  | accept (request : Request) (reserved : Bool := false)
  | commitLocal (n : Nat)
  | transitionTokens
  | observe
  | publishWatermark
  | openWindow
  | dispatch
  /-- The attempt at a record decides on its request. -/
  | prepare (s : Nat)
  /-- The outstanding request of an attempt takes effect. -/
  | effect (s : Nat)
  | verify (s : Nat)
  | complete (s : Nat)
  | fail (s : Nat)
  /-- A request that was given up takes effect. -/
  | land (i : Nat)
  /-- A terminal error of another kind: a clean-up that failed, a retry that could not be recorded, a task that died. -/
  | terminate
  | publishTerminal
  | startCommit
  | mark
  | retire
  | prune
  /-- `fresh`: the free space was sampled again after the clean-up. -/
  | finishCommit (fresh : Bool := true)
  | restart

namespace Tier

variable (cfg : Config) (t : Tier)

def visibleVersion (p : Path) : Option VisibleVersion :=
  match t.overlay.visibleEntry p with
  | some e => match e.effect with
    | .delete => none
    | .put => some (.loc e.record.localEtag)
  | none => (t.remote.objects.get p).map fun o => .remote o.tag

/-- The bytes at a payload location, if they are still there. -/
def loadPayload : PayloadLocation → Option Payload
  | .pending b => some b
  | .journal s => (t.journal.mutation s).bind (·.payload)

/-- `get` when nothing happens in between. -/
def readObject (p : Path) : Option Payload :=
  match t.overlay.visibleEntry p with
  | some e => e.payload.bind t.loadPayload
  | none => t.remote.contents p

def record (path : Path) (kind : MutationKind) (predecessor : Option Nat) : MutationRecord where
  sequence := t.accepted.length + 1
  path := path
  kind := kind
  localEtag := ⟨cfg.incarnation, t.accepted.length + 1⟩
  remotePredecessorEtag := predecessor
  fence := classifyMutationFence cfg.canonical path kind

/-- What a request is validated to under its key locks; a copy onto itself changes nothing and is no mutation. -/
def validate : Request → Except StoreError MutationRecord
  | .put path payload mode generated =>
    match mode, generated with
    | .create, true =>
      if t.overlay.hasVisibleLocalObject path then .error (.alreadyExists "overlay-visible object already exists")
      else .ok (t.record cfg path (.put .create none payload) none)
    | mode, _ => do
      let (m, expected, predecessor) ← validatePutMode mode (t.visibleVersion path)
      pure (t.record cfg path (.put m expected payload) predecessor)
  | .delete path => .ok (t.record cfg path .delete none)
  | .copy source target create rename =>
    if source = target then .error .generic
    else if create && (t.visibleVersion target).isSome then .error
      (.alreadyExists "overlay-visible copy target already exists")
    else
      match t.readObject source with
      | none => .error .notFound
      | some b =>
        let mode := if create then .create else .overwrite
        .ok (t.record cfg target (if rename then .rename source mode b else .copy source mode b) none)

def install (r : MutationRecord) : Option Tier :=
  (t.overlay.install r).map fun overlay =>
    { t with accepted := t.accepted ++ [r], overlay := overlay, claims := t.claims + cfg.charge r }

def setFlight (s : Nat) (r : MutationRecord) (f : Flight) : Tier :=
  { t with scheduler := { t.scheduler with active := t.scheduler.active.put s (r, f) } }

/-- A terminal error: the attempts are aborted. -/
def stop : Tier :=
  { t with
    late := t.late ++ t.scheduler.active.entries.flatMap fun e => e.2.2.outstanding e.2.1
    scheduler := { t.scheduler with active := Table.empty, stopped := true } }

/-- The rows that the scheduler loads. -/
def pendingWindow : List MutationRecord :=
  t.journal.pendingWindow t.scheduler.next
    (max (cfg.uploadConcurrency * SCHEDULER_WINDOW_PER_LANE) cfg.uploadConcurrency)

/-- `load_scheduler_window`: a gap in the journal is a terminal error. -/
def loadSchedulerWindow : Tier :=
  if validateSchedulerWindow t.journal (t.pendingWindow cfg) t.scheduler.next then
    { t with scheduler := { t.scheduler with window := t.pendingWindow cfg } }
  else t.stop

def giveUp (s : Nat) (r : MutationRecord) (f : Flight) : Tier :=
  { t with
    late := t.late ++ f.outstanding r
    scheduler := { t.scheduler with active := t.scheduler.active.del s, retry := true } }

/-- The start of `apply_record`, up to the request. -/
def prepareRecord (s : Nat) (r : MutationRecord) : Tier :=
  match r.kind with
  | .delete => t.setFlight s r (.remove r.path none)
  | _ =>
    match remotePutMode cfg.incarnation t.journal r with
    | .error .precondition => t.giveUp s r .start
    | .error .missingRemotePredecessor => t.stop
    | .ok .overwrite => t.setFlight s r (.put .overwrite)
    | .ok .create =>
      -- a small create is atomic at the store and takes no precondition head
      if (r.payload.getD []).length ≤ REMOTE_SINGLE_PUT_BYTES || (t.remote.objects.get r.path).isNone then
        t.setFlight s r (.put .create)
      else t.setFlight s r .verify
    | .ok (.update tag) =>
      match t.remote.objects.get r.path with
      | none => t.giveUp s r .start
      | some o =>
        if o.tag ≠ tag then t.setFlight s r .verify
        else if (r.payload.getD []).length ≤ REMOTE_SINGLE_PUT_BYTES then t.setFlight s r (.put (.update tag))
        else t.stop

def takeEffect (s : Nat) (r : MutationRecord) : Flight → Option Tier
  | .put mode =>
    if t.remote.permits r.path mode then
      some ({ t with remote := t.remote.put r.path (r.payload.getD []) }.setFlight s r (.published r t.remote.issued))
    else some (t.setFlight s r .verify)
  | .remove target eTag => some ({ t with remote := t.remote.delete target }.setFlight s r (.done eTag))
  | _ => none

def verifyExisting (s : Nat) (r : MutationRecord) : Option Tier :=
  (t.remote.objects.get r.path).map fun o =>
    if some o.payload = r.payload then t.setFlight s r (.published r o.tag) else t.stop

/-- The next records for the journal. -/
def nextBatch (n : Nat) : List MutationRecord := (t.accepted.drop t.journal.localSeq).take n

def commitLocal (n : Nat) : Tier :=
  { t with journal := t.journal.commitRecordBatch (t.nextBatch n), settling := some (t.nextBatch n, .committed) }

/-- The settlement of the batch has failed, and the journaler with it. -/
def failSettlement : Tier := { t with settling := none, failed := true }

/-- The record is completed, and the window loaded again unless the scheduler waits for a retry. -/
def completeRecord (s : Nat) (r : MutationRecord) (eTag : Option Nat) : Tier :=
  let t' := { t with scheduler := t.scheduler.complete s (r, eTag) }
  if t.scheduler.retry then t' else t'.loadSchedulerWindow cfg

/-- `start_ready_commit`: the completions that are contiguous with the frontier. -/
def nextRun : List Completion := readyRun t.scheduler.completed t.scheduler.completed.entries.length t.scheduler.next

def setCommit (run : List Completion) (phase : CommitPhase) : Tier :=
  { t with scheduler := { t.scheduler with committing := some (run, phase) } }

/-- The commit has failed. -/
def failCommit : Tier := { t with scheduler := { t.scheduler with committing := none } }.stop

/-- The reservations of a committed run, one after the other. An underflow poisons the admission, which then refuses the
credit for fresh space and the next release. -/
def releaseRun (fresh : Bool) : List Completion → Nat → Bool → Nat × Bool × Bool
  | [], claims, poisoned => (claims, poisoned, true)
  | c :: run, claims, poisoned =>
    if poisoned then (claims, poisoned, false)
    else if cfg.charge c.1 ≤ claims then releaseRun fresh run (claims - cfg.charge c.1) poisoned
    else if fresh then (claims, true, false)
    else releaseRun fresh run claims true

/-- `finish_ordered_commit`: the frontier moves behind the run. -/
def finishRun (run : List Completion) : Tier :=
  { t with scheduler := t.scheduler.advance (t.scheduler.next + run.length) }

/-- A process that starts on the journal. -/
def recovered (overlay : OverlayIndex) : Tier :=
  let j := t.journal.removeRemotePrefix t.journal.remoteSeq
  { accepted := t.accepted.take j.localSeq
    overlay := overlay
    journal := j
    watermark := j.localSeq
    claims := (j.rows.map cfg.charge).sum
    scheduler := { next := j.remoteSeq + 1 }
    remote := t.remote
    late := t.late ++ t.scheduler.active.entries.flatMap fun e => e.2.2.outstanding e.2.1 }

def step (a : Action) : Option Tier :=
  match a with
  | .accept request reserved =>
    if t.failed ∨ t.poisoned ∧ !reserved then none
    else
      match t.validate cfg request with
      | .ok r => t.install cfg r
      | .error _ => none
  | .commitLocal n => if t.failed ∨ t.settling.isSome ∨ t.nextBatch n = [] then none else some (t.commitLocal n)
  | .transitionTokens =>
    match t.settling with
    | some (batch, .committed) =>
      if !t.poisoned ∧ ∀ r ∈ batch, cfg.charge r ≤ t.claims then some { t with settling := some (batch, .transitioned) }
      else some { t.failSettlement with poisoned := true }
    | _ => none
  | .observe =>
    match t.settling with
    | some (batch, .transitioned) =>
      match t.overlay.markLocalBatch batch with
      | (overlay, true) => some { t with overlay := overlay, settling := some (batch, .observed) }
      | (overlay, false) => some { t.failSettlement with overlay := overlay }
    | _ => none
  | .publishWatermark =>
    match t.settling with
    | some (batch, .observed) => some { t with settling := none, watermark := t.watermark + batch.length }
    | _ => none
  | .openWindow =>
    if t.scheduler.stopped ∨ t.scheduler.active.entries ≠ [] ∨ t.scheduler.committing.isSome ∨
        t.watermark < t.scheduler.next then none
    else some ({ t with scheduler := { t.scheduler with retry := false } }.loadSchedulerWindow cfg)
  | .dispatch =>
    let sch := t.scheduler
    let batch := collectPipelineBatch sch.window sch.next cfg.uploadConcurrency sch.completed.entries.length
      sch.active.entries.length (fun s => (sch.completed.get s).isSome) (fun s => (sch.active.get s).isSome)
    if sch.stopped ∨ sch.retry ∨ batch = [] then none
    else some { t with scheduler := { sch with
      active := batch.foldl (fun m r => m.put r.sequence (r, .start)) sch.active } }
  | .prepare s =>
    match t.scheduler.active.get s with
    | some (r, .start) => some (t.prepareRecord cfg s r)
    | _ => none
  | .effect s => (t.scheduler.active.get s).bind fun f => t.takeEffect s f.1 f.2
  | .verify s =>
    match t.scheduler.active.get s with
    | some (r, .verify) => t.verifyExisting s r
    | _ => none
  | .complete s =>
    match t.scheduler.active.get s with
    | some (r, .done eTag) => some (t.completeRecord cfg s r eTag)
    | _ => none
  | .fail s => (t.scheduler.active.get s).map fun f => t.giveUp s f.1 f.2
  | .land i => (t.late[i]?).map fun request => { t with remote := t.remote.serve request, late := t.late.eraseIdx i }
  | .terminate => some t.stop
  | .publishTerminal =>
    if t.scheduler.stopped ∧ t.scheduler.committing.isNone then some { t with poisoned := true } else none
  | .startCommit =>
    if t.scheduler.stopped ∨ t.scheduler.committing.isSome ∨ t.nextRun = [] then none
      else some (t.setCommit t.nextRun .ready)
  | .mark =>
    match t.scheduler.committing with
    | some (run, .ready) =>
      match t.journal.markRemoteBatch run with
      | some j => some ({ t with journal := j }.setCommit run .marked)
      | none => some t.failCommit
    | _ => none
  | .retire =>
    match t.scheduler.committing with
    | some (run, .marked) =>
      some ({ t with overlay := t.overlay.removeRemotePrefix (t.scheduler.next + run.length - 1) }.setCommit run
        .retired)
    | _ => none
  | .prune =>
    match t.scheduler.committing with
    | some (run, .retired) =>
      some ({ t with journal := t.journal.removeRemotePrefix (t.scheduler.next + run.length - 1) }.setCommit run
        .pruned)
    | _ => none
  | .finishCommit fresh =>
    match t.scheduler.committing with
    | some (run, .pruned) =>
      match releaseRun cfg fresh run t.claims t.poisoned with
      | (claims, poisoned, true) => some ({ t with claims := claims, poisoned := poisoned }.finishRun run)
      | (claims, poisoned, false) => some { t with claims := claims, poisoned := poisoned }.failCommit
    | _ => none
  | .restart => (OverlayIndex.recover (t.journal.removeRemotePrefix t.journal.remoteSeq).rows).map (t.recovered cfg)

def boot (remote : Remote) : Tier where
  remote := remote

end Tier

end ZeroFS.Writeback
