import ZeroFS.Lib.Machine
import ZeroFS.Lib.Table
import ZeroFS.Volatile.Overlay

/-!
# Acknowledged writes of one inode

In the volatile mode a write is acknowledged from memory and materialized later by the lane of its inode. A call
consults the ledger if its identity asks for that, takes a slot of the request cache and a handle of the runtime, and
prepares under the inode lock, which is held until the lane submits; a call whose operation is found is *replayed*: it
takes no lock and submits nothing. The lane takes one entry at a time: submit, commit, drop the previewed attributes,
complete the request, retire. Retiring waits for the reads that have pinned the runtime, which is reaped when it has no
entry and no handle. A call may be refused at any time before it is staged.
-/

namespace ZeroFS.Volatile

/-! ## Requests -/

inductive RequestIdentity
  | nineP (originEpoch operationId : Nat)
  | nfs (serverIncarnation connectionIncarnation xid : Nat)
  | nbd (connectionIncarnation handle : Nat)
  | directTagged (callerIncarnation operationId : Nat)
  | directOneShot (uuid : Nat)
  deriving DecidableEq

inductive ReplayPolicy
  | protocolLedger
  | materializedFallback
  | requestCache
  | untracked
  deriving DecidableEq

def RequestIdentity.replayPolicy : RequestIdentity → ReplayPolicy
  | .nineP _ _ => .protocolLedger
  | .nfs _ _ _ => .materializedFallback
  | .nbd _ _ | .directTagged _ _ => .requestCache
  | .directOneShot _ => .untracked

def ReplayPolicy.tracksProtocolLedger : ReplayPolicy → Bool
  | .protocolLedger => true
  | _ => false

inductive RequestLifetime
  | canonicalDedup
  | replayWindow
  | inFlightOnly
  | oneShot
  deriving DecidableEq

/-- `IdentifiedWrite`. The operation id 0 stands for none. -/
structure IdentifiedWrite where
  op : Nat
  offset : Nat
  data : List UInt8
  identity : RequestIdentity
  lifetime : RequestLifetime

namespace IdentifiedWrite

variable (w : IdentifiedWrite)

def entry : OverlayEntry := (w.offset, w.data)

def stop : Nat := w.offset + w.data.length

def tracksLedger : Bool := w.identity.replayPolicy.tracksProtocolLedger

/-- What the fingerprints compare. -/
def samePayload (v : IdentifiedWrite) : Bool := w.op = v.op && w.offset = v.offset && w.data = v.data

/-- `wait_for_inflight_overlap`: the extents of the two writes meet. -/
def overlapsExtents (v : IdentifiedWrite) : Bool :=
  match extentSpan w.offset w.data.length, extentSpan v.offset v.data.length with
  | some (a, b), some (c, d) => a ≤ d && c ≤ b
  | _, _ => false

end IdentifiedWrite

/-! ## Writers and readers -/

/-- What `apply_prepared_batch` uses of a `PreparedWriteBatch`. -/
structure Batch where
  replayed : Bool := false
  newSize : Nat := 0
  republish : Bool := false
  attrsSize : Nat := 0

/-- How far a write has come. -/
inductive WritePhase
  | called
  | consulted
  | pending
  | reserved
  | checked
  | locked
  | searched
  | loaded
  | measured
  | prepared
  | staged
  | previewed
  | published
  | recorded
  /-- The call has returned, and the lane has the batch. -/
  | accepted
  | submitted
  | committed
  | settled
  | completed
  | retired
  | joined
  | answered
  | refused
  /-- Publication failed: the lane still has to remove the entry. -/
  | rolledBack
  | removed
  deriving DecidableEq

structure Writer where
  request : IdentifiedWrite
  phase : WritePhase := .called
  canonical : Nat := 0
  dirty : Nat := 0
  batch : Batch := {}

namespace Writer

variable (w : Writer)

@[simp]
def holdsLock : Bool :=
  match w.phase with
  | .locked | .searched | .loaded | .measured => true
  | .prepared | .staged | .previewed | .published | .recorded | .accepted => !w.batch.replayed
  | _ => false

@[simp]
def isPublished : Bool :=
  match w.phase with
  | .published | .recorded | .accepted | .submitted | .committed | .settled | .completed | .retired => true
  | _ => false

def holdsHandle : Bool :=
  match w.phase with
  | .reserved | .checked | .locked | .searched | .loaded | .measured | .prepared | .staged | .previewed | .published
  | .recorded => true
  | _ => false

@[simp]
def isRefusable : Bool :=
  match w.phase with
  | .called | .consulted | .pending | .reserved | .checked | .locked | .searched | .loaded | .measured | .prepared =>
    true
  | _ => false

def isDone : Bool :=
  match w.phase with
  | .completed | .retired | .refused | .removed => true
  | _ => false

end Writer

inductive ReadPhase
  | started
  | sampled
  | measured
  | sized
  /-- There was no runtime: the read goes to the store alone. -/
  | bare
  | attached
  | pinned
  | fetching
  | finished
  deriving DecidableEq

structure Reader where
  offset : Nat
  count : Nat
  /-- The writes that were visible when the read started. -/
  since : List Nat
  phase : ReadPhase := .started
  canonical : Nat := 0
  dirty : Nat := 0
  visible : Nat := 0
  length : Nat := 0
  base : List UInt8 := []
  result : Option (List UInt8 × Bool) := none

namespace Reader

variable (r : Reader)

/-- The part of the request that `canonical_read_base` takes from the extents. -/
def canonicalLen : Nat := if r.offset ≥ r.canonical then 0 else min r.length (r.canonical - r.offset)

/-- The retirement lock is held. -/
@[simp]
def isPinned : Bool := r.phase = .pinned || r.phase = .fetching

def holdsHandle : Bool := r.phase = .attached || r.isPinned

/-- The size has been sampled, and entries may still be retired. -/
@[simp]
def isExposed : Bool := r.phase = .sampled || r.phase = .measured || r.phase = .sized || r.phase = .attached

/-- The bytes read, and whether they reach the end of the file. -/
def finish (data : List UInt8) : Reader :=
  { r with phase := .finished, result := some (data, decide (r.visible ≤ r.offset + r.length)) }

end Reader

/-- One inode with its runtime, and all writes and reads. -/
structure FileState where
  file : SparseFile
  /-- The entries of the runtime, as writers in the order of their sequences; `none` if there is no runtime. -/
  runtime : Option (List Nat) := none
  latestAttrs : List Nat := []
  lock : Option Nat := none
  /-- The write results of the dedup ledger: the size in their attributes. -/
  recorded : Table Nat Nat := Table.empty
  /-- The owners of the identities in the request cache. -/
  cache : Table RequestIdentity Nat := Table.empty
  frozen : Bool := false
  writers : List Writer := []
  readers : List Reader := []
  /-- All writers that were ever staged, in that order. -/
  log : List Nat := []

inductive Action
  | call (request : IdentifiedWrite)
  | consult (i : Nat)
  | lookup (i : Nat)
  | answer (i : Nat)
  | reserve (i : Nat)
  | check (i : Nat)
  | acquire (i : Nat)
  | search (i : Nat)
  | load (i : Nat)
  | measure (i : Nat)
  | plan (i : Nat) (touch : Bool)
  | stage (i : Nat)
  | preview (i : Nat)
  | publish (i : Nat)
  | record (i : Nat)
  | accept (i : Nat)
  | refuse (i : Nat) (keep : Bool)
  | rollBack (i : Nat)
  | submit (i : Nat)
  | commit (i : Nat)
  | settle (i : Nat)
  | complete (i : Nat)
  | retire (i : Nat)
  | reap
  | evict (identity : RequestIdentity)
  | freeze
  | startRead (offset count : Nat)
  | sample (r : Nat)
  | measureRead (r : Nat)
  | sizeRead (r : Nat)
  | attach (r : Nat)
  | pin (r : Nat)
  | snapshot (r : Nat)
  | fetch (r : Nat)
  | overlay (r : Nat)

namespace FileState

variable (s : FileState)

def entries : List Nat := s.runtime.getD []

def request (k : Nat) : Option IdentifiedWrite := (s.writers[k]?).map (·.request)

def isPublished (k : Nat) : Bool := (s.writers[k]?).any (·.isPublished)

/-- `snapshot`: the published entries. -/
def snapshot : List OverlayEntry := (s.entries.filter s.isPublished).filterMap fun k => (s.request k).map (·.entry)

def dirtyEnd : Nat := (s.snapshot.map fun e => e.1 + e.2.length).foldl max 0

/-- The size in the last published preview. -/
def attrsSize : Nat :=
  ((s.latestAttrs.reverse.find? s.isPublished).bind fun k => s.writers[k]?).elim 0 (·.batch.attrsSize)

def recordedOp (op : Nat) : Option Nat := if op = 0 then none else s.recorded.get op

/-- The first result of an operation stays. -/
def recordOp (op attrsSize : Nat) : Table Nat Nat :=
  if op = 0 ∨ (s.recorded.get op).isSome then s.recorded else s.recorded.put op attrsSize

/-- The `k`-th writer is `w`. -/
abbrev At (k : Nat) (w : Writer) : Prop := s.writers[k]? = some w

def setWriter (i : Nat) (w : Writer) : FileState := { s with writers := s.writers.set i w }

def setReader (i : Nat) (r : Reader) : FileState := { s with readers := s.readers.set i r }

/-- A step of the `i`-th writer from `phase`. -/
def onWriter (i : Nat) (phase : WritePhase) (f : Writer → Option FileState) : Option FileState :=
  (s.writers[i]?).bind fun w => if w.phase = phase then f w else none

def onReader (i : Nat) (phase : ReadPhase) (f : Reader → Option FileState) : Option FileState :=
  (s.readers[i]?).bind fun r => if r.phase = phase then f r else none

/-- The step only moves the writer to the next phase. -/
def advance (i : Nat) (phase next : WritePhase) : Option FileState :=
  s.onWriter i phase fun w => some (s.setWriter i { w with phase := next })

/-- A commit of this inode that overlaps the extents of the request is on its way. -/
def inflightOverlap (request : IdentifiedWrite) : Bool :=
  s.writers.any fun v => v.phase = .submitted && v.request.overlapsExtents request

def replayedBatch (attrsSize : Nat) : Batch := { replayed := true, attrsSize := attrsSize }

/-- The sizes that `prepare_write` decides. -/
def planBatch (w : Writer) (touch : Bool) : Batch :=
  let oldSize := max w.canonical (max w.dirty s.attrsSize)
  let newSize := max oldSize w.request.stop
  let republish := decide (newSize ≠ oldSize) || touch
  { newSize := newSize, republish := republish, attrsSize := if republish then newSize else w.canonical }

/-- No writer and no reader holds a handle of the runtime. -/
def unhandled : Bool := s.writers.all (fun w => !w.holdsHandle) && s.readers.all fun r => !r.holdsHandle

/-- The entry of the writer goes to the end of the runtime. -/
def stageWriter (i : Nat) (w : Writer) (entries : List Nat) : FileState :=
  { s.setWriter i { w with phase := .staged } with runtime := some (entries ++ [i]), log := s.log ++ [i] }

def rollBackWriter (i : Nat) (w : Writer) : FileState :=
  { s.setWriter i { w with phase := .rolledBack } with lock := if s.lock = some i then none else s.lock }

/-- The inode has the new size, and the batch is on its way. -/
def submitWriter (i : Nat) (w : Writer) : FileState :=
  { s.setWriter i { w with phase := .submitted } with
    file := { s.file with size := if w.batch.republish then w.batch.newSize else s.file.size }
    lock := none }

def commitWriter (i : Nat) (w : Writer) : FileState :=
  { s.setWriter i { w with phase := .committed } with
    file := { s.file with byte := (s.file.write w.request.offset w.request.data).byte }
    recorded := s.recordOp w.request.op w.batch.attrsSize }

def retireWriter (i : Nat) (w : Writer) (phase : WritePhase) : FileState :=
  { s.setWriter i { w with phase := phase } with runtime := some s.entries.tail }

def step (a : Action) : Option FileState :=
  match a with
  | .call request =>
    if s.writers.all fun w => request.op = 0 || w.request.op ≠ request.op || w.request.samePayload request then
      some { s with writers := s.writers ++ [{ request := request }] }
    else none
  | .consult i => s.onWriter i .called fun w =>
    if w.request.tracksLedger && (s.recordedOp w.request.op).isSome
      then some (s.setWriter i { w with phase := .answered })
    else some (s.setWriter i { w with phase := .consulted })
  | .lookup i => s.onWriter i .consulted fun w =>
    match s.cache.get w.request.identity with
    | none => some { s.setWriter i { w with phase := .pending } with cache := s.cache.put w.request.identity i }
    | some j =>
      if (s.request j).any (·.samePayload w.request) then some (s.setWriter i { w with phase := .joined })
      else some (s.setWriter i { w with phase := .refused })
  | .answer i => s.advance i .joined .answered
  | .reserve i =>
    s.onWriter i .pending fun w => some { s.setWriter i { w with phase := .reserved } with runtime := some s.entries }
  | .check i => s.onWriter i .reserved fun w =>
    match s.recordedOp w.request.op with
    | some attrsSize => some (s.setWriter i { w with phase := .prepared, batch := replayedBatch attrsSize })
    | none => some (s.setWriter i { w with phase := .checked })
  | .acquire i => s.onWriter i .checked fun w =>
    if s.lock.isNone then some { s.setWriter i { w with phase := .locked } with lock := some i } else none
  | .search i => s.onWriter i .locked fun w =>
    if s.inflightOverlap w.request then none
    else match s.recordedOp w.request.op with
      | some attrsSize =>
        some { s.setWriter i { w with phase := .prepared, batch := replayedBatch attrsSize } with lock := none }
      | none => some (s.setWriter i { w with phase := .searched })
  | .load i => s.onWriter i .searched fun w =>
    if w.request.data = [] then
      some (s.setWriter i { w with phase := .prepared, batch := { newSize := s.file.size, attrsSize := s.file.size } })
    else some (s.setWriter i { w with phase := .loaded, canonical := s.file.size })
  | .measure i => s.onWriter i .loaded fun w => some (s.setWriter i { w with phase := .measured, dirty := s.dirtyEnd })
  | .plan i touch => s.onWriter i .measured fun w =>
    if (checkedAdd w.request.offset w.request.data.length).isNone then none
    else some (s.setWriter i { w with phase := .prepared, batch := s.planBatch w touch })
  | .stage i => s.onWriter i .prepared fun w =>
    if s.frozen || w.request.data = [] then none
    else s.runtime.map (s.stageWriter i w)
  | .preview i => s.onWriter i .staged fun w =>
    some { s.setWriter i { w with phase := .previewed } with latestAttrs := s.latestAttrs ++ [i] }
  | .publish i => s.advance i .previewed .published
  | .record i => s.onWriter i .published fun w =>
    if w.request.tracksLedger then
      some { s.setWriter i { w with phase := .recorded } with recorded := s.recordOp w.request.op w.batch.attrsSize }
    else some (s.setWriter i { w with phase := .recorded })
  | .accept i => s.advance i .recorded .accepted
  | .refuse i keep => (s.writers[i]?).bind fun w =>
    if w.isRefusable then
      some { s.setWriter i { w with phase := .refused } with
        lock := if s.lock = some i then none else s.lock
        cache := if keep then s.cache else s.cache.del w.request.identity }
    else none
  | .rollBack i => s.onWriter i .staged fun w => some (s.rollBackWriter i w)
  | .submit i => s.onWriter i .accepted fun w =>
    if s.frozen || s.entries.head? ≠ some i then none
    else if w.batch.replayed then some (s.setWriter i { w with phase := .committed })
    else some (s.submitWriter i w)
  | .commit i => s.onWriter i .submitted fun w => some (s.commitWriter i w)
  | .settle i => s.onWriter i .committed fun w =>
    some { s.setWriter i { w with phase := .settled } with latestAttrs := s.latestAttrs.tail }
  | .complete i => s.onWriter i .settled fun w =>
    some { s.setWriter i { w with phase := .completed } with
      cache := if w.request.lifetime = .oneShot ∨ w.request.lifetime = .inFlightOnly then s.cache.del w.request.identity
        else s.cache }
  | .retire i => (s.writers[i]?).bind fun w =>
    if s.entries.head? ≠ some i ∨ s.readers.any (·.isPinned) then none
    else if w.phase = .completed then some (s.retireWriter i w .retired)
    else if w.phase = .rolledBack then some (s.retireWriter i w .removed)
    else none
  | .reap => if s.runtime = some [] ∧ s.unhandled then some { s with runtime := none } else none
  | .evict identity =>
    if ((s.cache.get identity).bind fun j => s.writers[j]?).any (·.isDone)
      then some { s with cache := s.cache.del identity } else none
  | .freeze => some { s with frozen := true }
  | .startRead offset count =>
    some { s with readers := s.readers ++ [{ offset := offset, count := count, since := s.log.filter s.isPublished }] }
  | .sample i =>
    s.onReader i .started fun r => some (s.setReader i { r with phase := .sampled, canonical := s.file.size })
  | .measureRead i =>
    s.onReader i .sampled fun r => some (s.setReader i { r with phase := .measured, dirty := s.dirtyEnd })
  | .sizeRead i => s.onReader i .measured fun r =>
    let visible := max r.canonical (max r.dirty s.attrsSize)
    if r.offset ≥ visible then some (s.setReader i { r with phase := .finished, result := some ([], true) })
    else some (s.setReader i { r with phase := .sized, visible := visible, length := min r.count (visible - r.offset) })
  | .attach i => s.onReader i .sized fun r =>
    some (s.setReader i { r with phase := if s.runtime.isSome then .attached else .bare })
  | .pin i => s.onReader i .attached fun r => some (s.setReader i { r with phase := .pinned })
  | .snapshot i => s.onReader i .pinned fun r =>
    match fullyCovered r.offset r.length s.snapshot with
    | some data => some (s.setReader i (r.finish data))
    | none => some (s.setReader i { r with phase := .fetching })
  | .fetch i => (s.readers[i]?).bind fun r =>
    if (r.phase = .bare ∨ r.phase = .fetching) ∧ r.base.length < r.canonicalLen then
      some (s.setReader i { r with base := r.base ++ [s.file.byte (r.offset + r.base.length)] })
    else none
  | .overlay i => (s.readers[i]?).bind fun r =>
    let data := r.base ++ List.replicate (r.length - r.base.length) 0
    if r.base.length < r.canonicalLen then none
    else if r.phase = .bare then some (s.setReader i (r.finish data))
    else if r.phase = .fetching then some (s.setReader i (r.finish (s.snapshot.foldl (applyEntry r.offset) data)))
    else none

end FileState

end ZeroFS.Volatile
