import ZeroFS.Lib.Table
import ZeroFS.Pipeline.Calls

/-!
# The commit pipeline

A call acquires its inode locks in order, waits until no queued write overlaps its extents, reads its inodes and
reserves growth, stages its extents, and submits one transaction. A write drops its locks at submit; every other call
keeps them until it is answered or its caller is dropped. The worker drains a prefix of the queue into a batch, applies
or rejects it as a whole, and settles and answers its transactions in order; `reply false` is a late durability error. A
call that has not submitted can fail at any time (`abort`).
-/

namespace ZeroFS

/-! ## Committed tables -/

structure Db where
  inodes : Table InodeId Inode
  extents : Table (InodeId × Nat) Frame
  segcounts : Table Segid (Nat × Nat)

/-- `i64::MAX`, also the largest buffer (`isize::MAX`). -/
def i64Max : Nat := 2 ^ 63 - 1

def saturatingAdd (a b : Int) : Int := max (-(2 ^ 63)) (min (2 ^ 63 - 1) (a + b))

/-- The live and total deltas of one segment, summed with saturation. -/
def netDelta (deltas : List (Segid × Int × Int)) (g : Segid) : Int × Int :=
  deltas.foldl (fun net d => if d.1 = g then (saturatingAdd net.1 d.2.1, saturatingAdd net.2 d.2.2) else net) (0, 0)

/-- The new counter: live is clamped at zero, total never falls, and both are `u64`. -/
def addDelta (cur : Nat × Nat) (net : Int × Int) : Nat × Nat :=
  ((max (cur.1 + net.1) 0).toNat % 2 ^ 64, (max (cur.2 + net.2) cur.2).toNat % 2 ^ 64)

def stageSegDeltas (counts : Table Segid (Nat × Nat)) (deltas : List (Segid × Int × Int)) : Table Segid (Nat × Nat) :=
  (deltas.map Prod.fst).dedup.foldl
    (fun t g => t.put g (addDelta ((counts.get g).getD (0, 0)) (netDelta deltas g))) counts

namespace Db

def extent (db : Db) (id : InodeId) (idx : Nat) : Extent := Extent.ofEdit ((db.extents.get (id, idx)).map Frame.data)

def locOf (db : Db) (key : InodeId × Nat) : Option FrameLoc := (db.extents.get key).map Frame.loc

def applyInode (t : Table InodeId Inode) (u : InodeUpdate) : Table InodeId Inode :=
  match u.value with
  | some inode => t.put u.id inode
  | none => t.del u.id

def applyEdit (t : Table (InodeId × Nat) Frame) (e : Edit) : Table (InodeId × Nat) Frame :=
  match e.frame with
  | some f => t.put e.key f
  | none => t.del e.key

/-- The merged write of a batch. -/
def applyBatch (db : Db) (txns : List Txn) : Db where
  inodes := (txns.flatMap Txn.inodes).foldl applyInode db.inodes
  extents := (txns.flatMap Txn.edits).foldl applyEdit db.extents
  segcounts := stageSegDeltas db.segcounts (txns.flatMap Txn.segDeltas)

/-- The stored extents of an inode in `[start, stop)`. -/
def scanExtents (db : Db) (id : InodeId) (start stop : Nat) : List (Nat × Frame) :=
  db.extents.entries.filterMap fun e =>
    if e.1.1 = id ∧ start ≤ e.1.2 ∧ e.1.2 < stop then some (e.1.2, e.2) else none

end Db

/-! ## Segments -/

/-- The bytes and the number of frames claimed in a segment. -/
structure SegInfo where
  bytes : Nat
  frames : Nat
  deriving DecidableEq, Repr

/-- The open segments, and what is in each. -/
structure Segments where
  epoch : Nat
  nextCounter : Nat
  /-- The open segment of each append lane. -/
  lanes : List Segid
  info : Table Segid SegInfo

namespace Segments

def fresh (g : Segments) : Segid := ⟨g.epoch, g.nextCounter⟩

def infoOf (g : Segments) (segid : Segid) : SegInfo := (g.info.get segid).getD ⟨0, 0⟩

/-- More frames in a segment. -/
def extend (g : Segments) (segid : Segid) (bytes frames : Nat) : Segments :=
  { g with info := g.info.put segid ⟨(g.infoOf segid).bytes + bytes, (g.infoOf segid).frames + frames⟩ }

end Segments

def lenPrefix : Nat := 4

/-- Place the frames of one pass at the end of the segment `segid`, in order; `debit` is the frame each edit
supersedes. -/
def placeEdits (sealedLen : Extent → Nat) (segid : Segid) (id : InodeId) (debit : Nat → Option FrameLoc) :
    SegInfo → List (Nat × Option Extent) → List Edit × SegInfo
  | seg, [] => ([], seg)
  | seg, (idx, none) :: rest =>
    let (es, seg') := placeEdits sealedLen segid id debit seg rest
    (⟨(id, idx), none, debit idx⟩ :: es, seg')
  | seg, (idx, some x) :: rest =>
    let byteLen := lenPrefix + sealedLen x
    let (es, seg') := placeEdits sealedLen segid id debit ⟨seg.bytes + byteLen, seg.frames + 1⟩ rest
    (⟨(id, idx), some ⟨⟨segid, seg.frames, seg.bytes, byteLen⟩, x⟩, debit idx⟩ :: es, seg')

/-! ## Calls -/

/-- How far a call has come. -/
inductive CallPhase
  | locking (todo : List InodeId)
  /-- Tasks whose inode is not read yet, and the extent operations planned so far. -/
  | preparing (todo : List Task) (ops : List ExtentOp)
  | staging (todo : List ExtentOp)
  | queued
  | settled
  | answered (result : Except FsError Unit)

structure Call where
  tasks : List Task
  creds : Credentials
  checkPermissions : Bool
  phase : CallPhase
  held : List InodeId
  txn : Txn := {}
  /-- Growth reserved and not yet settled. -/
  growth : List ProvisionalQuotaReservation := []
  /-- Committed bytes to release when the transaction commits. -/
  shrink : Nat := 0
  /-- The overlay slots that the queued transaction installed. -/
  owned : List (InodeId × Nat) := []

namespace Call

def ids (c : Call) : List InodeId := c.tasks.map Task.id

/-- Write calls drop their locks at submit. -/
def pipelined (c : Call) : Bool := c.tasks.all Task.isWrite

/-- The extent ranges of the call's writes. -/
def spans (c : Call) : List (InodeId × Nat × Nat) := c.tasks.filterMap fun t => t.span.map fun r => (t.id, r)

/-- Dropping the reservations of a call that failed. -/
def refund (c : Call) (q : LogicalQuota) : LogicalQuota := c.growth.foldl (fun q r => r.drop q) q

/-- The quota settlement of a committed transaction. -/
def settleQuota (c : Call) (q : LogicalQuota) : LogicalQuota :=
  (c.growth.foldl (fun q r => (r.accept.canonical q).2) q).releaseCommitted c.shrink

end Call

/-- A queued write's claim on the extents `start..stop` of an inode. -/
structure InflightWrite where
  token : Nat
  id : InodeId
  start : Nat
  stop : Nat
  deriving DecidableEq, Repr

/-- What the commit worker has in hand. -/
inductive Worker
  | idle
  | drained (batch : List Nat)
  /-- The batch was written (`applied`) or failed; `todo` is not settled yet. -/
  | settling (applied : Bool) (done todo : List Nat)
  | sending (applied : Bool) (result : Except FsError Unit) (todo : List Nat)

/-- The store, its caches, the calls and the worker. -/
structure Sys where
  db : Db
  extentLocationCache : Table (InodeId × Nat) (Option FrameLoc)
  tailCache : Table InodeId (Nat × Extent)
  pending : Table InodeId (Nat × Option Inode)
  nextSeq : Nat
  inflight : List InflightWrite
  quota : LogicalQuota
  segments : Segments
  calls : Table Nat Call
  queue : List Nat
  worker : Worker
  /-- The submitted calls, in the order of their submission. -/
  log : List Nat

namespace Sys

variable (s : Sys)

/-- `InodeStore::get`: the newest queued value, or the committed one. -/
def visible (id : InodeId) : Option Inode :=
  match s.pending.get id with
  | some (_, v) => v
  | none => s.db.inodes.get id

/-- The call of `tid` stands at `c`. -/
abbrev At (tid : Nat) (c : Call) : Prop := s.calls.get tid = some c

def busy (tid : Nat) (id : InodeId) : Bool := s.calls.entries.any fun e => e.1 ≠ tid && e.2.held.contains id

/-- A queued write of the inode overlaps the extents `start..stop`. -/
def overlaps (id : InodeId) (start stop : Nat) : Bool :=
  s.inflight.any fun w => w.id = id && w.start ≤ stop && start ≤ w.stop

def inflightOn (id : InodeId) : Bool := s.inflight.any fun w => w.id = id

def setCall (tid : Nat) (c : Call) : Sys := { s with calls := s.calls.put tid c }

/-- The call ends without a transaction: its reservations are dropped and its locks released. -/
def fail (tid : Nat) (c : Call) (e : FsError) : Sys :=
  { s with
    quota := c.refund s.quota
    calls := s.calls.put tid { c with phase := .answered (.error e), held := [], growth := [] } }

/-! ## Locking and preparing -/

/-- The tasks of a call: writes on different inodes, a rename over another file, or one task of another kind. -/
def validTasks (tasks : List Task) : Bool :=
  match tasks with
  | [.repoint ..] => false
  | [_] => true
  | [.relocate id _ _ _, .unlink target _] => id ≠ target
  | tasks => !tasks.isEmpty && tasks.all Task.isWrite && decide (tasks.map Task.id).Nodup

def spawn (tid : Nat) (tasks : List Task) (creds : Credentials) (checkPermissions : Bool) : Option Sys :=
  if (s.calls.get tid).isSome then none
  else if validTasks tasks then some (s.setCall tid ⟨tasks, creds, checkPermissions,
    .locking (lockOrder (tasks.map Task.id)), [], {}, [], 0, []⟩)
  else none

/-- The packed segment `segid` of a compaction has new frames for extents of one inode: start the swap. -/
def compact (tid : Nat) (id : InodeId) (segid : Segid) (items : List (Nat × FrameLoc × FrameLoc)) : Option Sys :=
  let bytes := (items.map fun i => i.2.2.byteLen).sum
  if (s.calls.get tid).isNone ∧ (s.segments.info.get segid).isSome ∧ segid ∉ s.segments.lanes ∧
    (items.map Prod.fst).Nodup ∧ (∀ i ∈ items, i.2.2.segid = segid) ∧
    (s.segments.infoOf segid).bytes + bytes ≤ i64Max then
    some { s.setCall tid ⟨[.repoint id items], .root, false, .locking [id], [], {}, [], 0, []⟩ with
      segments := s.segments.extend segid bytes items.length }
  else none

def lock (tid : Nat) : Option Sys := do
  let c ← s.calls.get tid
  match c.phase with
  | .locking (id :: todo) =>
    if s.busy tid id then none else some (s.setCall tid { c with held := id :: c.held, phase := .locking todo })
  | _ => none

/-- All locks are held; a write call first waits for the queued writes that overlap it. -/
def start (tid : Nat) : Option Sys := do
  let c ← s.calls.get tid
  match c.phase with
  | .locking [] =>
    if c.spans.any fun sp => s.overlaps sp.1 sp.2.1 sp.2.2 then none
    else some (s.setCall tid { c with phase := .preparing c.tasks [] })
  | _ => none

/-- A reservation is made only for growth. -/
def reserveGrowth (q : LogicalQuota) (growth : Nat) :
    Except FsError (List ProvisionalQuotaReservation) × LogicalQuota :=
  if growth = 0 then (.ok [], q)
  else match q.reserve growth with
  | (.ok r, q) => (.ok [r], q)
  | (.error e, q) => (.error e, q)

/-- The rows that a plan writes, beside the record it was made from. -/
def updates (id : InodeId) (inode : Option Inode) (plan : Plan) : List InodeUpdate :=
  match inode, plan.update with
  | some base, some value => [⟨id, base, value⟩]
  | _, _ => []

/-- The call after one more task is planned. -/
def planned (c : Call) (id : InodeId) (inode : Option Inode) (plan : Plan) (rs : List ProvisionalQuotaReservation)
    (todo : List Task) (ops : List ExtentOp) : Call :=
  { c with
    txn := { c.txn with inodes := c.txn.inodes ++ updates id inode plan }
    growth := c.growth ++ rs
    shrink := c.shrink + plan.shrink
    phase := if todo = [] then .staging (ops ++ plan.ops) else .preparing todo (ops ++ plan.ops) }

/-- Read the inode of the next task and plan it. -/
def prepare (tid : Nat) (now : Nat → Timestamp) : Option Sys := do
  let c ← s.calls.get tid
  match c.phase with
  | .preparing (task :: todo) ops =>
    let inode := s.visible task.id
    match task.plan now c.creds c.checkPermissions inode with
    | .error e => some (s.fail tid c e)
    | .ok plan =>
      match reserveGrowth s.quota plan.growth with
      | (.error e, q) => some ({ s with quota := q }.fail tid c e)
      | (.ok rs, q) => some ({ s with quota := q }.setCall tid (planned c task.id inode plan rs todo ops))
  | _ => none

/-! ## Staging -/

/-- The bytes that a write finds in extent `idx`: zeros where it writes all of it or where the file has none, else the
cached tail or the stored extent. -/
def existingExtent (id : InodeId) (offset endOffset oldSize idx : Nat) : Extent :=
  if coversExtent offset endOffset idx ∨ idx * extentSize ≥ oldSize then Extent.zero
  else match s.tailCache.get id with
  | some (i, x) => if i = idx then x else s.db.extent id idx
  | none => s.db.extent id idx

def oldDebitPointLookupsMax : Nat := 1024 * 1024 / extentSize

/-- The stored location of an extent, from the location cache when few extents are looked up. -/
def lookupLoc (id : InodeId) (candidates idx : Nat) : Option FrameLoc :=
  if candidates ≤ oldDebitPointLookupsMax then
    match s.extentLocationCache.get (id, idx) with
    | some loc => loc
    | none => s.db.locOf (id, idx)
  else s.db.locOf (id, idx)

/-- `stage_edits`: the superseded frames below `oldExtentEnd` are debited, and the new frames are claimed in the open
segment of a lane. -/
def stageEdits (sealedLen : Extent → Nat) (lane : Nat) (id : InodeId) (edits : List (Nat × Option Extent))
    (oldExtentEnd : Nat) : Option (List Edit × Segments) := do
  let segid ← s.segments.lanes[lane]?
  let candidates := (edits.filter fun e => e.1 < oldExtentEnd).length
  let debit := fun idx => if idx < oldExtentEnd then s.lookupLoc id candidates idx else none
  let (es, seg) := placeEdits sealedLen segid id debit (s.segments.infoOf segid) edits
  if seg.bytes ≤ i64Max ∧ seg.frames ≤ u32Max then
    some (es, { s.segments with info := s.segments.info.put segid seg })
  else none

/-- `delete_range`: every stored extent in the range is deleted and debited. -/
def deleteEdits (id : InodeId) (start stop : Nat) : List Edit :=
  (s.db.scanExtents id start stop).map fun e => ⟨(id, e.1), none, some e.2.loc⟩

/-- What an extent operation stages. -/
structure Staged where
  passes : List (List Edit)
  tails : List (InodeId × TailUpdate) := []
  segments : Segments

/-- The tail-cache effect of a write with these edits. -/
def tailUpdate (endOffset oldSize : Nat) (edits : List (Nat × Option Extent)) : TailUpdate :=
  if endOffset ≥ oldSize ∧ endOffset % extentSize ≠ 0 then
    match edits.getLast? with
    | some (idx, some x) => .set idx x
    | _ => .clear
  else .clear

/-- `write`: the queued writes that overlap are waited for, and the last extent of the address space cannot be
written. -/
def stageWrite (sealedLen : Extent → Nat) (lane : Nat) (id : InodeId) (offset : Nat) (data : List UInt8)
    (oldSize : Nat) : Option Staged := do
  let endOffset := offset + data.length
  let last := (endOffset - 1) / extentSize
  if s.overlaps id (offset / extentSize) last ∨ u64Max < last * extentSize + extentSize then none
  else do
    let edits := writeEdits (s.existingExtent id offset endOffset oldSize) offset data
    let (es, segments) ← s.stageEdits sealedLen lane id edits (extentCount oldSize)
    some ⟨[es], [(id, tailUpdate endOffset oldSize edits)], segments⟩

def stageTruncate (sealedLen : Extent → Nat) (lane : Nat) (id : InodeId) (oldSize newSize : Nat) : Option Staged := do
  let deleted := s.deleteEdits id (extentCount newSize) (extentCount oldSize)
  if newSize % extentSize = 0 then some ⟨[deleted], [], s.segments⟩
  else do
    let last := extentCount newSize - 1
    let edit := (last, (truncateTail (s.db.extent id last) newSize).toEdit)
    let (es, segments) ← s.stageEdits sealedLen lane id [edit] (extentCount oldSize)
    some ⟨[deleted, es], [], segments⟩

def stageZeroRange (sealedLen : Extent → Nat) (lane : Nat) (id : InodeId) (offset length fileSize : Nat) :
    Option Staged := do
  let existing := fun idx => (s.db.extents.get (id, idx)).map Frame.data
  let (es, segments) ← s.stageEdits sealedLen lane id (zeroRangeEdits existing offset length fileSize)
    (extentCount fileSize)
  some ⟨[es], [], segments⟩

/-- The swap of one extent: it gets the packed location if it still has the gathered one. -/
def repointEdit (id : InodeId) (item : Nat × FrameLoc × FrameLoc) : Option Edit :=
  match s.db.extents.get (id, item.1) with
  | some f => if f.loc = item.2.1 then some ⟨(id, item.1), some ⟨item.2.2, f.data⟩, some item.2.1⟩ else none
  | none => none

def repointEdits (id : InodeId) (items : List (Nat × FrameLoc × FrameLoc)) : List Edit :=
  items.filterMap (s.repointEdit id)

/-- Stage one extent operation. All but `write` wait until no write of the inode is queued. -/
def stageOp (sealedLen : Extent → Nat) (lane : Nat) : ExtentOp → Option Staged
  | .write id offset data oldSize => s.stageWrite sealedLen lane id offset data oldSize
  | .truncate id oldSize newSize =>
    if newSize ≥ oldSize then some ⟨[], [], s.segments⟩
    else if s.inflightOn id then none
    else s.stageTruncate sealedLen lane id oldSize newSize
  | .zeroRange id offset length fileSize =>
    if s.inflightOn id then none else s.stageZeroRange sealedLen lane id offset length fileSize
  | .deleteRange id start stop => if s.inflightOn id then none else some ⟨[s.deleteEdits id start stop], [], s.segments⟩
  | .repoint id items => if s.inflightOn id then none else some ⟨[s.repointEdits id items], [], s.segments⟩

/-- Deleting and zeroing drop the cached tail as soon as they are staged. -/
def invalidatesTail : ExtentOp → Bool
  | .truncate _ oldSize newSize => newSize < oldSize
  | .zeroRange .. | .deleteRange .. => true
  | .write .. | .repoint .. => false

def stagedCall (c : Call) (r : Staged) (todo : List ExtentOp) : Call :=
  { c with
    txn := { c.txn with staged := c.txn.staged ++ r.passes, tails := c.txn.tails ++ r.tails }
    phase := .staging todo }

def stageCall (tid : Nat) (c : Call) (op : ExtentOp) (r : Staged) (todo : List ExtentOp) : Sys :=
  { s with
    tailCache := if invalidatesTail op then s.tailCache.del op.id else s.tailCache
    segments := r.segments
    calls := s.calls.put tid (stagedCall c r todo) }

def stage (sealedLen : Extent → Nat) (tid lane : Nat) : Option Sys := do
  let c ← s.calls.get tid
  match c.phase with
  | .staging (op :: todo) => do
    let r ← s.stageOp sealedLen lane op
    some (s.stageCall tid c op r todo)
  | _ => none

/-! ## Submitting -/

/-- The overlay slots of a transaction: one sequence number per row. -/
def ownedSlots (c : Call) : List (InodeId × Nat) := c.txn.inodes.mapIdx fun i u => (u.id, s.nextSeq + i)

def installPending (c : Call) : Table InodeId (Nat × Option Inode) :=
  (c.txn.inodes.zip (s.ownedSlots c)).foldl (fun t p => t.put p.1.id (p.2.2, p.1.value)) s.pending

def queuedCall (c : Call) : Call :=
  { c with phase := .queued, owned := s.ownedSlots c, held := if c.pipelined then [] else c.held }

/-- Queue the transaction: register its extents, publish its inodes, take a place in the queue. -/
def enqueue (tid : Nat) (c : Call) : Sys :=
  { s with
    inflight := s.inflight ++ c.spans.map fun sp => ⟨tid, sp.1, sp.2.1, sp.2.2⟩
    pending := s.installPending c
    nextSeq := s.nextSeq + c.txn.inodes.length
    queue := s.queue ++ [tid]
    log := s.log ++ [tid]
    calls := s.calls.put tid (s.queuedCall c) }

def submit (tid : Nat) : Option Sys := do
  let c ← s.calls.get tid
  match c.phase with
  | .staging [] =>
    if c.txn.isEmpty then some (s.setCall tid { c with phase := .answered (.ok ()), held := [] })
    else some (s.enqueue tid c)
  | _ => none

def abort (tid : Nat) : Option Sys := do
  let c ← s.calls.get tid
  match c.phase with
  | .locking _ | .preparing .. | .staging _ => some (s.fail tid c .ioError)
  | _ => none

/-- The future of a caller is dropped before the answer. Its locks go with it, and the queue keeps its transaction. -/
def drop (tid : Nat) : Option Sys := do
  let c ← s.calls.get tid
  match c.phase with
  | .queued | .settled => if c.held = [] then none else some (s.setCall tid { c with held := [] })
  | _ => none

/-! ## The commit worker -/

def drain (n : Nat) : Option Sys :=
  match s.worker with
  | .idle => if 0 < n ∧ n ≤ s.queue.length then
      some { s with worker := .drained (s.queue.take n), queue := s.queue.drop n } else none
  | _ => none

def txnsOf (tids : List Nat) : List Txn := tids.filterMap fun tid => (s.calls.get tid).map Call.txn

/-- The batch fails before it is written: an early failure answers at once, a late one settles first. -/
def reject (late : Bool) : Option Sys :=
  match s.worker with
  | .drained batch => some { s with
      worker := if late then .settling false [] batch else .sending false (.error .ioError) batch }
  | _ => none

def applyBatch (batch : List Nat) : Sys :=
  { s with
    db := s.db.applyBatch (s.txnsOf batch)
    extentLocationCache := ((s.txnsOf batch).flatMap Txn.edits).foldl
      (fun t e => t.put e.key (e.frame.map Frame.loc)) s.extentLocationCache
    worker := .settling true [] batch }

def apply : Option Sys :=
  match s.worker with
  | .drained batch => some (s.applyBatch batch)
  | _ => none

def applyTail (t : Table InodeId (Nat × Extent)) (u : InodeId × TailUpdate) : Table InodeId (Nat × Extent) :=
  match u.2 with
  | .set idx x => t.put u.1 (idx, x)
  | .clear => t.del u.1

/-- The quota, cached tails and in-flight extents after the settlement of a call. -/
def settleCall (tid : Nat) (c : Call) (applied : Bool) : Sys :=
  { s with
    quota := if applied then c.settleQuota s.quota else c.refund s.quota
    tailCache := if applied then c.txn.tails.foldl applyTail s.tailCache else s.tailCache
    inflight := s.inflight.filter fun w => w.token ≠ tid
    calls := s.calls.put tid { c with phase := .settled, growth := [], shrink := 0 } }

/-- Consume the settlement of a call, which is there until the call is settled. -/
def takeSettlement (tid : Nat) (applied : Bool) : Sys :=
  match s.calls.get tid with
  | none => s
  | some c =>
    match c.phase with
    | .queued => s.settleCall tid c applied
    | _ => s

def settle : Option Sys :=
  match s.worker with
  | .settling applied done (tid :: todo) =>
    some { s.takeSettlement tid applied with worker := .settling applied (done ++ [tid]) todo }
  | _ => none

/-- Every transaction of the batch is settled; with `sync_writes` the answer waits for a flush that can fail. -/
def reply (durable : Bool) : Option Sys :=
  match s.worker with
  | .settling applied done [] => some { s with
      worker := .sending applied (if applied && durable then .ok () else .error .ioError) done }
  | _ => none

/-- Retire the overlay slots that still belong to the call. -/
def retirePending (c : Call) : Table InodeId (Nat × Option Inode) :=
  c.owned.foldl (fun t o => if (t.get o.1).any (fun p => p.1 = o.2) then t.del o.1 else t) s.pending

def answeredCall (c : Call) (result : Except FsError Unit) : Call :=
  { c with phase := .answered result, held := [], growth := [], shrink := 0 }

/-- The batch is being answered, or the worker is idle when nothing is left. -/
def afterSend (applied : Bool) (result : Except FsError Unit) (todo : List Nat) : Worker :=
  if todo = [] then .idle else .sending applied result todo

/-- Settle the call if an early failure has not done so, retire its overlay slots and answer it. -/
def send : Option Sys :=
  match s.worker with
  | .sending applied result (tid :: todo) => do
    let c ← s.calls.get tid
    some { s.takeSettlement tid applied with
      pending := s.retirePending c
      worker := afterSend applied result todo
      calls := s.calls.put tid (answeredCall c result) }
  | _ => none

end Sys

/-! ## Steps -/

inductive Action
  | spawn (tid : Nat) (tasks : List Task) (creds : Credentials) (checkPermissions : Bool)
  | compact (tid : Nat) (id : InodeId) (segid : Segid) (items : List (Nat × FrameLoc × FrameLoc))
  | lock (tid : Nat)
  | start (tid : Nat)
  | prepare (tid : Nat) (now : Nat → Timestamp)
  | stage (tid lane : Nat)
  | submit (tid : Nat)
  | abort (tid : Nat)
  | drop (tid : Nat)
  | drain (n : Nat)
  | reject (late : Bool)
  | apply
  | settle
  | reply (durable : Bool)
  | send
  /-- A lane is sealed and gets a fresh segment. -/
  | rotate (lane : Nat)
  /-- A compaction allocates a segment. -/
  | pack
  | loadLocation (key : InodeId × Nat)
  | evictLocation (key : InodeId × Nat)
  | evictTail (id : InodeId)

/-- Every caller waits for its answer. -/
def Action.awaited : Action → Bool
  | .drop _ => false
  | _ => true

abbrev Awaited (_ : Sys) (a : Action) : Prop := a.awaited = true

namespace Sys

/-- `sealedLen` is the codec's length of a sealed extent. -/
def step (sealedLen : Extent → Nat) (s : Sys) : Action → Option Sys
  | .spawn tid tasks creds checkPermissions => s.spawn tid tasks creds checkPermissions
  | .compact tid id segid items => s.compact tid id segid items
  | .lock tid => s.lock tid
  | .start tid => s.start tid
  | .prepare tid now => s.prepare tid now
  | .stage tid lane => s.stage sealedLen tid lane
  | .submit tid => s.submit tid
  | .abort tid => s.abort tid
  | .drop tid => s.drop tid
  | .drain n => s.drain n
  | .reject late => s.reject late
  | .apply => s.apply
  | .settle => s.settle
  | .reply durable => s.reply durable
  | .send => s.send
  | .rotate lane => some { s with segments := { s.segments with
      lanes := s.segments.lanes.set lane s.segments.fresh
      nextCounter := s.segments.nextCounter + 1
      info := s.segments.info.put s.segments.fresh ⟨0, 0⟩ } }
  | .pack => some { s with segments := { s.segments with
      nextCounter := s.segments.nextCounter + 1
      info := s.segments.info.put s.segments.fresh ⟨0, 0⟩ } }
  | .loadLocation key => some { s with
      extentLocationCache := s.extentLocationCache.put key (s.db.locOf key) }
  | .evictLocation key => some { s with extentLocationCache := s.extentLocationCache.del key }
  | .evictTail id => some { s with tailCache := s.tailCache.del id }

/-- A file system at rest: committed tables, no calls and empty caches. -/
def boot (db : Db) (quota : LogicalQuota) (segments : Segments) : Sys :=
  ⟨db, Table.empty, Table.empty, Table.empty, 0, [], quota, segments, Table.empty, [], .idle, []⟩

end Sys

end ZeroFS
