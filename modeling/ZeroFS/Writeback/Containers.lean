import ZeroFS.Lib.Disk
import ZeroFS.Lib.Machine
import ZeroFS.Writeback.Record

/-!
# The files of the local journal

The journal keeps its rows in a database with atomic, durable transactions, and the payloads of each batch in one
container file (`journal.rs`). Staging writes the container to its final name and syncs the file and its shard
directory; `open_child_raw` syncs the shard's name only when this call has made it. The commit adds the rows and moves
`localSeq`. Pruning unlinks drained containers, syncs their shards and deletes the rows. Opening syncs the root for each
of `blobs/`, `tmp/` and the database that it makes, removes the containers above `localSeq`, prunes, sweeps every shard
and validates what is left. A crash may come between any two steps; unlinking several files is one step.
-/

namespace ZeroFS.Writeback

structure Container where
  first : Nat
  last : Nat
  deriving DecidableEq

/-- `(first >> 8) & 0xff` -/
def Container.shard (c : Container) : Nat := c.first / 256 % 256

/-- The payload of a row: its length and digest, and the slice of the container that holds it. -/
structure Blob where
  payloadLen : Nat
  payloadSha256 : List UInt8
  container : Container
  offset : Nat
  len : Nat

structure Row where
  sequence : Nat
  blob : Option Blob

/-- The payload-bearing sequences of a batch that starts at `first`. -/
def bearing (first : Nat) (records : List (Option Payload)) : List Nat :=
  (records.zipIdx first).filterMap fun r => r.1.map fun _ => r.2

def containerOf (first : Nat) (records : List (Option Payload)) : Option Container :=
  match (bearing first records).head?, (bearing first records).getLast? with
  | some f, some l => some ⟨f, l⟩
  | _, _ => none

def containerBytes (records : List (Option Payload)) : Payload := (records.map fun b => b.getD []).flatten

/-- The rows of a batch, from this sequence and this offset on. -/
def batchRows (sha256 : Payload → List UInt8) (c : Container) : Nat → Nat → List (Option Payload) → List Row
  | _, _, [] => []
  | s, offset, none :: records => ⟨s, none⟩ :: batchRows sha256 c (s + 1) offset records
  | s, offset, some b :: records =>
    ⟨s, some ⟨b.length, sha256 b, c, offset, b.length⟩⟩ :: batchRows sha256 c (s + 1) (offset + b.length) records

inductive StageStep
  | begun
  /-- The shard directory has just been made, and its name is not synced. -/
  | made
  | opened
  | created
  | filled
  | written
  | durable
  | discarded
  deriving DecidableEq

structure Batch where
  first : Nat
  records : List (Option Payload)
  step : StageStep

def Batch.container (b : Batch) : Option Container := containerOf b.first b.records

/-- A pruning: what it still has to sync. -/
inductive PruneStep
  | started
  | swept (shards : List Nat)
  | synced

/-- What an opening finds or makes in the root directory, in this order. -/
inductive RootName
  | blobs
  | tmp
  | database

/-- How far an opening or a removal has come. -/
inductive JournalPhase
  | closed
  /-- The name has just been made, and the root is not synced. -/
  | creating (name : RootName)
  | blobsOpen
  | tmpOpen
  | opened
  | removed (shards : List Nat)
  | recovered
  | swept (shards : List Nat)
  | synced
  | pruned
  | reclaimed (shards : List Nat)
  | checking
  | running
  | failed
  | refused

def RootName.opened : RootName → JournalPhase
  | blobs => .blobsOpen
  | tmp => .tmpOpen
  | database => .opened

/-- The disk, the rows and the batches in progress. -/
structure LocalJournal where
  disk : Disk Container Nat := {}
  /-- The directory `tmp/` and whether its name is synced. -/
  tmp : Option Bool := none
  /-- The database file is there. -/
  database : Bool := false
  rows : List Row := []
  localSeq : Nat := 0
  remoteSeq : Nat := 0
  /-- The payloads of all records that were ever committed. -/
  committed : List (Option Payload) := []
  phase : JournalPhase := .closed
  batches : List Batch := []
  pruning : Option (Nat × PruneStep) := none

inductive JournalAction
  | openBlobs
  | openTmp
  | openDatabase
  | syncRoot
  | removeUncommitted
  | syncUncommitted
  | sweepRemote
  | syncRemote
  | cleanRemote
  | reclaimDrained
  | syncReclaimed
  | validate
  | stage (records : List (Option Payload))
  | openShard (i : Nat)
  | syncBlobs (i : Nat)
  | create (i : Nat)
  | fill (i : Nat)
  | syncData (i : Nat)
  | syncShard (i : Nat)
  | commit
  | fail
  | discard (i : Nat)
  | syncDiscard (i : Nat)
  | mark (n : Nat)
  | prune (through : Nat)
  | sweep
  | syncSwept
  | deleteRows
  | crash (loseBlobs loseTmp : Bool) (lose : Nat → Bool) (residue : Container → Residue)

namespace LocalJournal

variable (sha256 : Payload → List UInt8) (j : LocalJournal)

/-- The shards of the containers that the rows up to `through` refer to. -/
def touchedShards (through : Nat) : List Nat :=
  j.rows.filterMap fun r => if r.sequence ≤ through then r.blob.map (·.container.shard) else none

/-- What `remove_remote_prefix` unlinks. -/
def drainedIn (shards : List Nat) (through : Nat) (c : Container) : Bool := c.shard ∈ shards && c.last ≤ through

def dropRows (through : Nat) : List Row := j.rows.filter fun r => through < r.sequence

/-- `read_blob`: the slice of the row, if it is all there and has the digest of the row. -/
def readBlob (b : Blob) : Option Payload :=
  (j.disk.read Container.shard b.container).bind fun content =>
    if b.len = b.payloadLen ∧ b.offset + b.payloadLen ≤ content.length ∧
        sha256 ((content.drop b.offset).take b.payloadLen) = b.payloadSha256 then
      some ((content.drop b.offset).take b.payloadLen)
    else none

/-- `validate_recovery_state` and `reject_unreferenced_blobs` -/
def validateRecoveryState : Bool :=
  let pending := j.dropRows j.remoteSeq
  j.remoteSeq ≤ j.localSeq && pending.map (·.sequence) = List.range' (j.remoteSeq + 1) (j.localSeq - j.remoteSeq) &&
    (pending.all fun r => r.blob.all fun b => (readBlob sha256 j b).isSome) &&
    j.disk.files.entries.all fun row => !row.2.linked ||
      pending.any fun r => r.blob.any fun b => b.container = row.1

def nextFirst : Nat := j.localSeq + 1 + (j.batches.map (·.records.length)).sum

def setBatch (i : Nat) (b : Batch) (step : StageStep) (disk : Disk Container Nat) : LocalJournal :=
  { j with disk := disk, batches := j.batches.set i { b with step := step } }

/-- A staging step of the `i`-th batch, when it is at `step` and has a container. -/
def stageStep (i : Nat) (step next : StageStep) (f : Container → Option (Disk Container Nat)) : Option LocalJournal :=
  (j.batches[i]?).bind fun b =>
    if b.step = step then b.container.bind fun c => (f c).map fun disk => j.setBatch i b next disk else none

def isRunning : Bool := match j.phase with | .running => true | _ => false

def isLive : Bool := match j.phase with | .running | .failed => true | _ => false

def step (a : JournalAction) : Option LocalJournal :=
  match a with
  | .openBlobs =>
    match j.phase with
    | .closed =>
      if j.disk.base.isNone then some { j with disk := { j.disk with base := some false }, phase := .creating .blobs }
      else some { j with phase := .blobsOpen }
    | _ => none
  | .openTmp =>
    match j.phase with
    | .blobsOpen =>
      if j.tmp.isNone then some { j with tmp := some false, phase := .creating .tmp }
        else some { j with phase := .tmpOpen }
    | _ => none
  | .openDatabase =>
    match j.phase with
    | .tmpOpen =>
      if j.database then some { j with phase := .opened }
        else some { j with database := true, phase := .creating .database }
    | _ => none
  | .syncRoot =>
    match j.phase with
    | .creating name =>
      some { j with disk := { j.disk with base := some true }, tmp := j.tmp.map fun _ => true, phase := name.opened }
    | _ => none
  | .removeUncommitted =>
    match j.phase with
    | .opened =>
      let p := fun c : Container => decide (j.localSeq < c.last)
      some { j with disk := j.disk.unlink p, phase := .removed (j.disk.unlinkedDirs Container.shard p) }
    | _ => none
  | .syncUncommitted =>
    match j.phase with
    | .removed shards => some { j with disk := j.disk.syncDirs Container.shard shards, phase := .recovered }
    | _ => none
  | .sweepRemote =>
    match j.phase with
    | .recovered =>
      if j.remoteSeq = 0 then some { j with phase := .checking }
      else
        let p := drainedIn (j.touchedShards j.remoteSeq) j.remoteSeq
        some { j with disk := j.disk.unlink p, phase := .swept (j.disk.unlinkedDirs Container.shard p) }
    | _ => none
  | .syncRemote =>
    match j.phase with
    | .swept shards => some { j with disk := j.disk.syncDirs Container.shard shards, phase := .synced }
    | _ => none
  | .cleanRemote =>
    match j.phase with
    | .synced => some { j with rows := j.dropRows j.remoteSeq, phase := .pruned }
    | _ => none
  | .reclaimDrained =>
    match j.phase with
    | .pruned =>
      let p := fun c : Container => decide (c.last ≤ j.remoteSeq)
      some { j with disk := j.disk.unlink p, phase := .reclaimed (j.disk.unlinkedDirs Container.shard p) }
    | _ => none
  | .syncReclaimed =>
    match j.phase with
    | .reclaimed shards => some { j with disk := j.disk.syncDirs Container.shard shards, phase := .checking }
    | _ => none
  | .validate =>
    match j.phase with
    | .checking => some { j with phase := if validateRecoveryState sha256 j then .running else .refused }
    | _ => none
  | .stage records =>
    if j.isRunning ∧ records ≠ [] then
      let b : Batch := ⟨j.nextFirst, records, .begun⟩
      some { j with batches := j.batches ++ [{ b with step := if b.container.isSome then .begun else .durable }] }
    else none
  | .openShard i =>
    match (j.batches[i]?).bind (·.container) with
    | none => none
    | some c =>
      if (j.disk.dirs.get c.shard).isSome then j.stageStep i .begun .opened fun _ => some j.disk
      else j.stageStep i .begun .made fun c => some (j.disk.mkdir c.shard)
  | .syncBlobs i => j.stageStep i .made .opened fun _ => some j.disk.syncBase
  | .create i =>
    j.stageStep i .opened .created fun c => if (j.disk.read Container.shard c).isSome then none
      else some (j.disk.create c)
  | .fill i =>
    (j.batches[i]?).bind fun b => j.stageStep i .created .filled
      fun c => some (j.disk.fill c (containerBytes b.records))
  | .syncData i => j.stageStep i .filled .written fun c => some (j.disk.syncData c)
  | .syncShard i => j.stageStep i .written .durable fun c => some (j.disk.syncDirs Container.shard [c.shard])
  | .commit =>
    match j.batches with
    | b :: rest =>
      if j.isRunning ∧ b.step = .durable ∧ b.first = j.localSeq + 1 then
        some { j with
          rows := j.rows ++ batchRows sha256 (b.container.getD ⟨0, 0⟩) b.first 0 b.records
          localSeq := j.localSeq + b.records.length
          committed := j.committed ++ b.records
          batches := rest }
      else none
    | [] => none
  | .fail => if j.isRunning then some { j with phase := .failed } else none
  | .discard i =>
    match j.phase with
    | .failed =>
      (j.batches[i]?).bind fun b =>
        match b.container, b.step with
        | _, .discarded => none
        | some c, .created | some c, .filled | some c, .written | some c, .durable =>
          some (j.setBatch i b .discarded (j.disk.unlink fun c' => decide (c' = c)))
        | _, _ => some (j.setBatch i b .discarded j.disk)
    | _ => none
  | .syncDiscard i => j.stageStep i .discarded .discarded fun c => some (j.disk.syncDirs Container.shard [c.shard])
  | .mark n => if j.isLive ∧ j.remoteSeq + n ≤ j.localSeq then some { j with remoteSeq := j.remoteSeq + n } else none
  | .prune through =>
    if j.isLive ∧ j.pruning.isNone ∧ through ≤ j.remoteSeq then some { j with pruning := some (through, .started) }
      else none
  | .sweep =>
    match j.pruning with
    | some (through, .started) =>
      let p := drainedIn (j.touchedShards through) through
      some { j with disk := j.disk.unlink p, pruning := some (through, .swept (j.disk.unlinkedDirs Container.shard p)) }
    | _ => none
  | .syncSwept =>
    match j.pruning with
    | some (through, .swept shards) =>
      some { j with disk := j.disk.syncDirs Container.shard shards, pruning := some (through, .synced) }
    | _ => none
  | .deleteRows =>
    match j.pruning with
    | some (through, .synced) => some { j with rows := j.dropRows through, pruning := none }
    | _ => none
  | .crash loseBlobs loseTmp lose residue =>
    some { j with
      disk := j.disk.crash Container.shard loseBlobs lose residue
      tmp := if j.tmp = some false ∧ loseTmp then none else j.tmp
      phase := .closed
      batches := []
      pruning := none }

/-- A shard that is found has a synced name, and the removal of an uncommitted container is synced before its last
sequence is committed. The root is synced whenever an opening makes a name in it, so that `blobs/` stays unsynced only
if each of three openings was cut off between the making of a name and the sync. -/
def anchored : JournalAction → Bool
  | .openBlobs => j.disk.base ≠ some false || j.tmp.isNone || !j.database
  | .openShard i => match (j.batches[i]?).bind (·.container) with
    | some c => j.disk.dirs.get c.shard ≠ some false
    | none => true
  | .commit => match j.batches with
    | b :: _ => j.disk.files.entries.all fun row =>
        row.2.linked || row.1.last ≤ j.localSeq || j.localSeq + b.records.length < row.1.last
    | [] => true
  | _ => true

abbrev Anchored (j : LocalJournal) (a : JournalAction) : Prop := anchored j a = true

end LocalJournal

end ZeroFS.Writeback
