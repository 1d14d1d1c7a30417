import ZeroFS.Lib.Machine
import ZeroFS.Lib.Updates
import ZeroFS.Pipeline.Model

/-!
# The commit worker

`worker_loop` drains the queue into a batch, merges its transactions, derives the byte deltas, reads the allocation
watermark, stages the usage shards and writes everything as one atomic batch. Each decision is a step of its own.
Written batches become durable in order; a crash restarts from a prefix of them. `kinds` is a ghost: every image of an
inode is of the kind it was created with.
-/

namespace ZeroFS.Commit

open Updates

/-! ## Transactions -/

structure StatsDelta where
  inodeId : InodeId
  bytes : Int
  inodes : Int

/-- What the worker reads of a transaction: the inode images in application order, the statistics that ride along, and
for each of the other puts and deletes the inode ids that it names. -/
structure Transaction where
  inodeCacheUpdates : List (InodeId × Option Inode) := []
  statsDeltas : List StatsDelta := []
  others : List (List InodeId) := []

namespace Transaction

def save (txn : Transaction) (id : InodeId) (inode : Inode) : Transaction :=
  { txn with inodeCacheUpdates := txn.inodeCacheUpdates ++ [(id, some inode)] }

def delete (txn : Transaction) (id : InodeId) : Transaction :=
  { txn with inodeCacheUpdates := txn.inodeCacheUpdates ++ [(id, none)] }

def addInodeCountDelta (txn : Transaction) (id : InodeId) (inodes : Int) : Transaction :=
  if inodes ≠ 0 then { txn with statsDeltas := txn.statsDeltas ++ [⟨id, 0, inodes⟩] } else txn

def isEmpty (txn : Transaction) : Bool := txn.inodeCacheUpdates.isEmpty && txn.others.isEmpty

end Transaction

/-- What an operation does to one inode: `create`, `mkdir`, `mknod` and `symlink` make a new one and count it, the last
unlink, a rename over it and a reclaim delete it and count it off. -/
inductive Change
  | create (id : InodeId) (inode : Inode)
  | save (id : InodeId) (inode : Inode)
  | delete (id : InodeId)

namespace Change

def id : Change → InodeId
  | create id _ | save id _ | delete id => id

def image : Change → Option Inode
  | create _ inode | save _ inode => some inode
  | delete _ => none

def inodes : Change → Int
  | create _ _ => 1
  | save _ _ => 0
  | delete _ => -1

def stage (txn : Transaction) : Change → Transaction
  | create id inode => (txn.save id inode).addInodeCountDelta id 1
  | save id inode => txn.save id inode
  | delete id => (txn.delete id).addInodeCountDelta id (-1)

end Change

structure Request where
  changes : List Change
  others : List (List InodeId)

namespace Request

def txn (r : Request) : Transaction := r.changes.foldl Change.stage { others := r.others }

def ids (r : Request) : List InodeId := r.changes.map Change.id ++ r.others.flatten

end Request

/-! ## Statistics -/

def statsShards : Nat := 100

def shardOf (id : InodeId) : Nat := id % statsShards

structure StatsShardData where
  usedBytes : Nat
  usedInodes : Nat
  deriving DecidableEq

/-- `u64::saturating_add_signed`. -/
def saturatingAddSigned (a : Nat) (d : Int) : Nat := (max 0 (min (2 ^ 64 - 1) (a + d))).toNat

/-- The signed difference of two sizes, clamped on both sides. -/
def sizeDelta (oldSize newSize : Nat) : Int :=
  if oldSize ≤ newSize then
    if newSize - oldSize < 2 ^ 63 then ((newSize - oldSize : Nat) : Int) else 2 ^ 63 - 1
  else if oldSize - newSize < 2 ^ 63 then -((oldSize - newSize : Nat) : Int) else -(2 ^ 63 - 1)

/-- The shard counters, zero where none was stored. -/
abbrev Shards := Table Nat StatsShardData

def Shards.at (t : Shards) (shard : Nat) : StatsShardData := (t.get shard).getD ⟨0, 0⟩

def Shards.getTotals (t : Shards) : Nat × Nat :=
  (((List.range statsShards).map fun i => (t.at i).usedBytes).sum,
    ((List.range statsShards).map fun i => (t.at i).usedInodes).sum)

def stageDelta (t : Shards) (shard : Nat) (bytes inodes : Int) : StatsShardData :=
  ⟨saturatingAddSigned (t.at shard).usedBytes bytes, saturatingAddSigned (t.at shard).usedInodes inodes⟩

/-- Store absolute values: in the batch, and in memory when it is published. -/
def Shards.putAll (t : Shards) (staged : List (Nat × StatsShardData)) : Shards :=
  staged.foldl (fun t p => t.put p.1 p.2) t

/-! ## Merging -/

abbrev ShardDeltas := Table Nat (Int × Int)

def ShardDeltas.at (t : ShardDeltas) (shard : Nat) : Int × Int := (t.get shard).getD (0, 0)

def addStats (t : ShardDeltas) (d : StatsDelta) : ShardDeltas :=
  let e := t.at (shardOf d.inodeId)
  t.put (shardOf d.inodeId) (saturatingAdd e.1 d.bytes, saturatingAdd e.2 d.inodes)

def addBytes (t : ShardDeltas) (d : InodeId × Int) : ShardDeltas :=
  let e := t.at (shardOf d.1)
  t.put (shardOf d.1) (saturatingAdd e.1 d.2, e.2)

/-- The images of the batch, the last one of each inode. -/
def mergeUpdates (batch : List Request) : Table InodeId (Option Inode) :=
  (batch.flatMap fun r => r.txn.inodeCacheUpdates).foldl (fun t u => t.put u.1 u.2) Table.empty

def mergeStats (batch : List Request) : ShardDeltas :=
  (batch.flatMap fun r => r.txn.statsDeltas).foldl addStats Table.empty

def committedByteUsage (inodes : Table InodeId Inode) (id : InodeId) : Nat := (inodes.get id).elim 0 Inode.size

/-- The bytes that an image holds; images that are not files are skipped. -/
def postBytes : Option Inode → Option Nat
  | some inode => if inode.isFile then some inode.size else none
  | none => some 0

/-- The delta of one image, if it is not skipped. -/
def imageDelta (inodes : Table InodeId Inode) (u : InodeId × Option Inode) : Option (InodeId × Int) :=
  (postBytes u.2).bind fun bytes =>
    let delta := sizeDelta (committedByteUsage inodes u.1) bytes
    if delta ≠ 0 then some (u.1, delta) else none

def deriveByteDeltas (inodes : Table InodeId Inode) (updates : Table InodeId (Option Inode)) : List (InodeId × Int) :=
  updates.entries.filterMap fun u => imageDelta inodes (u.1, u.2)

/-! ## The store -/

/-- A batch as it is written. -/
structure Write where
  requests : List Request
  updates : Table InodeId (Option Inode)
  counter : Option Nat
  shards : List (Nat × StatsShardData)

/-- There is something to write; a replicated batch also has its stamp. -/
def Write.anyOps (w : Write) (stamped : Bool) : Bool :=
  w.requests.any (fun r => !r.txn.isEmpty) || w.counter.isSome || !w.shards.isEmpty || stamped

/-- The committed rows. -/
structure Db where
  inodes : Table InodeId Inode
  counter : Option Nat
  shards : Shards

namespace Db

def write (db : Db) (w : Write) : Db where
  inodes := db.inodes.setAll (w.updates.entries.map fun e => (e.1, e.2))
  counter := w.counter.or db.counter
  shards := db.shards.putAll w.shards

/-- What a restart takes as the next id. -/
def nextInodeId (db : Db) : Nat := db.counter.getD 1

def replay (db : Db) (ws : List Write) : Db := ws.foldl write db

/-- A store with nothing but the root directory. -/
def format (root : DirectoryInode) : Db := ⟨Table.empty.put 0 (.directory root), none, Table.empty⟩

end Db

/-! ## The worker's loop -/

/-- How far the batch in hand has come. -/
inductive Phase
  | idle
  | merged (batch : List Request)
  | derived (batch : List Request) (deltas : ShardDeltas)
  | staged (write : Write) (counterStaged : Bool)
  | applied (write : Write) (counterStaged : Bool)
  | published (counterStaged : Bool)

/-- The commit worker, the database and what callers share. -/
structure Sys where
  base : Db
  applied : List Write
  durable : Nat
  db : Db
  stats : Shards
  nextId : Nat
  lastEmittedCounter : Nat
  /-- Ids that were allocated and not used yet. -/
  owned : List InodeId
  kinds : InodeId → Option Bool
  queue : List Request
  phase : Phase

/-- Where a batch fails after its watermark was noted. -/
inductive FailPoint
  | segCounters
  | deposed
  | taint
  | apply
  deriving DecidableEq

inductive Action
  | allocate
  | submit (r : Request)
  | drain (n : Nat)
  /-- A write request without its dedup entry, or one for another operation. -/
  | refuse
  | derive
  | deriveErr
  | stage
  | fail (point : FailPoint)
  | apply (stamped : Bool)
  | publish
  /-- Answer the callers. Under `sync_writes` the flush before it can fail. -/
  | reply (flushed : Bool)
  | persist (n : Nat)
  | crash (n : Nat)

namespace Sys

variable (s : Sys)

def boot (base : Db) (applied : List Write) : Sys where
  base := base
  applied := applied
  durable := applied.length
  db := base.replay applied
  stats := (base.replay applied).shards
  nextId := (base.replay applied).nextInodeId
  lastEmittedCounter := (base.replay applied).nextInodeId
  owned := []
  kinds := fun id => ((base.replay applied).inodes.get id).map Inode.isFile
  queue := []
  phase := .idle

/-- The id is the root's, the caller's own, or one that the caller has read. -/
def known (id : InodeId) : Bool :=
  id = 0 || s.owned.contains id || (s.kinds id).isSome || s.applied.any fun w => w.requests.any
    fun r => r.ids.contains id

/-- A new inode has an id of the caller's own; any other inode is one that was created, and keeps its kind. -/
def admits : Change → Bool
  | .create id _ => s.owned.contains id
  | .save id inode => s.kinds id = some inode.isFile
  | .delete id => id ≠ 0 && (s.kinds id).isSome

def noteKind (kinds : InodeId → Option Bool) : Change → InodeId → Option Bool
  | .create id inode => fun id' => if id' = id then some inode.isFile else kinds id'
  | _ => kinds

/-- The changes of a transaction one after the other. -/
def admitAll (s : Sys) : List Change → Option Sys
  | [] => some s
  | c :: cs =>
    if s.admits c then { s with owned := s.owned.erase c.id, kinds := noteKind s.kinds c }.admitAll cs else none

def submit (r : Request) : Option Sys :=
  if r.others.flatten.all s.known then (s.admitAll r.changes).map fun t => { t with queue := t.queue ++ [r] } else none

def drain (n : Nat) : Option Sys :=
  match s.phase with
  | .idle =>
    if n = 0 ∨ s.queue.length < n then none
      else some { s with queue := s.queue.drop n, phase := .merged (s.queue.take n) }
  | _ => none

def derive : Option Sys :=
  match s.phase with
  | .merged batch =>
    some { s with
      phase := .derived batch ((deriveByteDeltas s.db.inodes (mergeUpdates batch)).foldl addBytes (mergeStats batch)) }
  | _ => none

def stage : Option Sys :=
  match s.phase with
  | .derived batch deltas =>
    let counterStaged := decide (s.lastEmittedCounter < s.nextId)
    some { s with
      lastEmittedCounter := if counterStaged then s.nextId else s.lastEmittedCounter
      phase := .staged
        { requests := batch
          updates := mergeUpdates batch
          counter := if counterStaged then some s.nextId else none
          shards := deltas.entries.map fun e => (e.1, stageDelta s.stats e.1 e.2.1 e.2.2) }
        counterStaged }
  | _ => none

/-- Give up the batch. Every fail point burns an id when the watermark was noted. -/
def fail (_point : FailPoint) : Option Sys :=
  match s.phase with
  | .staged _ counterStaged =>
    some { s with nextId := if counterStaged then s.nextId + 1 else s.nextId, phase := .idle }
  | _ => none

def apply (stamped : Bool) : Option Sys :=
  match s.phase with
  | .staged w counterStaged =>
    if w.anyOps stamped
      then some { s with applied := s.applied ++ [w], db := s.db.write w, phase := .applied w counterStaged }
    else some { s with phase := .applied w counterStaged }
  | _ => none

def publish : Option Sys :=
  match s.phase with
  | .applied w counterStaged => some { s with stats := s.stats.putAll w.shards, phase := .published counterStaged }
  | _ => none

def reply (flushed : Bool) : Option Sys :=
  match s.phase with
  | .published counterStaged =>
    some { s with nextId := if counterStaged && !flushed then s.nextId + 1 else s.nextId, phase := .idle }
  | _ => none

/-- Give up before anything was staged. -/
def abandon : Option Sys :=
  match s.phase with
  | .merged _ => some { s with phase := .idle }
  | _ => none

def step (s : Sys) : Action → Option Sys
  | .allocate => some { s with nextId := s.nextId + 1, owned := s.nextId :: s.owned }
  | .submit r => s.submit r
  | .drain n => s.drain n
  | .refuse => s.abandon
  | .derive => s.derive
  | .deriveErr => s.abandon
  | .stage => s.stage
  | .fail point => s.fail point
  | .apply stamped => s.apply stamped
  | .publish => s.publish
  | .reply flushed => s.reply flushed
  | .persist n => if s.durable ≤ n ∧ n ≤ s.applied.length then some { s with durable := n } else none
  | .crash n => if s.durable ≤ n ∧ n ≤ s.applied.length then some (boot s.base (s.applied.take n)) else none

end Sys

end ZeroFS.Commit
