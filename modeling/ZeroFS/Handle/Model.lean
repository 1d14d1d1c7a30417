import ZeroFS.Dedup.Protect
import ZeroFS.Lib.Machine
import ZeroFS.Namespace.Threads

/-!
# Open handles and open-unlink reclaim

An inode that loses its last link while it is open, or while its `create` can be replayed, is kept as an orphan that the
drainer deletes later (`fs/handle.rs`). Calls are threads that take their inode locks in turn, decide under them, and
release them after the commit worker has answered. Closing a handle, the expiry of a replay result and the drainer's
queue take no lock. A thread other than a reclaim may be refused at any time before its commit.
-/

namespace ZeroFS.Handle

open Dedup (OpId DedupResult)

/-- `Tlopen` and its variants, or the pin of a walked directory. -/
inductive Opening
  | lopen (replayReopen : Bool)
  | walk

inductive Call
  | create (dirid : InodeId) (name : Name) (attr : SetAttributes) (op : OpId)
  | link (fileid dirid : InodeId) (name : Name)
  | remove (dirid : InodeId) (name : Name) (expectedDirectory : Option Bool)
  | rename (fromDir : InodeId) (fromName : Name) (toDir : InodeId) (toName : Name) (replaceExisting : Bool)
  | openFid (fid : Nat) (id : InodeId) (how : Opening)
  | reclaimIfUnreferenced (id : InodeId)

/-- What the commit worker does once the transaction is applied. -/
inductive CommitSettlement
  | none
  | record (op : OpId) (id : InodeId) (inode : Inode)
  | shrink (bytes : Nat)
  | deferredReclaim (id : InodeId)

/-- How far a call has come. -/
inductive Phase
  | start
  | foundSource (sourceId : InodeId) (cookie : Nat)
  | locking (todo : List InodeId) (found : Located)
  /-- The entries are verified, and whether to defer is decided. -/
  | planned (found : Located) (defer : Bool)
  /-- A reclaim that has found no open handle. -/
  | unopened
  /-- A reclaim that has found no replay protection either. -/
  | unprotected
  | applied (settlement : CommitSettlement)
  | done

structure Thread where
  call : Call
  now : Nat → Timestamp
  creds : Credentials
  phase : Phase := .start
  held : List InodeId := []

/-- The tables, open handles, ledger and calls. -/
structure Sys where
  db : NsDb
  nextId : Nat
  /-- Bytes that the quota accounts to files, and the number of inodes in the statistics. -/
  quota : Int
  inodeCount : Int
  fids : Table Nat InodeId := Table.empty
  openHandles : Table InodeId Nat := Table.empty
  reclaimQueue : List InodeId
  dedup : Dedup.Sys Inode
  threads : Table Nat Thread := Table.empty

inductive Action
  | spawn (tid : Nat) (call : Call) (now : Nat → Timestamp) (creds : Credentials)
  | drain (tid : Nat) (now : Nat → Timestamp) (creds : Credentials)
  | run (tid : Nat)
  | refuse (tid : Nat)
  | clunk (fid : Nat)
  /-- Anything the dedup ledger does but publishing the result of a `create`. -/
  | ledger (a : Dedup.Action Inode)
  | write (id : InodeId) (offset len : Nat) (checkPermissions : Bool) (now : Nat → Timestamp) (creds : Credentials)
  | setattr (id : InodeId) (attr : SetAttributes) (opened : Bool) (now : Nat → Timestamp) (creds : Credentials)

/-- `dec_open_handle`: the count after the decrement. -/
def decOpenHandle (m : Table InodeId Nat) (id : InodeId) : Nat × Table InodeId Nat :=
  match m.get id with
  | some n => if n - 1 = 0 then (0, m.del id) else (n - 1, m.put id (n - 1))
  | none => (0, m)

def bytes (db : NsDb) : Nat := db.inodes.sum fun _ inode => inode.size

def inodes (db : NsDb) : Nat := db.inodes.count fun id _ => id ≠ 0

/-- An unlinked inode is settled at its reclaim; the size of a deleted file is given back. -/
def unlinkSettlement (id : InodeId) (inode : Inode) (defer : Bool) : CommitSettlement :=
  if (inode.isDirectory || inode.nlink ≤ 1) && defer then .deferredReclaim id
  else if inode.isFile && inode.nlink ≤ 1 then .shrink inode.size
  else .none

/-- The inode count delta of an unlink. -/
def unlinkDelta (inode : Inode) (defer : Bool) : Int :=
  if (inode.isDirectory || inode.nlink ≤ 1) && !defer then -1 else 0

/-- An orphan, but for a directory that still has entries. -/
def reclaimable : Inode → Bool
  | .leaf l => l.nlink = 0
  | .directory d => d.nlink = 0 && d.entryCount = 0

namespace Sys

variable (s : Sys)

def openHandleCount (id : InodeId) : Nat := (s.openHandles.get id).getD 0

def shouldDeferUnlinkedInode (id : InodeId) : Bool := 0 < s.openHandleCount id || s.dedup.ledger.protectsReplayInode id

/-- Another thread than `tid` has locked the inode. -/
def busy (tid : Nat) (id : InodeId) : Bool := s.threads.entries.any fun e => e.1 ≠ tid && e.2.held.contains id

def unlocked (id : InodeId) : Bool := s.threads.entries.all fun e => !e.2.held.contains id

def setThread (tid : Nat) (t : Thread) : Sys := { s with threads := s.threads.put tid t }

def goto (tid : Nat) (t : Thread) (phase : Phase) : Sys := s.setThread tid { t with phase := phase }

def finish (tid : Nat) (t : Thread) : Sys := s.setThread tid { t with phase := .done, held := [] }

/-- The ledger has moved; the orphans that it hands out go to the drainer. -/
def withDedup (d : Dedup.Sys Inode) : Sys :=
  { s with
    dedup := { d with ledger := { d.ledger with reclaims := [] } }
    reclaimQueue := s.reclaimQueue ++ d.ledger.reclaims }

/-- What a call looks up before it locks. -/
def begin (tid : Nat) (t : Thread) : Sys :=
  match t.call with
  | .create dirid _ _ _ => s.goto tid t (.locking [dirid] .nothing)
  | .link fileid dirid _ => s.goto tid t (.locking (lockOrder [fileid, dirid]) .nothing)
  | .remove dirid name _ =>
    match s.db.entries.get (dirid, name) with
    | some (id, cookie) => s.goto tid t (.locking (lockOrder [dirid, id]) (.entry id cookie))
    | none => s.finish tid t
  | .rename fromDir fromName toDir toName _ =>
    match s.db.entries.get (fromDir, fromName) with
    | some (id, cookie) =>
      if toDir = id ∨ (fromDir = toDir ∧ fromName = toName) then s.finish tid t
        else s.goto tid t (.foundSource id cookie)
    | none => s.finish tid t
  | .openFid _ id _ => s.goto tid t (.locking [id] .nothing)
  | .reclaimIfUnreferenced id => s.goto tid t (.locking [id] .nothing)

def newOpenHandle (fid : Nat) (id : InodeId) : Sys :=
  { s with fids := s.fids.put fid id, openHandles := s.openHandles.put id (s.openHandleCount id + 1) }

/-- Liveness check and pin, under the inode's lock. -/
def openLocked (tid : Nat) (t : Thread) (fid : Nat) (id : InodeId) (how : Opening) : Sys :=
  if (s.fids.get fid).isSome then s.finish tid t
  else
    match s.db.inodes.get id with
    | none => s.finish tid t
    | some inode =>
      match how with
      | .lopen replayReopen =>
        if replayReopen && inode.nlink = 0 then s.finish tid t else (s.newOpenHandle fid id).finish tid t
      | .walk =>
        if id = 0 || !inode.isDirectory || (inode.nlink = 0 && s.openHandleCount id = 0) then s.finish tid t
        else (s.newOpenHandle fid id).finish tid t

def createLocked (tid : Nat) (t : Thread) (dirid : InodeId) (name : Name) (attr : SetAttributes) (op : OpId) : Sys :=
  let s' := { s with nextId := s.nextId + 1 }
  match s.db.create t.now t.creds s.nextId dirid name attr with
  | .error _ => s'.finish tid t
  | .ok ws =>
    let db := s.db.commit ws
    match db.inodes.get s.nextId with
    | none => s'.finish tid t
    | some inode =>
      { s' with db := db, inodeCount := s.inodeCount + 1 }.goto tid t (.applied (.record op s.nextId inode))

def linkLocked (tid : Nat) (t : Thread) (fileid dirid : InodeId) (name : Name) : Sys :=
  match s.db.link t.now t.creds fileid dirid name with
  | .error _ => s.finish tid t
  | .ok ws => { s with db := s.db.commit ws }.goto tid t (.applied .none)

/-- The transaction `ws` is applied, which drops a link of `id`. -/
def unlinked (tid : Nat) (t : Thread) (ws : List NsWrite) (id : InodeId) (inode : Inode) (defer : Bool) : Sys :=
  { s with db := s.db.commit ws, inodeCount := s.inodeCount + unlinkDelta inode defer }.goto tid t
    (.applied (unlinkSettlement id inode defer))

def removeLocked (tid : Nat) (t : Thread) (dirid : InodeId) (name : Name) (expectedDirectory : Option Bool)
    (id : InodeId) (defer : Bool) : Sys :=
  match s.db.remove t.now t.creds dirid name expectedDirectory defer, s.db.inodes.get id with
  | .ok ws, some inode => s.unlinked tid t ws id inode defer
  | _, _ => s.finish tid t

/-- The rename; a target that is its source is another link of it and stays. -/
def renameLocked (tid : Nat) (t : Thread) (fromDir : InodeId) (fromName : Name) (toDir : InodeId) (toName : Name)
    (id : InodeId) (cookie : Nat) (defer : Bool) : Sys :=
  match s.db.inodes.get id with
  | none => s.finish tid t
  | some source =>
    let target := s.db.entries.get (toDir, toName)
    match s.db.renameChecked t.now t.creds fromDir fromName toDir toName id cookie source target defer with
    | .error _ => s.finish tid t
    | .ok ws =>
      match target with
      | none => { s with db := s.db.commit ws }.goto tid t (.applied .none)
      | some (x, _) =>
        if x = id then { s with db := s.db.commit ws }.goto tid t (.applied .none)
        else
          match s.db.inodes.get x with
          | none => s.finish tid t
          | some inode => s.unlinked tid t ws x inode defer

/-- `reclaim_orphan_inode`. -/
def reclaimLocked (tid : Nat) (t : Thread) (id : InodeId) : Sys :=
  let s' := { s with db := s.db.commit (s.db.reclaimOrphanInode id) }
  match s.db.inodes.get id with
  | some inode =>
    if reclaimable inode then
      { s' with inodeCount := s.inodeCount - 1 }.goto tid t
        (.applied (if inode.isFile then .shrink inode.size else .none))
    else s'.goto tid t (.applied .none)
  | none => s'.goto tid t (.applied .none)

/-- What a call does once it has its locks. -/
def locked (tid : Nat) (t : Thread) (found : Located) : Option Sys :=
  match t.call, found with
  | .create dirid name attr op, _ => some (s.createLocked tid t dirid name attr op)
  | .link fileid dirid name, _ => some (s.linkLocked tid t fileid dirid name)
  | .remove dirid name _, .entry id cookie =>
    if s.db.entries.get (dirid, name) = some (id, cookie) then
      some (s.goto tid t (.planned (.entry id cookie) (s.shouldDeferUnlinkedInode id)))
    else some (s.finish tid t)
  | .rename fromDir fromName toDir toName replaceExisting, .move id cookie targetId =>
    let target := s.db.entries.get (toDir, toName)
    if s.db.entries.get (fromDir, fromName) = some (id, cookie) ∧ target.map (·.1) = targetId ∧
        ¬(replaceExisting = false ∧ target.isSome) then
      some (s.goto tid t (.planned (.move id cookie targetId) (targetId.any s.shouldDeferUnlinkedInode)))
    else some (s.finish tid t)
  | .openFid fid id how, _ => some (s.openLocked tid t fid id how)
  | .reclaimIfUnreferenced id, _ =>
    if 0 < s.openHandleCount id then some (s.finish tid t) else some (s.goto tid t .unopened)
  | _, _ => none

/-- The commit worker settles an applied transaction and answers. `retention` is how long results are kept. -/
def settle (retention : Nat) (tid : Nat) (t : Thread) : CommitSettlement → Sys
  | .none => s.finish tid t
  | .record op id inode => (s.withDedup (s.dedup.record retention op (.create id inode) none false)).finish tid t
  | .shrink bytes => { s with quota := s.quota - bytes }.finish tid t
  | .deferredReclaim id => { s with reclaimQueue := s.reclaimQueue ++ [id] }.finish tid t

/-- The next step of a thread; one that waits for a lock has none. -/
def runThread (retention : Nat) (tid : Nat) (t : Thread) : Option Sys :=
  match t.phase with
  | .start => some (s.begin tid t)
  | .foundSource id cookie =>
    match t.call with
    | .rename fromDir _ toDir toName _ =>
      let targetId := (s.db.entries.get (toDir, toName)).map (·.1)
      some (s.goto tid t (.locking (lockOrder ([fromDir, id, toDir] ++ targetId.toList)) (.move id cookie targetId)))
    | _ => none
  | .locking (id :: todo) found =>
    if s.busy tid id then none else some (s.setThread tid { t with phase := .locking todo found, held := id :: t.held })
  | .locking [] found => s.locked tid t found
  | .planned (.entry id _) defer =>
    match t.call with
    | .remove dirid name expectedDirectory => some (s.removeLocked tid t dirid name expectedDirectory id defer)
    | _ => none
  | .planned (.move id cookie _) defer =>
    match t.call with
    | .rename fromDir fromName toDir toName _ =>
      some (s.renameLocked tid t fromDir fromName toDir toName id cookie defer)
    | _ => none
  | .planned .nothing _ => none
  | .unopened =>
    match t.call with
    | .reclaimIfUnreferenced id =>
      match s.dedup.ledger.reclaimWhenUnprotected id with
      | (true, l) => some ({ s with dedup := { s.dedup with ledger := l } }.finish tid t)
      | (false, _) => some (s.goto tid t .unprotected)
    | _ => none
  | .unprotected =>
    match t.call with
    | .reclaimIfUnreferenced id => some (s.reclaimLocked tid t id)
    | _ => none
  | .applied settlement => some (s.settle retention tid t settlement)
  | .done => none

/-- A new thread; a number is free again when its call has returned. -/
def spawn (tid : Nat) (t : Thread) : Option Sys :=
  match s.threads.get tid with
  | none => some (s.setThread tid t)
  | some old =>
    match old.phase with
    | .done => some (s.setThread tid t)
    | _ => none

def clunk (fid : Nat) : Option Sys :=
  (s.fids.get fid).map fun id =>
    let (count, handles) := decOpenHandle s.openHandles id
    { s with
      fids := s.fids.del fid
      openHandles := handles
      reclaimQueue := if count = 0 then s.reclaimQueue ++ [id] else s.reclaimQueue }

/-- A size change with its part of the quota. -/
def update (id : InodeId) (txn : Except FsError (List NsWrite)) : Option Sys :=
  if s.unlocked id then
    match txn with
    | .error _ => some s
    | .ok ws =>
      let db := s.db.commit ws
      some { s with
        db := db, quota := s.quota +
        (db.inodes.get id).elim 0 Inode.size - ((s.db.inodes.get id).elim 0 Inode.size : Nat) }
  else none

def step (retention : Nat) : Action → Option Sys
  | .spawn tid call now creds =>
    match call with
    | .reclaimIfUnreferenced _ => none
    | _ => s.spawn tid { call := call, now := now, creds := creds }
  | .drain tid now creds =>
    match s.reclaimQueue with
    | [] => none
    | id :: rest =>
      { s with reclaimQueue := rest }.spawn tid { call := .reclaimIfUnreferenced id, now := now, creds := creds }
  | .run tid => (s.threads.get tid).bind fun t => s.runThread retention tid t
  | .refuse tid =>
    (s.threads.get tid).bind fun t =>
      match t.call, t.phase with
      | .reclaimIfUnreferenced _, _ => none
      | _, .applied _ => none
      | _, _ => some (s.finish tid t)
  | .clunk fid => s.clunk fid
  | .ledger a => if a.replayInode = none then (s.dedup.step retention a).map s.withDedup else none
  | .write id offset len checkPermissions now creds => s.update id (s.db.write now creds id offset len checkPermissions)
  | .setattr id attr opened now creds => s.update id (s.db.setattr now creds id attr opened)

/-- No rename comes to its transaction with a file as its destination directory; `rename` itself has no such check. -/
def intoDirectory : Action → Bool
  | .run tid =>
    match s.threads.get tid with
    | some ⟨.rename _ _ toDir _ _, _, _, .planned .., _⟩ => (s.db.inodes.get toDir).all Inode.isDirectory
    | _ => true
  | _ => true

abbrev IntoDirectory (a : Action) : Prop := s.intoDirectory a = true

/-- The start of a process on the tables `db`: the drain of all orphans is to be done, the statistics are right, and the
results in `dedup` are those that could be restored. -/
def boot (db : NsDb) (nextId : Nat) (dedup : Dedup.Sys Inode) : Sys where
  db := db
  nextId := nextId
  quota := bytes db
  inodeCount := inodes db
  reclaimQueue := db.orphans.keys
  dedup := dedup

end Sys

end ZeroFS.Handle
