import ZeroFS.Namespace.Run
import ZeroFS.Namespace.Tree

/-!
# Concurrent namespace calls

Each call is a thread: it looks names up without locks, acquires its inode locks in the order of their ids, verifies
what it had looked up, and commits one transaction. `rename` walks up from its destination, one unlocked read at a time.
Reads that a locked inode protects are made together with the commit.
-/

namespace ZeroFS

inductive DirCall
  | create (dirid : InodeId) (name : Name) (attr : SetAttributes)
  | mkdir (dirid : InodeId) (name : Name) (attr : SetAttributes)
  | remove (dirid : InodeId) (name : Name) (expectedDirectory : Option Bool) (defer : Bool)
  | rename (fromDir : InodeId) (fromName : Name) (toDir : InodeId) (toName : Name) (replaceExisting defer : Bool)
  deriving DecidableEq

/-- What a rename has verified under its locks, with the record of its source. -/
structure Verified where
  fromDir : InodeId
  fromName : Name
  toDir : InodeId
  toName : Name
  defer : Bool
  sourceId : InodeId
  cookie : Nat
  source : Inode
  target : Option (InodeId × Nat)
  deriving DecidableEq

/-- What a thread found before it took its locks. -/
inductive Located
  | nothing
  | entry (id : InodeId) (cookie : Nat)
  | move (sourceId : InodeId) (cookie : Nat) (targetId : Option InodeId)
  deriving DecidableEq

/-- How far a call has come. -/
inductive Phase
  | start
  /-- A rename that has looked its source up. -/
  | foundSource (sourceId : InodeId) (cookie : Nat)
  /-- The locks still to take. -/
  | locking (todo : List InodeId) (found : Located)
  /-- The ancestor walk of a rename has come to `current`. -/
  | walking (r : Verified) (current : InodeId)
  | ready (r : Verified)
  | done
  deriving DecidableEq

/-- A call and the locks that it holds. -/
structure Thread where
  call : DirCall
  now : Nat → Timestamp
  creds : Credentials
  phase : Phase
  held : List InodeId

namespace Thread

variable (db : NsDb) (nextId : InodeId) (t : Thread)

/-- The call returns, granted or refused, and its locks are released. -/
def finish : Thread := { t with phase := .done, held := [] }

def goto (phase : Phase) : Thread := { t with phase := phase }

/-- The checks and the lookup that `remove` makes before it locks. -/
def lookupRemove (dirid : InodeId) (name : Name) : Except FsError (InodeId × Nat) := do
  validateFilename name
  let dirInode ← db.getInode dirid
  throwIf (dirInode.isDirectory = false) .notDirectory
  checkAccess dirInode t.creds .execute
  throwIf (dirInode.nlink = 0) .staleHandle
  db.getEntryWithCookie dirid name

/-- The lookup of the source of a rename. `none`: source and destination are one name. -/
def lookupSource (fromDir : InodeId) (fromName : Name) (toDir : InodeId) (toName : Name) :
    Except FsError (Option (InodeId × Nat)) := do
  NsDb.checkRenameNames fromName toName
  if fromDir = toDir ∧ fromName = toName then pure none
  else do
    let (id, cookie) ← db.getEntryWithCookie fromDir fromName
    throwIf (toDir = id) .invalidArgument
    pure (some (id, cookie))

/-- A rename checks, under its locks, that both entries still name the inodes it had found. -/
def verify (fromDir : InodeId) (fromName : Name) (toDir : InodeId) (toName : Name) (replaceExisting defer : Bool)
    (sourceId : InodeId) (cookie : Nat) (targetId : Option InodeId) : Except FsError Verified := do
  let entry ← db.getEntryWithCookie fromDir fromName
  throwIf (entry ≠ (sourceId, cookie)) .staleHandle
  let target := db.entries.get (toDir, toName)
  throwIf (replaceExisting = false ∧ target.isSome) .exists
  throwIf (target.map (·.1) ≠ targetId) .staleHandle
  let source ← db.getInode sourceId
  pure ⟨fromDir, fromName, toDir, toName, defer, sourceId, cookie, source, target⟩

/-- A thread commits a transaction and returns, or is refused. -/
def commit (txn : Except FsError (List NsWrite)) : Thread × List NsWrite := (t.finish, txn.toOption.getD [])

/-- The next step of a thread and the writes it commits; `busy` are the inodes that another thread has locked. A thread
that waits for a lock has no step. -/
def step (busy : InodeId → Bool) : Option (Thread × List NsWrite) :=
  match t.phase, t.call with
  | .start, .create dirid _ _ => some (t.goto (.locking [dirid] .nothing), [])
  | .start, .mkdir dirid _ _ => some (t.goto (.locking [dirid] .nothing), [])
  | .start, .remove dirid name _ _ =>
    match t.lookupRemove db dirid name with
    | .ok (id, cookie) => some (t.goto (.locking (lockOrder [dirid, id]) (.entry id cookie)), [])
    | .error _ => some (t.finish, [])
  | .start, .rename fromDir fromName toDir toName _ _ =>
    match lookupSource db fromDir fromName toDir toName with
    | .ok (some (id, cookie)) => some (t.goto (.foundSource id cookie), [])
    | _ => some (t.finish, [])
  | .foundSource id cookie, .rename fromDir _ toDir toName _ _ =>
    let targetId := (db.entries.get (toDir, toName)).map (·.1)
    some (t.goto (.locking (lockOrder ([fromDir, id, toDir] ++ targetId.toList)) (.move id cookie targetId)), [])
  | .locking (id :: todo) found, _ =>
    if busy id then none else some ({ t with phase := .locking todo found, held := id :: t.held }, [])
  | .locking [] _, .create dirid name attr => some (t.commit (db.create t.now t.creds nextId dirid name attr))
  | .locking [] _, .mkdir dirid name attr => some (t.commit (db.mkdir t.now t.creds nextId dirid name attr))
  | .locking [] (.entry id cookie), .remove dirid name expected defer =>
    if db.entries.get (dirid, name) = some (id, cookie) then
      some (t.commit (db.remove t.now t.creds dirid name expected defer))
    else some (t.finish, [])
  | .locking [] (.move id cookie targetId), .rename fromDir fromName toDir toName replaceExisting defer =>
    match verify db fromDir fromName toDir toName replaceExisting defer id cookie targetId with
    | .ok r => some (t.goto (if r.source.isDirectory then .walking r toDir else .ready r), [])
    | .error _ => some (t.finish, [])
  | .walking r current, _ =>
    if current = 0 then some (t.goto (.ready r), [])
    else
      match db.inodes.get current with
      | none => some (t.finish, [])
      | some inode =>
        match inode.parent with
        | none => some (t.goto (.ready r), [])
        | some parent =>
          if parent = r.sourceId then some (t.finish, []) else some (t.goto (.walking r parent), [])
  | .ready r, _ =>
    some (t.commit (db.renameChecked t.now t.creds r.fromDir r.fromName r.toDir r.toName r.sourceId r.cookie r.source
      r.target r.defer))
  | _, _ => none

/-- A `create` or a `mkdir` that has its lock takes an inode id with its next step, even if it is then refused. -/
def allocates : Bool :=
  match t.phase, t.call with
  | .locking [] _, .create .. => true
  | .locking [] _, .mkdir .. => true
  | _, _ => false

/-- The source and the destination of a rename that has its locks and verifies next. -/
def verifies : Option (InodeId × InodeId) :=
  match t.phase, t.call with
  | .locking [] (.move id _ _), .rename _ _ toDir _ _ _ => some (id, toDir)
  | _, _ => none

/-- A rename of a directory between its verification and its commit. -/
def movesDirectory : Bool :=
  match t.phase with
  | .walking r _ => r.source.isDirectory
  | .ready r => r.source.isDirectory
  | _ => false

end Thread

/-- The committed tables and the threads, by number. -/
structure Pool where
  db : NsDb
  nextId : Nat
  threads : Table Nat Thread

inductive PoolAction
  | spawn (tid : Nat) (call : DirCall) (now : Nat → Timestamp) (creds : Credentials)
  | run (tid : Nat)

namespace Pool

def busy (s : Pool) (tid : Nat) (id : InodeId) : Bool :=
  s.threads.entries.any fun e => e.1 ≠ tid && e.2.held.contains id

def step (s : Pool) : PoolAction → Option Pool
  | .spawn tid call now creds =>
    if (s.threads.get tid).isSome then none
    else some { s with threads := s.threads.put tid ⟨call, now, creds, .start, []⟩ }
  | .run tid => do
    let t ← s.threads.get tid
    let (t', ws) ← t.step s.db s.nextId (s.busy tid)
    pure ⟨s.db.commit ws, if t.allocates then s.nextId + 1 else s.nextId, s.threads.put tid t'⟩

def boot (t : Timestamp) (uid gid : Nat) : Pool :=
  ⟨(NsState.boot t uid gid).db, (NsState.boot t uid gid).nextId, Table.empty⟩

/-- The condition on the steps of a run: when a rename verifies, its destination is a directory, and if it moves a
directory, then no other rename that does stands between its verification and its commit. -/
def orderly (s : Pool) : PoolAction → Bool
  | .spawn .. => true
  | .run tid =>
    match (s.threads.get tid).bind Thread.verifies with
    | none => true
    | some (id, toDir) =>
      decide (IsDirId s.db.inodes toDir) &&
        (!decide (IsDirId s.db.inodes id) || s.threads.entries.all fun e => e.1 = tid || !e.2.movesDirectory)

abbrev Orderly (s : Pool) (a : PoolAction) : Prop := s.orderly a = true

end Pool
end ZeroFS
