import ZeroFS.Lib.Table
import ZeroFS.Inode

/-!
# The metadata store

Inode records, entries keyed by name, scan rows keyed by cookie, cookie counters and the orphan set. A transaction is a
list of row writes that `NsDb.commit` applies in order.
-/

namespace ZeroFS

/-- The value of a scan row: the inode's id, with a copy of its record or without. -/
inductive DirScanValue
  | withInode (id : InodeId) (inode : Inode)
  | reference (id : InodeId)
  deriving DecidableEq, Repr

def DirScanValue.inodeId : DirScanValue → InodeId
  | withInode id _ => id
  | reference id => id

@[simp, grind =] theorem DirScanValue.inodeId_withInode (i : InodeId) (ino : Inode) : (withInode i ino).inodeId = i :=
  rfl
@[simp, grind =] theorem DirScanValue.inodeId_reference (i : InodeId) : (reference i).inodeId = i := rfl

/-- The value `add` writes: with the record if one is given. -/
def DirScanValue.of (id : InodeId) : Option Inode → DirScanValue
  | some inode => .withInode id inode
  | none => .reference id

@[simp, grind =] theorem DirScanValue.inodeId_of (i : InodeId) (o : Option Inode) :
    (DirScanValue.of i o).inodeId = i := by
  cases o <;> rfl


/-- Cookies 1 and 2 stand for `.` and `..`. -/
def cookieFirstEntry : Nat := 3

/-- The tables of the metadata store. -/
structure NsDb where
  inodes : Table InodeId Inode
  entries : Table (InodeId × Name) (InodeId × Nat)
  scans : Table (InodeId × Nat) (Name × DirScanValue)
  counters : Table InodeId Nat
  orphans : Table InodeId Unit
  deriving DecidableEq

/-- One write of a transaction. -/
inductive NsWrite
  | saveInode (id : InodeId) (inode : Inode)
  | deleteInode (id : InodeId)
  | putEntry (dir : InodeId) (name : Name) (id : InodeId) (cookie : Nat)
  | deleteEntry (dir : InodeId) (name : Name)
  | putScan (dir : InodeId) (cookie : Nat) (name : Name) (value : DirScanValue)
  | deleteScan (dir : InodeId) (cookie : Nat)
  | putCounter (dir : InodeId) (next : Nat)
  | deleteCounter (dir : InodeId)
  | addOrphan (id : InodeId)
  | removeOrphan (id : InodeId)
  deriving DecidableEq, Repr

namespace NsDb

def apply (db : NsDb) : NsWrite → NsDb
  | .saveInode id inode => { db with inodes := db.inodes.put id inode }
  | .deleteInode id => { db with inodes := db.inodes.del id }
  | .putEntry dir name id cookie => { db with entries := db.entries.put (dir, name) (id, cookie) }
  | .deleteEntry dir name => { db with entries := db.entries.del (dir, name) }
  | .putScan dir cookie name value => { db with scans := db.scans.put (dir, cookie) (name, value) }
  | .deleteScan dir cookie => { db with scans := db.scans.del (dir, cookie) }
  | .putCounter dir next => { db with counters := db.counters.put dir next }
  | .deleteCounter dir => { db with counters := db.counters.del dir }
  | .addOrphan id => { db with orphans := db.orphans.put id () }
  | .removeOrphan id => { db with orphans := db.orphans.del id }

/-- Committing a transaction. -/
def commit (db : NsDb) (txn : List NsWrite) : NsDb := txn.foldl apply db

@[simp] theorem commit_nil (db : NsDb) : db.commit [] = db := rfl

@[simp] theorem commit_cons (db : NsDb) (w : NsWrite) (ws : List NsWrite) :
    db.commit (w :: ws) = (db.apply w).commit ws := rfl

theorem commit_append (db : NsDb) (ws vs : List NsWrite) : db.commit (ws ++ vs) = (db.commit ws).commit vs :=
  List.foldl_append

/-! ## Reads and staged writes of the directory store -/

def getInode (db : NsDb) (id : InodeId) : Except FsError Inode :=
  match db.inodes.get id with
  | some inode => pure inode
  | none => throw .notFound

def getEntryWithCookie (db : NsDb) (dir : InodeId) (name : Name) : Except FsError (InodeId × Nat) :=
  match db.entries.get (dir, name) with
  | some e => pure e
  | none => throw .notFound

def entryExists (db : NsDb) (dir : InodeId) (name : Name) : Bool := (db.entries.get (dir, name)).isSome

def readCookie (db : NsDb) (dir : InodeId) : Nat := (db.counters.get dir).getD cookieFirstEntry

/-- The entry row and the scan row of a new entry. -/
def add (dir : InodeId) (name : Name) (id : InodeId) (cookie : Nat) (inode : Option Inode) : List NsWrite :=
  [.putEntry dir name id cookie, .putScan dir cookie name (.of id inode)]

def unlinkEntry (dir : InodeId) (name : Name) (cookie : Nat) : List NsWrite :=
  [.deleteEntry dir name, .deleteScan dir cookie]

/-- Rewrite the scan row of `dir/name` with a fresh copy of the record. -/
def updateInodeInEntry (db : NsDb) (dir : InodeId) (name : Name) (id : InodeId) (inode : Inode) :
    Except FsError (List NsWrite) := do
  let (_, cookie) ← db.getEntryWithCookie dir name
  pure [.putScan dir cookie name (.withInode id inode)]

def convertToReference (db : NsDb) (dir : InodeId) (name : Name) (id : InodeId) : Except FsError (List NsWrite) := do
  let (_, cookie) ← db.getEntryWithCookie dir name
  pure [.putScan dir cookie name (.reference id)]

/-- `update_inode_in_entry(...).ok()` for a directory that carries a name: a missing entry is skipped. -/
def refreshOwnEntry (db : NsDb) (id : InodeId) (d : DirectoryInode) : List NsWrite :=
  match d.name with
  | some name => ((db.updateInodeInEntry d.parent name id (.directory d)).toOption).getD []
  | none => []

end NsDb

end ZeroFS
