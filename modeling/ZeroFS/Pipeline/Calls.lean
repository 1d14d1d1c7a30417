import ZeroFS.Extent.Edits
import ZeroFS.Namespace.Ops
import ZeroFS.Quota

/-!
# Calls that change file data

A call has one task for each inode it works on. A task reads the visible inode and plans the record it saves or deletes,
the extents it edits, the growth it reserves and the bytes it releases; the staged `Txn` collects the plans. `unlink` is
the part of `remove` and `rename` that drops a link of the target, `relocate` the one that saves the moved inode,
`deleteExtents` the tombstone collector's and `repoint` the second half of a compaction.
-/

namespace ZeroFS

/-! ## Frames -/

structure Segid where
  epoch : Nat
  counter : Nat
  deriving DecidableEq, Repr

/-- Where a frame is stored; `byteLen` covers the length prefix and the sealed bytes. -/
structure FrameLoc where
  segid : Segid
  frameIndex : Nat
  byteOffset : Nat
  byteLen : Nat
  deriving DecidableEq, Repr

/-- The value of an extent key, with the bytes that its location decodes to. -/
structure Frame where
  loc : FrameLoc
  data : Extent

/-! ## Transactions -/

/-- The row of an inode that a transaction saves, or deletes (`none`), and the record that the call had read. -/
structure InodeUpdate where
  id : InodeId
  base : Inode
  value : Option Inode
  deriving DecidableEq, Repr

/-- A put (`some`) or delete (`none`) of an extent key, with the frame it takes off its segment's live bytes. -/
structure Edit where
  key : InodeId × Nat
  frame : Option Frame
  debit : Option FrameLoc

/-- What a committed write does to the tail cache. -/
inductive TailUpdate
  | set (idx : Nat) (data : Extent)
  | clear

/-- A staged transaction. `staged` has one list for each pass of `stage_edits` or `delete_range`. -/
structure Txn where
  inodes : List InodeUpdate := []
  staged : List (List Edit) := []
  tails : List (InodeId × TailUpdate) := []

namespace Edit

/-- Credit of a new frame: live and total bytes. -/
def credit (e : Edit) : List (Segid × Int × Int) :=
  e.frame.toList.map fun f => (f.loc.segid, f.loc.byteLen, f.loc.byteLen)

/-- Debit of the superseded frame: live bytes only. -/
def debits (e : Edit) : List (Segid × Int × Int) := e.debit.toList.map fun loc => (loc.segid, -loc.byteLen, 0)

end Edit

namespace Txn

def edits (t : Txn) : List Edit := t.staged.flatten

/-- The counter deltas in the order they are staged. -/
def segDeltas (t : Txn) : List (Segid × Int × Int) :=
  t.staged.flatMap fun pass => pass.flatMap Edit.credit ++ pass.flatMap Edit.debits

def isEmpty (t : Txn) : Bool := t.inodes.isEmpty && t.edits.isEmpty

end Txn

/-! ## Extent operations of the store -/

inductive ExtentOp
  | write (id : InodeId) (offset : Nat) (data : List UInt8) (oldSize : Nat)
  | truncate (id : InodeId) (oldSize newSize : Nat)
  | zeroRange (id : InodeId) (offset length fileSize : Nat)
  | deleteRange (id : InodeId) (start stop : Nat)
  | repoint (id : InodeId) (items : List (Nat × FrameLoc × FrameLoc))
  deriving DecidableEq, Repr

def ExtentOp.id : ExtentOp → InodeId
  | write id .. | truncate id .. | zeroRange id .. | deleteRange id .. | repoint id .. => id

/-! ## Tasks and their plans -/

inductive Task
  | write (id : InodeId) (offset : Nat) (data : List UInt8)
  | setattr (id : InodeId) (attr : SetAttributes) (opened : Bool)
  | fallocate (id : InodeId) (offset length : Nat) (mode : FallocateMode)
  | trim (id : InodeId) (offset length : Nat)
  | unlink (id : InodeId) (defer : Bool)
  | relocate (id fromDir toDir : InodeId) (toName : Name)
  | reclaim (id : InodeId)
  | deleteExtents (id : InodeId) (start stop : Nat)
  | repoint (id : InodeId) (items : List (Nat × FrameLoc × FrameLoc))
  deriving DecidableEq, Repr

/-- What a task does, once it has read its inode. `update` is `none` when the inode's row is not written. -/
structure Plan where
  update : Option (Option Inode) := none
  ops : List ExtentOp := []
  growth : Nat := 0
  shrink : Nat := 0

namespace Task

def id : Task → InodeId
  | write id .. | setattr id .. | fallocate id .. | trim id .. | unlink id .. | relocate id .. | reclaim id
  | deleteExtents id .. | repoint id .. => id

def isWrite : Task → Bool
  | write .. => true
  | _ => false

/-- The extents that a write claims in the in-flight table. -/
def span : Task → Option (Nat × Nat)
  | write _ offset data => extentSpan offset data.length
  | _ => none

variable (now : Nat → Timestamp) (creds : Credentials)

/-- `prepare_write` for one member. -/
def planWrite (checkPermissions : Bool) (id : InodeId) (offset : Nat) (data : List UInt8) (inode : Inode) :
    Except FsError Plan := do
  let record ← NsDb.writeInode now creds offset data.length checkPermissions inode
  pure (if data = [] then {} else {
    update := record.map some
    ops := [.write id offset data inode.size]
    growth := max inode.size (offset + data.length) - inode.size })

/-- `setattr`: a size change reserves growth or releases what is cut off, and truncates. -/
def planSetattr (id : InodeId) (attr : SetAttributes) (opened : Bool) (inode : Inode) : Except FsError Plan := do
  NsDb.checkSetattr creds attr opened inode
  let inode' := NsDb.setattrInode now creds attr inode
  pure {
    update := some (some inode')
    ops := if inode'.size ≠ inode.size then [.truncate id inode.size inode'.size] else []
    growth := inode'.size - inode.size
    shrink := inode.size - inode'.size }

def planFallocate (id : InodeId) (offset length : Nat) (mode : FallocateMode) : Inode → Except FsError Plan
  | .leaf ⟨.file size, a, p, n, k⟩ =>
    let newSize := fallocateSize mode size (offset + length)
    let mode' := if creds.uid ≠ a.uid ∧ creds.uid ≠ 0 then clearBits a.mode 0o6000 else a.mode
    pure {
      update := some (some (.leaf ⟨.file newSize, { a with mtime := now 0, ctime := now 0, mode := mode' }, p, n, k⟩))
      ops := if mode ≠ .allocate ∧ offset < size then [.zeroRange id offset (min (offset + length) size - offset) size]
        else []
      growth := newSize - size }
  | _ => throw .isDirectory

def planTrim (id : InodeId) (offset length : Nat) : Inode → Except FsError Plan
  | .leaf ⟨.file size, a, p, n, k⟩ => do
    checkIf (creds.uid ≠ a.uid) (checkAccess (.leaf ⟨.file size, a, p, n, k⟩) creds .write)
    throwIf (u64Max < offset + length) .invalidArgument
    pure { ops := [.zeroRange id offset length size] }
  | _ => throw .isDirectory

/-- `SMALL_FILE_TOMBSTONE_THRESHOLD`: a file of more extents leaves its extents to the tombstone collector. -/
def smallFileTombstoneThreshold : Nat := 10

/-- The deletion of an inode. Only files have extents and count towards the quota. -/
def deletion (id : InodeId) (inode : Inode) : Plan where
  update := some none
  ops := if inode.isFile ∧ extentCount inode.size ≤ smallFileTombstoneThreshold
    then [.deleteRange id 0 (extentCount inode.size)] else []
  shrink := inode.size

/-- Drop one link of an inode that is not a directory. -/
def planUnlink (id : InodeId) (defer : Bool) : Inode → Except FsError Plan
  | .leaf l =>
    let ctime := { l.attrs with ctime := now 0 }
    if 1 < l.nlink then pure { update := some (some (.leaf { l with nlink := l.nlink - 1, attrs := ctime })) }
    else if defer then
      pure { update := some (some (.leaf { l with nlink := 0, attrs := ctime, parent := none, name := none })) }
    else pure (deletion id (.leaf l))
  | .directory _ => throw .isDirectory

/-- Delete an inode without links; anything else is left alone. -/
def planReclaim (id : InodeId) : Option Inode → Plan
  | some (.leaf l) => if l.nlink = 0 then deletion id (.leaf l) else {}
  | _ => {}

/-- A task that needs its inode. -/
def withInode (inode : Option Inode) (f : Inode → Except FsError Plan) : Except FsError Plan :=
  match inode with
  | none => throw .notFound
  | some inode => f inode

/-- The plan of a task that reads `inode`. -/
def plan (checkPermissions : Bool) (inode : Option Inode) : Task → Except FsError Plan
  | write id offset data => withInode inode (planWrite now creds checkPermissions id offset data)
  | setattr id attr opened => withInode inode (planSetattr now creds id attr opened)
  | fallocate id offset length mode => do
    throwIf (length = 0) .invalidArgument
    throwIf (u64Max < offset + length) .invalidArgument
    withInode inode (planFallocate now creds id offset length mode)
  | trim id offset length => if length = 0 then pure {} else withInode inode (planTrim creds id offset length)
  | unlink id defer => withInode inode (planUnlink now id defer)
  | relocate _ fromDir toDir toName =>
    withInode inode fun inode => pure { update := some (some (NsDb.relocate fromDir toDir toName inode)) }
  | reclaim id => pure (planReclaim id inode)
  | deleteExtents id start stop => pure { ops := [.deleteRange id start stop] }
  | repoint id items => pure { ops := [.repoint id items] }

/-! ## The rows of the namespace -/

section Rows

variable {now : Nat → Timestamp} {id : InodeId} {defer : Bool} {l : LeafInode} {plan : Plan} (db : NsDb)

/-- An unlink leaves the row that the namespace's leaves. -/
theorem planUnlink_row (h : planUnlink now id defer (.leaf l) = .ok plan) :
    plan.update = some ((db.commit (NsDb.dropLink (now 0) id defer (.leaf l))).inodes.get id) := by
  unfold planUnlink at h
  unfold NsDb.dropLink
  dsimp only at h ⊢
  split at h
  · rw [if_pos ‹_›]; cases h; exact congrArg some (Table.get_put_self ..).symm
  rw [if_neg ‹_›]
  split at h
  · rw [if_pos ‹_›]; cases h; exact congrArg some (Table.get_put_self ..).symm
  · rw [if_neg ‹_›]; cases h; exact congrArg some (Table.get_del_self ..).symm

/-- A reclaim leaves the row that the namespace's leaves. -/
theorem planReclaim_row (h : db.inodes.get id = some (.leaf l)) :
    (planReclaim id (db.inodes.get id)).update.getD (db.inodes.get id) =
      (db.commit (db.reclaimOrphanInode id)).inodes.get id := by
  unfold planReclaim NsDb.reclaimOrphanInode
  rw [h]
  dsimp only
  split
  · exact (Table.get_del_self ..).symm
  split <;> exact h.symm

end Rows

end Task

end ZeroFS
