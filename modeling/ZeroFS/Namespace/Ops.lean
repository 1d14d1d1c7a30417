import ZeroFS.Namespace.Store

/-!
# Namespace operations

Each operation reads the committed tables under its locks and returns its transaction or an error, with the checks in
the source's order. `now k` is its `k`-th reading of the clock; `defer` is the answer of `should_defer_unlinked_inode`.
-/

namespace ZeroFS

inductive SetTime
  | noChange
  | setToServerTime
  | setToClientTime (t : Timestamp)
  deriving DecidableEq, Repr

/-- The attributes a request sets; `none` leaves one as it is. -/
structure SetAttributes where
  mode : Option Nat := none
  uid : Option Nat := none
  gid : Option Nat := none
  size : Option Nat := none
  atime : SetTime := .noChange
  mtime : SetTime := .noChange
  deriving DecidableEq, Repr

/-- Children were added or removed at `t`. -/
def DirectoryInode.touch (d : DirectoryInode) (t : Timestamp) : DirectoryInode :=
  { d with attrs := { d.attrs with mtime := t, ctime := t } }

namespace NsDb

variable (db : NsDb) (now : Nat → Timestamp) (creds : Credentials)

/-! ## create, mkdir, mknod, symlink -/

/-- The parent of a new entry, after the checks that the four creating operations share. -/
def newEntryParent (dirid : InodeId) (name : Name) : Except FsError DirectoryInode := do
  let inode ← db.getInode dirid
  checkAccess inode creds .write
  checkAccess inode creds .execute
  match inode with
  | .leaf _ => throw .notDirectory
  | .directory dir =>
    throwIf (dir.nlink = 0) .staleHandle
    throwIf (db.entryExists dirid name) .exists
    pure dir

/-- The transaction that adds `child` under a fresh id; `dir` is the parent's new record. -/
def addChild (dirid : InodeId) (name : Name) (dir : DirectoryInode) (id : InodeId) (child : Inode) : List NsWrite :=
  [.putCounter dirid (db.readCookie dirid + 1), .saveInode id child]
    ++ add dirid name id (db.readCookie dirid) (some child)
    ++ [.saveInode dirid (.directory dir)] ++ db.refreshOwnEntry dirid dir

/-- The directory after it got `child`. -/
def withChild (dir : DirectoryInode) (child : Inode) (t : Timestamp) : DirectoryInode :=
  { dir with
    entryCount := dir.entryCount + 1
    nlink := if child.isDirectory then dir.nlink + 1 else dir.nlink }.touch t

/-- What the four creating operations share: the checked parent gets the child that `f` makes. -/
def newEntry (id dirid : InodeId) (name : Name) (f : DirectoryInode → Except FsError Inode) :
    Except FsError (List NsWrite) := do
  let dir ← db.newEntryParent creds dirid name
  let child ← f dir
  pure (db.addChild dirid name (withChild dir child (now 0)) id child)

/-- A record with one link, made now by the caller. -/
def newLeaf (kind : LeafKind) (mode : Nat) (attr : SetAttributes) (dirid : InodeId) (name : Name) : LeafInode where
  kind := kind
  attrs := ⟨now 0, now 0, now 0, mode, attr.uid.getD creds.uid, attr.gid.getD creds.gid⟩
  parent := some dirid
  name := some name
  nlink := 1

def create (id dirid : InodeId) (name : Name) (attr : SetAttributes) : Except FsError (List NsWrite) := do
  validateFilename name
  db.newEntry now creds id dirid name fun _ =>
    let mode := (attr.mode.map validateMode).getD 0o666
    pure (.leaf (newLeaf now creds (.file 0) mode attr dirid name))

inductive FileType
  | regular | directory | symlink | fifo | socket | charDevice | blockDevice
  deriving DecidableEq, Repr

def FileType.special (rdev : Option (Nat × Nat)) : FileType → Option LeafKind
  | fifo => some (.fifo rdev)
  | socket => some (.socket rdev)
  | charDevice => some (.charDevice rdev)
  | blockDevice => some (.blockDevice rdev)
  | _ => none

/-- The 12/20 bit split of device numbers. -/
def deviceTooLarge (rdev : Option (Nat × Nat)) : Bool :=
  match rdev with
  | some (major, minor) => 2 ^ 12 - 1 < major || 2 ^ 20 - 1 < minor
  | none => false

def mknod (id dirid : InodeId) (name : Name) (ftype : FileType) (attr : SetAttributes) (rdev : Option (Nat × Nat)) :
    Except FsError (List NsWrite) := do
  validateFilename name
  throwIf (deviceTooLarge rdev) .invalidArgument
  db.newEntry now creds id dirid name fun _ =>
    match ftype.special rdev with
    | none => throw .invalidArgument
    | some kind =>
      let mode := (attr.mode.map validateMode).getD 0o666
      pure (.leaf (newLeaf now creds kind mode attr dirid name))

def symlink (id dirid : InodeId) (name : Name) (target : List UInt8) (attr : SetAttributes) :
    Except FsError (List NsWrite) := do
  validateFilename name
  db.newEntry now creds id dirid name fun _ =>
    let mode := (attr.mode.map (· ||| 0o120000)).getD 0o120777
    pure (.leaf (newLeaf now creds (.symlink target) mode attr dirid name))

/-- The time `mkdir` records for an attribute. -/
def SetTime.atCreation (t : SetTime) (now : Timestamp) : Timestamp :=
  match t with
  | .setToClientTime ts => ts
  | _ => now

/-- A setgid parent passes the bit and its group on. -/
def newDirectory (attr : SetAttributes) (dirid : InodeId) (dir : DirectoryInode) (name : Name) : DirectoryInode :=
  let setgid := dir.attrs.mode &&& 0o2000 ≠ 0
  let mode := attr.mode.getD 0o777
  { attrs := {
      mtime := SetTime.atCreation attr.mtime (now 0)
      ctime := now 0
      atime := SetTime.atCreation attr.atime (now 0)
      mode := if setgid then mode ||| 0o2000 else mode
      uid := attr.uid.getD creds.uid
      gid := attr.gid.getD (if setgid then dir.attrs.gid else creds.gid) }
    entryCount := 0
    parent := dirid
    name := some name
    nlink := 2 }

def mkdir (id dirid : InodeId) (name : Name) (attr : SetAttributes) : Except FsError (List NsWrite) := do
  validateFilename name
  db.newEntry now creds id dirid name fun dir => do
    throwIf (dir.nlink = u32Max) .noSpace
    pure (.directory (newDirectory now creds attr dirid dir name))

/-! ## link -/

def maxHardlinksPerInode : Nat := u32Max

/-- The record after one link more. An unlinked inode gets its place back, a second link makes it placeless. -/
def relink (l : LeafInode) (dirid : InodeId) (name : Name) : LeafInode :=
  let l' := { l with nlink := l.nlink + 1, attrs := { l.attrs with ctime := now 0 } }
  if l.nlink = 0 then { l' with parent := some dirid, name := some name } else { l' with parent := none, name := none }

/-- The entry of a placed inode stops carrying its record. -/
def unembedEntry (fileid : InodeId) (l : LeafInode) : Except FsError (List NsWrite) :=
  match l.parent, l.name with
  | some p, some n => db.convertToReference p n fileid
  | _, _ => pure []

def link (fileid dirid : InodeId) (name : Name) : Except FsError (List NsWrite) := do
  validateFilename name
  let dirInode ← db.getInode dirid
  let fileInode ← db.getInode fileid
  checkAccess dirInode creds .write
  checkAccess dirInode creds .execute
  match dirInode, fileInode with
  | .leaf _, _ => throw .notDirectory
  | .directory dir, file =>
    throwIf (dir.nlink = 0) .staleHandle
    match file with
    | .directory _ => throw .invalidArgument
    | .leaf l =>
      throwIf (db.entryExists dirid name) .exists
      let cookie := db.readCookie dirid
      let unembed ← db.unembedEntry fileid l
      throwIf (l.nlink = maxHardlinksPerInode) .tooManyLinks
      let l' := relink now l dirid name
      let dir := { dir with entryCount := dir.entryCount + 1 }.touch (now 0)
      pure ([.putCounter dirid (cookie + 1)] ++ unembed
        ++ add dirid name fileid cookie (if l'.nlink = 1 then some (.leaf l') else none)
        ++ (if l.nlink = 0 then [.removeOrphan fileid] else [])
        ++ [.saveInode fileid (.leaf l'), .saveInode dirid (.directory dir)] ++ db.refreshOwnEntry dirid dir)

/-! ## remove -/

/-- Drop one link of an inode: keep it with one link less, keep it as an orphan, or delete it. -/
def dropLink (t : Timestamp) (id : InodeId) (defer : Bool) : Inode → List NsWrite
  | .leaf l =>
    let ctime := { l.attrs with ctime := t }
    if 1 < l.nlink then [.saveInode id (.leaf { l with nlink := l.nlink - 1, attrs := ctime })]
    else if defer then
      [.saveInode id (.leaf { l with nlink := 0, attrs := ctime, parent := none, name := none }), .addOrphan id]
    else [.deleteInode id]
  | .directory d =>
    if defer then
      [.saveInode id (.directory { d with nlink := 0, attrs := { d.attrs with ctime := t }, name := none }),
        .addOrphan id]
    else [.deleteInode id, .deleteCounter id]

/-- A directory that still has entries is not removed. -/
def checkEmpty : Inode → Except FsError Unit
  | .directory d => throwIf (0 < d.entryCount) .notEmpty
  | .leaf _ => pure ()

def remove (dirid : InodeId) (name : Name) (expectedDirectory : Option Bool) (defer : Bool) :
    Except FsError (List NsWrite) := do
  validateFilename name
  let dirInode ← db.getInode dirid
  match dirInode with
  | .leaf _ => throw .notDirectory
  | .directory dir =>
    checkAccess dirInode creds .execute
    throwIf (dir.nlink = 0) .staleHandle
    let (fileId, cookie) ← db.getEntryWithCookie dirid name
    checkAccess dirInode creds .write
    checkAccess dirInode creds .execute
    let fileInode ← db.getInode fileId
    throwIf (expectedDirectory = some true ∧ fileInode.isDirectory = false) .notDirectory
    throwIf (expectedDirectory = some false ∧ fileInode.isDirectory = true) .isDirectory
    checkStickyBitDelete dirInode fileInode creds
    checkEmpty fileInode
    let nlink := if fileInode.isDirectory then dir.nlink - 1 else dir.nlink
    let dir := { dir with nlink := nlink, entryCount := dir.entryCount - 1 }.touch (now 0)
    pure (dropLink (now 0) fileId defer fileInode ++ unlinkEntry dirid name cookie
      ++ [.saveInode dirid (.directory dir)] ++ db.refreshOwnEntry dirid dir)

/-! ## rename -/

/-- The walk of `is_ancestor_of` up the parent chain from `current`. A walk longer than the number of inodes has met a
cycle; the source then never returns, and no transaction is staged here either. -/
def ancestorWalk (ancestor : InodeId) : Nat → InodeId → Except FsError Bool
  | 0, _ => throw .ioError
  | fuel + 1, current =>
    if current = 0 then pure false
    else do
      let inode ← db.getInode current
      match inode.parent with
      | none => pure false
      | some p => if p = ancestor then pure true else ancestorWalk ancestor fuel p

def isAncestorOf (ancestor descendant : InodeId) : Except FsError Bool :=
  if ancestor = descendant then pure true else db.ancestorWalk ancestor (db.inodes.keys.length + 1) descendant

/-- A directory does not move below itself. -/
def checkNotBelow (source : Inode) (sourceId toDir : InodeId) : Except FsError Unit :=
  checkIf source.isDirectory do
    let below ← db.isAncestorOf sourceId toDir
    throwIf below .invalidArgument

/-- The moved record: a directory follows its entry, another inode only while it has one link. -/
def relocate (fromDir toDir : InodeId) (toName : Name) : Inode → Inode
  | .directory d => .directory { d with parent := if fromDir = toDir then d.parent else toDir, name := some toName }
  | .leaf l => if l.nlink = 1 then .leaf { l with parent := some toDir, name := some toName } else .leaf l

theorem relocate_size (fromDir toDir : InodeId) (toName : Name) (inode : Inode) :
    (relocate fromDir toDir toName inode).size = inode.size := by
  cases inode with
  | directory d => rfl
  | leaf l =>
    obtain ⟨kind, a, p, n, k⟩ := l
    unfold relocate
    dsimp only
    split <;> cases kind <;> rfl

/-- The source's directory after the move. In the same directory only a replaced target leaves. -/
def leave (sameDir movedDir : Bool) (target : Option Inode) (t : Timestamp) (d : DirectoryInode) : DirectoryInode :=
  let targetDir := target.any (·.isDirectory)
  let d :=
    if !sameDir then { d with entryCount := d.entryCount - 1, nlink := if movedDir then d.nlink - 1 else d.nlink }
    else if target.isSome then
      { d with entryCount := d.entryCount - 1, nlink := if targetDir then d.nlink - 1 else d.nlink }
    else d
  d.touch t

def afterLeave (sameDir movedDir : Bool) (target : Option Inode) (t : Timestamp) : Inode → Inode
  | .leaf l => .leaf l
  | .directory d => .directory (leave sameDir movedDir target t d)

/-- The destination directory after a move from another directory. -/
def enter (movedDir : Bool) (target : Option Inode) (t : Timestamp) (d : DirectoryInode) :
    Except FsError DirectoryInode := do
  let grows := movedDir && !target.any (·.isDirectory)
  throwIf (grows ∧ d.nlink = u32Max) .noSpace
  pure ({ d with
    entryCount := if target.isNone then d.entryCount + 1 else d.entryCount
    nlink := if grows then d.nlink + 1 else d.nlink }.touch t)

def afterEnter (movedDir : Bool) (target : Option Inode) (t : Timestamp) : Inode → Except FsError Inode
  | .leaf l => pure (.leaf l)
  | .directory d => do
    let d ← enter movedDir target t d
    pure (.directory d)

/-- The refresh of a directory's own entry after its record changed; other inodes have none. -/
def refreshOwn (id : InodeId) : Inode → List NsWrite
  | .directory d => db.refreshOwnEntry id d
  | .leaf _ => []

/-- The target of a rename: it must match the source's kind, an existing directory must be empty. -/
def renameTarget (source : Inode) (targetDir : Inode) (id : InodeId) : Except FsError Inode := do
  let inode ← db.getInode id
  throwIf (source.isDirectory = true ∧ inode.isDirectory = false) .notDirectory
  throwIf (source.isDirectory = false ∧ inode.isDirectory = true) .isDirectory
  checkEmpty inode
  checkStickyBitDelete targetDir inode creds
  pure inode

/-- The target entry `to_dir/to_name` that the rename replaces, if there is one. -/
def renameTargetEntry (source fromInode : Inode) (toInode : Option Inode) (entry : Option (InodeId × Nat)) :
    Except FsError (Option (InodeId × Nat × Inode)) :=
  match entry with
  | none => pure none
  | some (id, cookie) => do
    let inode ← db.renameTarget creds source (toInode.getD fromInode) id
    pure (some (id, cookie, inode))

/-- The writes for a destination directory other than the source's. -/
def saveEntered (toDir : InodeId) (movedDir : Bool) (target : Option Inode) (t : Timestamp) :
    Option Inode → Except FsError (List NsWrite)
  | none => pure []
  | some toInode => do
    let toInode ← afterEnter movedDir target t toInode
    pure ([.saveInode toDir toInode] ++ db.refreshOwn toDir toInode)

/-- The writes for a replaced target. -/
def dropTarget (toDir : InodeId) (toName : Name) (t : Timestamp) (defer : Bool) :
    Option (InodeId × Nat × Inode) → List NsWrite
  | none => []
  | some (id, cookie, inode) => dropLink t id defer inode ++ unlinkEntry toDir toName cookie

/-- The writes for the moved entry; the scan row carries the record while it has one link. -/
def moveEntry (fromDir : InodeId) (fromName : Name) (toDir : InodeId) (toName : Name) (id : InodeId)
    (cookie newCookie : Nat) (source : Inode) : List NsWrite :=
  unlinkEntry fromDir fromName cookie ++ (if fromDir = toDir then [] else [.putCounter toDir (newCookie + 1)])
    ++ add toDir toName id newCookie (if source.nlink = 1 then some source else none) ++ [.saveInode id source]

/-- The transaction of a rename: drop the target, move the entry, settle both directories. -/
def renameTxn (fromDir : InodeId) (fromName : Name) (toDir : InodeId) (toName : Name) (sourceId : InodeId)
    (sourceCookie : Nat) (source fromInode : Inode) (toInode : Option Inode)
    (target : Option (InodeId × Nat × Inode)) (defer : Bool) : Except FsError (List NsWrite) := do
  let source := relocate fromDir toDir toName source
  let targetInode := target.map (·.2.2)
  let newCookie := if fromDir = toDir then sourceCookie else db.readCookie toDir
  let fromInode := afterLeave (fromDir = toDir) source.isDirectory targetInode (now 1) fromInode
  let entered ← db.saveEntered toDir source.isDirectory targetInode (now 1) toInode
  pure (dropTarget toDir toName (now 0) defer target
    ++ moveEntry fromDir fromName toDir toName sourceId sourceCookie newCookie source
    ++ ([.saveInode fromDir fromInode] ++ db.refreshOwn fromDir fromInode) ++ entered)

/-- Moving a directory out of a sticky directory needs its ownership. -/
def checkStickyMove (fromDir toDir : InodeId) (source fromInode : Inode) : Except FsError Unit :=
  throwIf (fromDir ≠ toDir ∧ source.isDirectory = true ∧ fromInode.isDirectory = true ∧
    fromInode.attrs.mode &&& 0o1000 ≠ 0 ∧ creds.uid ≠ 0 ∧ creds.uid ≠ source.attrs.uid) .permissionDenied

/-- An unlinked directory takes part in no rename. -/
def checkLinkedDirectory : Inode → Except FsError Unit
  | .directory d => throwIf (d.nlink = 0) .staleHandle
  | .leaf _ => pure ()

/-- The destination directory, when it is not the source's. -/
def getToDir (fromDir toDir : InodeId) : Except FsError (Option Inode) :=
  if fromDir = toDir then pure none else some <$> db.getInode toDir

/-- The rest of a rename, once the source `sourceId` is known not to be above the destination. -/
def renameChecked (fromDir : InodeId) (fromName : Name) (toDir : InodeId) (toName : Name) (sourceId : InodeId)
    (sourceCookie : Nat) (source : Inode) (targetEntry : Option (InodeId × Nat)) (defer : Bool) :
    Except FsError (List NsWrite) := do
  let fromInode ← db.getInode fromDir
  let toInode ← db.getToDir fromDir toDir
  checkLinkedDirectory fromInode
  toInode.forM checkLinkedDirectory
  checkAccess fromInode creds .write
  checkAccess fromInode creds .execute
  toInode.forM (checkAccess · creds .write)
  toInode.forM (checkAccess · creds .execute)
  checkStickyBitDelete fromInode source creds
  checkStickyMove creds fromDir toDir source fromInode
  if targetEntry.map (·.1) = some sourceId then do
    -- two links of one inode: nothing moves
    toInode.forM (checkStickyBitDelete · source creds)
    pure []
  else do
    let target ← db.renameTargetEntry creds source fromInode toInode targetEntry
    db.renameTxn now fromDir fromName toDir toName sourceId sourceCookie source fromInode toInode target defer

/-- The rename under its locks. -/
def renameLocked (fromDir : InodeId) (fromName : Name) (toDir : InodeId) (toName : Name)
    (replaceExisting defer : Bool) : Except FsError (List NsWrite) := do
  let (sourceId, sourceCookie) ← db.getEntryWithCookie fromDir fromName
  throwIf (toDir = sourceId) .invalidArgument
  let targetEntry := db.entries.get (toDir, toName)
  throwIf (replaceExisting = false ∧ targetEntry.isSome) .exists
  let source ← db.getInode sourceId
  db.checkNotBelow source sourceId toDir
  db.renameChecked now creds fromDir fromName toDir toName sourceId sourceCookie source targetEntry defer

def checkRenameNames (fromName toName : Name) : Except FsError Unit := do
  throwIf (fromName.isEmpty || toName.isEmpty) .invalidArgument
  validateFilename fromName
  validateFilename toName
  throwIf (fromName = dotName ∨ fromName = dotDotName) .invalidArgument
  throwIf (toName = dotName ∨ toName = dotDotName) .exists

def rename (fromDir : InodeId) (fromName : Name) (toDir : InodeId) (toName : Name) (replaceExisting defer : Bool) :
    Except FsError (List NsWrite) := do
  checkRenameNames fromName toName
  if fromDir = toDir ∧ fromName = toName then pure []
  else db.renameLocked now creds fromDir fromName toDir toName replaceExisting defer

/-! ## Attribute updates -/

/-- Refresh the copy in the entry of a placed inode. -/
def refreshEntry (id : InodeId) (inode : Inode) : Except FsError (List NsWrite) :=
  match inode.parent, inode.name with
  | some p, some n => db.updateInodeInEntry p n id inode
  | _, _ => pure []

/-- Save a changed record and refresh the copy in its entry. -/
def saveWithEntry (id : InodeId) (inode : Inode) : Except FsError (List NsWrite) := do
  let refresh ← db.refreshEntry id inode
  pure ([.saveInode id inode] ++ refresh)

/-- Save the record that `f` makes of an inode, if it makes one. -/
def updateInode (id : InodeId) (f : Inode → Except FsError (Option Inode)) : Except FsError (List NsWrite) := do
  let inode ← db.getInode id
  match ← f inode with
  | none => pure []
  | some inode => db.saveWithEntry id inode

/-- `SetMode`: files and directories lose setgid when the caller is not in their group. -/
def setMode (inode : Inode) (mode : Nat) : Nat :=
  let m := validateMode mode
  if (inode.isFile || inode.isDirectory) ∧ creds.uid ≠ 0 ∧ m &&& 0o2000 ≠ 0 ∧
      creds.isMemberOfGroup inode.attrs.gid = false then
    clearBits m 0o2000
  else m

def SetTime.resolve (t : SetTime) (old now : Timestamp) : Timestamp :=
  match t with
  | .noChange => old
  | .setToServerTime => now
  | .setToClientTime ts => ts

def setAttrs (inode : Inode) (attr : SetAttributes) : Attrs :=
  let a := inode.attrs
  let mode := (attr.mode.map (setMode creds inode)).getD a.mode
  let mode := if attr.uid.isSome ∧ creds.uid ≠ 0 then clearBits mode 0o4000 else mode
  let mode := if attr.gid.isSome ∧ creds.uid ≠ 0 then clearBits mode 0o6000 else mode
  let resized := inode.isFile && decide (inode.size ≠ attr.size.getD inode.size)
  let changed := attr.mode.isSome || attr.uid.isSome || attr.gid.isSome || (inode.isFile && attr.size.isSome)
    || attr.atime != .noChange || attr.mtime != .noChange
  { mtime := SetTime.resolve attr.mtime (if resized then now 0 else a.mtime) (now 2)
    ctime := if changed then now 3 else a.ctime
    atime := SetTime.resolve attr.atime a.atime (now 1)
    mode := mode
    uid := attr.uid.getD a.uid
    gid := attr.gid.getD a.gid }

/-- `SetSize` on a file; other inodes ignore it. -/
def setSize (size : Option Nat) : Inode → Inode
  | .leaf ⟨.file old, a, p, n, l⟩ => .leaf ⟨.file (size.getD old), a, p, n, l⟩
  | inode => inode

def checkSetTime (inode : Inode) : SetTime → Except FsError Unit
  | .noChange => pure ()
  | .setToServerTime => canSetTimes inode creds true
  | .setToClientTime _ => canSetTimes inode creds false

/-- Changing owner or group: root, or the owner within their groups. -/
def checkChown (inode : Inode) (attr : SetAttributes) : Except FsError Unit :=
  checkIf ((attr.uid.isSome ∨ attr.gid.isSome) ∧ creds.uid ≠ 0) do
    checkOwnership inode creds
    throwIf (attr.uid.any (· ≠ creds.uid)) .operationNotPermitted
    throwIf (attr.gid.any fun g => creds.isMemberOfGroup g = false) .operationNotPermitted

/-- `opened`: the size change goes through a handle that was opened for writing. -/
def checkSetattr (attr : SetAttributes) (opened : Bool) (inode : Inode) : Except FsError Unit := do
  checkIf attr.mode.isSome (checkOwnership inode creds)
  checkChown creds inode attr
  checkSetTime creds inode attr.atime
  checkSetTime creds inode attr.mtime
  checkIf (opened = false ∧ attr.size.isSome) (checkAccess inode creds .write)

def setattrInode (attr : SetAttributes) (inode : Inode) : Inode :=
  (setSize attr.size inode).withAttrs (setAttrs now creds inode attr)

def setattr (id : InodeId) (attr : SetAttributes) (opened : Bool) : Except FsError (List NsWrite) :=
  db.updateInode id fun inode => do
    checkSetattr creds attr opened inode
    pure (some (setattrInode now creds attr inode))

/-- The record of a file after `prepare_write` of `[offset, offset + len)`, or `none` when nothing has to be
republished: same size, no setuid bits to clear, and both times already in this second. -/
def writeRecord (l : LeafInode) (size offset len : Nat) : Option LeafInode :=
  let newSize := max size (offset + len)
  let clears := creds.uid ≠ l.attrs.uid ∧ creds.uid ≠ 0 ∧ l.attrs.mode &&& 0o6000 ≠ 0
  if newSize ≠ size ∨ clears ∨ l.attrs.mtime.seconds ≠ (now 0).seconds ∨ l.attrs.ctime.seconds ≠ (now 0).seconds then
    some { l with
      kind := .file newSize
      attrs := { l.attrs with
        mtime := now 0
        ctime := now 0
        mode := if clears then clearBits l.attrs.mode 0o6000 else l.attrs.mode } }
  else none

/-- The metadata of a write of `len` bytes; `checkPermissions` is off for a handle opened for writing. -/
def writeInode (offset len : Nat) (checkPermissions : Bool) : Inode → Except FsError (Option Inode)
  | .leaf ⟨.file size, a, p, n, k⟩ => do
    checkIf (checkPermissions ∧ creds.uid ≠ a.uid) (checkAccess (.leaf ⟨.file size, a, p, n, k⟩) creds .write)
    if len = 0 then pure none
    else do
      throwIf (u64Max < offset + len) .invalidArgument
      pure ((writeRecord now creds ⟨.file size, a, p, n, k⟩ size offset len).map .leaf)
  | _ => throw .isDirectory

def write (id : InodeId) (offset len : Nat) (checkPermissions : Bool) : Except FsError (List NsWrite) :=
  db.updateInode id (writeInode now creds offset len checkPermissions)

def Timestamp.before (a b : Timestamp) : Bool :=
  a.seconds < b.seconds || (a.seconds == b.seconds && a.nanoseconds < b.nanoseconds)

def accessInode (atime : Timestamp) : Inode → Except FsError (Option Inode)
  | .leaf ⟨.file size, a, p, n, k⟩ =>
    pure (if Timestamp.before a.atime atime then some (.leaf ⟨.file size, { a with atime := atime }, p, n, k⟩)
      else none)
  | _ => throw .invalidArgument

def recordAccessTime (id : InodeId) (atime : Timestamp) : Except FsError (List NsWrite) :=
  db.updateInode id (accessInode atime)

/-! ## Orphan reclaim -/

def reclaimOrphanInode (id : InodeId) : List NsWrite :=
  match db.inodes.get id with
  | some (.leaf l) =>
    if l.nlink = 0 then [.deleteInode id, .removeOrphan id]
    else if (db.orphans.get id).isSome then [.removeOrphan id] else []
  | some (.directory d) =>
    if d.nlink = 0 then
      if d.entryCount ≠ 0 then [] else [.deleteInode id, .deleteCounter id, .removeOrphan id]
    else if (db.orphans.get id).isSome then [.removeOrphan id] else []
  | none => if (db.orphans.get id).isSome then [.removeOrphan id] else []

end NsDb

end ZeroFS
