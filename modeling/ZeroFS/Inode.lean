import Mathlib.Data.List.Dedup
import Mathlib.Data.List.Sort
import ZeroFS.Types

/-!
# Inodes and permissions

The records of files, symlinks and special files have the same link and attribute fields and are one `LeafInode` with a
`LeafKind` here; directories keep a record of their own.
-/

namespace ZeroFS

abbrev InodeId := Nat
abbrev Name := List UInt8

/-- `acquire_multi`: the ids in order, each once. -/
def lockOrder (ids : List InodeId) : List InodeId := (ids.insertionSort (· ≤ ·)).dedup

theorem mem_lockOrder {ids : List InodeId} {x : InodeId} : x ∈ lockOrder ids ↔ x ∈ ids := by
  simp [lockOrder]

structure Timestamp where
  seconds : Nat
  nanoseconds : Nat
  deriving DecidableEq, Repr

structure Attrs where
  mtime : Timestamp
  ctime : Timestamp
  atime : Timestamp
  mode : Nat
  uid : Nat
  gid : Nat
  deriving DecidableEq, Repr

inductive LeafKind
  | file (size : Nat)
  | symlink (target : List UInt8)
  | fifo (rdev : Option (Nat × Nat))
  | socket (rdev : Option (Nat × Nat))
  | charDevice (rdev : Option (Nat × Nat))
  | blockDevice (rdev : Option (Nat × Nat))
  deriving DecidableEq, Repr

/-- A file, symlink or special file. `parent` and `name` are `none` while the inode has several links. -/
structure LeafInode where
  kind : LeafKind
  attrs : Attrs
  parent : Option InodeId
  name : Option Name
  nlink : Nat
  deriving DecidableEq, Repr

/-- A directory. `name` is `none` for the root and for an unlinked directory. -/
structure DirectoryInode where
  attrs : Attrs
  entryCount : Nat
  parent : InodeId
  name : Option Name
  nlink : Nat
  deriving DecidableEq, Repr

inductive Inode
  | leaf (l : LeafInode)
  | directory (d : DirectoryInode)
  deriving DecidableEq, Repr

namespace Inode

def attrs : Inode → Attrs
  | leaf l => l.attrs
  | directory d => d.attrs

def nlink : Inode → Nat
  | leaf l => l.nlink
  | directory d => d.nlink

def parent : Inode → Option InodeId
  | leaf l => l.parent
  | directory d => some d.parent

def name : Inode → Option Name
  | leaf l => l.name
  | directory d => d.name

def isDirectory : Inode → Bool
  | leaf _ => false
  | directory _ => true

def isFile : Inode → Bool
  | leaf ⟨.file _, _, _, _, _⟩ => true
  | _ => false

def size : Inode → Nat
  | leaf ⟨.file size, _, _, _, _⟩ => size
  | _ => 0

def withAttrs : Inode → Attrs → Inode
  | leaf l, a => leaf { l with attrs := a }
  | directory d, a => directory { d with attrs := a }

@[simp, grind =] theorem nlink_leaf (l : LeafInode) : (leaf l).nlink = l.nlink := rfl
@[simp, grind =] theorem nlink_directory (d : DirectoryInode) : (directory d).nlink = d.nlink := rfl
@[simp, grind =] theorem parent_leaf (l : LeafInode) : (leaf l).parent = l.parent := rfl
@[simp, grind =] theorem parent_directory (d : DirectoryInode) : (directory d).parent = some d.parent := rfl
@[simp, grind =] theorem name_leaf (l : LeafInode) : (leaf l).name = l.name := rfl
@[simp, grind =] theorem name_directory (d : DirectoryInode) : (directory d).name = d.name := rfl
@[simp, grind =] theorem isDirectory_leaf (l : LeafInode) : (leaf l).isDirectory = false := rfl
@[simp, grind =] theorem isDirectory_directory (d : DirectoryInode) : (directory d).isDirectory = true := rfl

theorem size_of_not_isFile {inode : Inode} (h : inode.isFile = false) : inode.size = 0 := by
  rcases inode with ⟨⟨size⟩ | _ | _ | _ | _ | _, _, _, _, _⟩ | d
  · cases h
  all_goals rfl

end Inode

/-! ## Permissions -/

structure Credentials where
  uid : Nat
  gid : Nat
  /-- Whether `gid` came from the caller rather than a protocol fallback. -/
  gidKnown : Bool
  /-- The supplementary groups; the protocol layer keeps the first 16. -/
  groups : List Nat
  groupsComplete : Bool
  deriving DecidableEq, Repr

def Credentials.root : Credentials := ⟨0, 0, true, [], true⟩

def Credentials.isKnownMemberOfGroup (c : Credentials) (gid : Nat) : Bool :=
  (c.gidKnown && c.gid == gid) || c.groups.contains gid

def Credentials.isMemberOfGroup (c : Credentials) (gid : Nat) : Bool := c.isKnownMemberOfGroup gid || !c.groupsComplete

inductive AccessMode
  | read | write | execute
  deriving DecidableEq, Repr

/-- The owner, group and other bits of an access mode. -/
def AccessMode.bits : AccessMode → Nat × Nat × Nat
  | read => (0o400, 0o040, 0o004)
  | write => (0o200, 0o020, 0o002)
  | execute => (0o100, 0o010, 0o001)

def checkAccess (inode : Inode) (creds : Credentials) (mode : AccessMode) : Except FsError Unit :=
  let fileMode := inode.attrs.mode
  if creds.uid = 0 then
    if mode = .execute ∧ fileMode &&& 0o111 = 0 then throw .permissionDenied else pure ()
  else
    let (owner, group, other) := mode.bits
    let granted :=
      if creds.uid = inode.attrs.uid then fileMode &&& owner
      else if creds.isKnownMemberOfGroup inode.attrs.gid then fileMode &&& group
      else if !creds.groupsComplete then fileMode &&& (group ||| other)
      else fileMode &&& other
    if granted ≠ 0 then pure () else throw .permissionDenied

def checkOwnership (inode : Inode) (creds : Credentials) : Except FsError Unit :=
  if creds.uid = 0 ∨ creds.uid = inode.attrs.uid then pure () else throw .operationNotPermitted

def checkStickyBitDelete (parent target : Inode) (creds : Credentials) : Except FsError Unit :=
  if parent.isDirectory ∧ parent.attrs.mode &&& 0o1000 ≠ 0 ∧ creds.uid ≠ 0 ∧ creds.uid ≠ parent.attrs.uid ∧
      creds.uid ≠ target.attrs.uid then
    throw .permissionDenied
  else pure ()

def validateMode (mode : Nat) : Nat := mode &&& 0o7777

def canSetTimes (inode : Inode) (creds : Credentials) (settingToCurrentTime : Bool) : Except FsError Unit :=
  if creds.uid = 0 ∨ creds.uid = inode.attrs.uid then pure ()
  else if settingToCurrentTime then checkAccess inode creds .write
  else throw .operationNotPermitted

/-- `mode & !bits` on `u32`. -/
def clearBits (mode bits : Nat) : Nat := mode &&& (u32Max ^^^ bits)

def dotName : Name := [0x2e]

def dotDotName : Name := [0x2e, 0x2e]

/-- `validate_filename`: names are at most 255 bytes. -/
def validateFilename (name : Name) : Except FsError Unit := if 255 < name.length then throw .nameTooLong else pure ()

end ZeroFS
