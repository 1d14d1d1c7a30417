import ZeroFS.Lib.Machine
import ZeroFS.Namespace.Rename

/-!
# Runs of the namespace

A request reads the tables, and its writes are committed or it is refused. `namespace_coherent` says what holds after
every sequence of requests in which entries are renamed into directories only.
-/

namespace ZeroFS

open Machine

/-- The committed tables and the next inode id. -/
structure NsState where
  db : NsDb
  nextId : Nat
  deriving DecidableEq

/-- A request on the namespace. `remove` serves `unlink` and `rmdir`; `burnId` is an id that a refused request took. -/
inductive NsCall
  | create (dirid : InodeId) (name : Name) (attr : SetAttributes)
  | mkdir (dirid : InodeId) (name : Name) (attr : SetAttributes)
  | mknod (dirid : InodeId) (name : Name) (ftype : NsDb.FileType) (attr : SetAttributes) (rdev : Option (Nat × Nat))
  | symlink (dirid : InodeId) (name : Name) (target : List UInt8) (attr : SetAttributes)
  | link (fileid dirid : InodeId) (name : Name)
  | remove (dirid : InodeId) (name : Name) (expectedDirectory : Option Bool) (defer : Bool)
  | rename (fromDir : InodeId) (fromName : Name) (toDir : InodeId) (toName : Name) (replaceExisting defer : Bool)
  | setattr (id : InodeId) (attr : SetAttributes) (opened : Bool)
  | write (id : InodeId) (offset len : Nat) (checkPermissions : Bool)
  | recordAccessTime (id : InodeId) (atime : Timestamp)
  | reclaimOrphanInode (id : InodeId)
  | burnId

/-- Requests that take a fresh inode id. -/
def NsCall.allocates : NsCall → Bool
  | create .. | mkdir .. | mknod .. | symlink .. | burnId => true
  | _ => false

/-- The transaction of a request; `id` is the id it may take. -/
def NsCall.txn (db : NsDb) (now : Nat → Timestamp) (creds : Credentials) (id : InodeId) :
    NsCall → Except FsError (List NsWrite)
  | create dirid name attr => db.create now creds id dirid name attr
  | mkdir dirid name attr => db.mkdir now creds id dirid name attr
  | mknod dirid name ftype attr rdev => db.mknod now creds id dirid name ftype attr rdev
  | symlink dirid name target attr => db.symlink now creds id dirid name target attr
  | link fileid dirid name => db.link now creds fileid dirid name
  | remove dirid name expected defer => db.remove now creds dirid name expected defer
  | rename fromDir fromName toDir toName replaceExisting defer =>
    db.rename now creds fromDir fromName toDir toName replaceExisting defer
  | setattr id attr opened => db.setattr now creds id attr opened
  | write id offset len checkPermissions => db.write now creds id offset len checkPermissions
  | recordAccessTime id atime => db.recordAccessTime id atime
  | reclaimOrphanInode id => pure (db.reclaimOrphanInode id)
  | burnId => pure []

structure NsRequest where
  call : NsCall
  now : Nat → Timestamp
  creds : Credentials

namespace NsState

/-- The file system that `boot` creates at time `t` for the owner `uid:gid`. -/
def boot (t : Timestamp) (uid gid : Nat) : NsState where
  db :=
    { inodes := Table.empty.put 0 (.directory ⟨⟨t, t, t, 0o1777, uid, gid⟩, 0, 0, none, 2⟩)
      entries := Table.empty
      scans := Table.empty
      counters := Table.empty
      orphans := Table.empty }
  nextId := 1

/-- A request that is granted commits its transaction. -/
def step (s : NsState) (r : NsRequest) : Option NsState :=
  match r.call.txn s.db r.now r.creds s.nextId with
  | .ok ws => some ⟨s.db.commit ws, if r.call.allocates then s.nextId + 1 else s.nextId⟩
  | .error _ => none

/-- The destination of a rename is a directory. -/
def intoDirectory (s : NsState) (r : NsRequest) : Bool :=
  match r.call with
  | .rename _ _ toDir _ _ _ => decide (IsDirId s.db.inodes toDir)
  | _ => true

abbrev IntoDirectory (s : NsState) (r : NsRequest) : Prop := intoDirectory s r = true

/-! ## The invariant over runs -/

theorem boot_consistent (t : Timestamp) (uid gid : Nat) : (boot t uid gid).db.Consistent (boot t uid gid).nextId := by
  have hroot : ∀ i ino, (boot t uid gid).db.inodes.get i = some ino → i = 0 ∧
      ino = .directory ⟨⟨t, t, t, 0o1777, uid, gid⟩, 0, 0, none, 2⟩ := by
    intro i ino hi
    have hput : (boot t uid gid).db.inodes.get i = if i = 0 then _ else _ := Table.get_put ..
    rw [hput] at hi
    split at hi
    · cases hi; exact ⟨‹_›, rfl⟩
    · cases hi
  refine ⟨?_, nofun, nofun, ?_, ?_, ?_, rfl, nofun, ?_, nofun, ?_⟩
  · intro d n i c; exact ⟨nofun, nofun⟩
  · intro i l hi; cases (hroot i _ hi).2
  · intro i d hi
    obtain ⟨rfl, hd⟩ := hroot i _ hi
    cases hd
    exact .inr ⟨Nat.zero_lt_two, .inl ⟨rfl, rfl⟩⟩
  · intro i d hi _
    obtain ⟨rfl, hd⟩ := hroot i _ hi
    cases hd
    exact ⟨rfl, fun _ => rfl⟩
  · intro i
    refine ⟨nofun, ?_⟩
    rintro ⟨ino, hi, hl⟩
    rw [(hroot i ino hi).2] at hl
    cases hl
  · intro i hi
    obtain ⟨ino, hi⟩ := Option.isSome_iff_exists.1 hi
    rw [(hroot i ino hi).1]
    exact Nat.zero_lt_one

theorem step_consistent {s t : NsState} {r : NsRequest} (h : s.db.Consistent s.nextId) (hr : IntoDirectory s r)
    (hs : s.step r = some t) : t.db.Consistent t.nextId := by
  unfold step at hs
  split at hs
  · rename_i ws hop
    cases hs
    cases hc : r.call with
    | create dirid name attr => rw [hc] at hop; exact (NsDb.create_creates hop).consistent h
    | mkdir dirid name attr => rw [hc] at hop; exact (NsDb.mkdir_creates hop).consistent h
    | mknod dirid name ftype attr rdev => rw [hc] at hop; exact (NsDb.mknod_creates hop).consistent h
    | symlink dirid name target attr => rw [hc] at hop; exact (NsDb.symlink_creates hop).consistent h
    | link fileid dirid name => rw [hc] at hop; exact NsDb.link_consistent h hop
    | remove dirid name expected defer => rw [hc] at hop; exact NsDb.remove_consistent h hop
    | rename fromDir fromName toDir toName replaceExisting defer =>
      rw [hc] at hop
      simp only [IntoDirectory, intoDirectory, hc] at hr
      exact NsDb.rename_consistent h (of_decide_eq_true hr) hop
    | setattr id attr opened => rw [hc] at hop; exact (NsDb.setattr_updates hop).consistent h
    | write id offset len checkPermissions => rw [hc] at hop; exact (NsDb.write_updates hop).consistent h
    | recordAccessTime id atime => rw [hc] at hop; exact (NsDb.recordAccessTime_updates hop).consistent h
    | reclaimOrphanInode id => rw [hc] at hop; cases hop; exact NsDb.reclaimOrphanInode_consistent h
    | burnId =>
      rw [hc] at hop
      cases hop
      exact { h with id_lt := fun i hi => Nat.lt_succ_of_lt (h.id_lt i hi) }
  · cases hs

theorem consistent_of_reach {t : Timestamp} {uid gid : Nat} {s : NsState}
    (h : Machine.Reach step IntoDirectory (boot t uid gid) s) : s.db.Consistent s.nextId :=
  h.invariant (I := fun s => s.db.Consistent s.nextId) (boot_consistent t uid gid)
    fun _ _ _ hs hr hstep => step_consistent hs hr hstep

end NsState

/-! ## The namespace is coherent -/

/-- The record that a scan row carries. -/
def DirScanValue.embedded : DirScanValue → Option Inode
  | withInode _ inode => some inode
  | reference _ => none

/-- What the tables promise to their readers. -/
structure NsDb.Coherent (db : NsDb) : Prop where
  /-- The entry rows and the scan rows are in bijection, with equal name, id and cookie. -/
  rows : ∀ d n i c, db.entries.get (d, n) = some (i, c) ↔ ∃ v, db.scans.get (d, c) = some (n, v) ∧ v.inodeId = i
  /-- A row carries the record of an inode other than a directory exactly while that has one link and a place. -/
  embedded_iff : ∀ d c n v l, db.scans.get (d, c) = some (n, v) → db.inodes.get v.inodeId = some (.leaf l) →
    (v.embedded.isSome ↔ l.nlink = 1 ∧ l.parent.isSome ∧ l.name.isSome)
  /-- A record that is carried is the inode's record. -/
  embedded_eq : ∀ d c n v inode, db.scans.get (d, c) = some (n, v) → v.embedded = some inode →
    db.inodes.get v.inodeId = some inode
  /-- A directory counts its entries. -/
  entry_count : ∀ i d, db.inodes.get i = some (.directory d) → d.entryCount = children db.entries i
  /-- A linked directory counts itself, its parent's entry and its subdirectories. -/
  dir_nlink : ∀ i d, db.inodes.get i = some (.directory d) → d.nlink ≠ 0 →
    d.nlink = 2 + subdirs db.inodes db.entries i
  /-- Every other inode counts the entries that name it. -/
  leaf_nlink : ∀ i l, db.inodes.get i = some (.leaf l) → l.nlink = links db.entries i
  /-- The orphans are the inodes without links. -/
  orphan_iff : ∀ i, (db.orphans.get i).isSome ↔ ∃ inode, db.inodes.get i = some inode ∧ inode.nlink = 0
  /-- The next cookie of a directory exceeds those in use. -/
  cookie_lt : ∀ d c, (db.scans.get (d, c)).isSome → c < db.readCookie d

theorem NsDb.ConsistentUpTo.coherent {db : NsDb} {next : Nat} (h : db.Consistent next) : db.Coherent where
  rows d n i c := by
    constructor
    · exact h.entry_scan.scan
    · rintro ⟨v, hv, rfl⟩; exact h.entry_scan.entry hv
  embedded_iff d c n v l hs hl := by
    have hok := h.scan_ok d c n v hs (by simp)
    obtain ⟨_, hplace⟩ := h.leaf_ok v.inodeId l hl
    cases v with
    | withInode i ino =>
      obtain ⟨hrec, hpl⟩ := hok
      rw [DirScanValue.inodeId_withInode, hrec] at hl
      cases hl
      obtain ⟨hp, hn⟩ := hpl l rfl
      simp [DirScanValue.embedded, hp, hn] at hplace ⊢
      exact hplace.1
    | reference i => simp [DirScanValue.embedded, hok l hl]
  embedded_eq d c n v inode hs hv := by
    have hok := h.scan_ok d c n v hs (by simp)
    cases v with
    | withInode i ino => cases hv; exact hok.1
    | reference i => cases hv
  entry_count i d hi := (h.dir_counted i d hi (by simp)).1
  dir_nlink i d hi hl := (h.dir_counted i d hi (by simp)).2 (Nat.pos_of_ne_zero hl)
  leaf_nlink i l hi := (h.leaf_ok i l hi).1
  orphan_iff := h.orphan_iff
  cookie_lt := h.cookie_lt

/-- **The namespace stays coherent**: after every sequence of requests from an empty root in which entries are renamed
into directories only. -/
theorem namespace_coherent {t : Timestamp} {uid gid : Nat} {s : NsState}
    (h : Machine.Reach NsState.step NsState.IntoDirectory (NsState.boot t uid gid) s) : s.db.Coherent :=
  (NsState.consistent_of_reach h).coherent

/-! ## Runs -/

/-- A request of the root user at time zero. -/
def NsRequest.byRoot (call : NsCall) : NsRequest := ⟨call, fun _ => ⟨0, 0⟩, .root⟩

/-- A directory, a file with a second link in it, a rename of the first link over another file, an unlink. -/
def sampleRun : List NsRequest :=
  [.byRoot (.mkdir 0 [100] {}), .byRoot (.create 0 [102] {}), .byRoot (.link 2 1 [103]),
    .byRoot (.create 1 [104] {}), .byRoot (.rename 0 [102] 1 [104] true false), .byRoot (.remove 1 [103] none false)]

theorem namespace_coherent_sample :
    ∃ s, run (guarded NsState.step NsState.IntoDirectory) (NsState.boot ⟨0, 0⟩ 0 0) sampleRun = some s ∧
      s.db.Coherent := by
  have hreach : Machine.Reach NsState.step NsState.IntoDirectory (NsState.boot ⟨0, 0⟩ 0 0) _ :=
    reach_of_run .init (l := sampleRun) rfl
  exact ⟨_, rfl, namespace_coherent hreach⟩

/-- A directory is carried by its row although it has two links, and a removed directory that is still open stays with
none: neither is what holds for files. -/
theorem directory_rows_differ :
    (∃ s, run NsState.step (NsState.boot ⟨0, 0⟩ 0 0) [.byRoot (.mkdir 0 [100] {})] = some s ∧
      ∃ d c n v inode, s.db.scans.get (d, c) = some (n, v) ∧ s.db.inodes.get v.inodeId = some inode ∧
        v.embedded.isSome ∧ inode.nlink ≠ 1) ∧
    ∃ s, run NsState.step (NsState.boot ⟨0, 0⟩ 0 0)
        [.byRoot (.mkdir 0 [100] {}), .byRoot (.remove 0 [100] (some true) true)] = some s ∧
      ∃ i d, s.db.inodes.get i = some (.directory d) ∧ d.nlink ≠ 2 + subdirs s.db.inodes s.db.entries i := by
  refine ⟨⟨_, rfl, 0, 3, [100], _, _, rfl, rfl, rfl, ?_⟩, ⟨_, rfl, 1, _, rfl, ?_⟩⟩ <;> decide

end ZeroFS
