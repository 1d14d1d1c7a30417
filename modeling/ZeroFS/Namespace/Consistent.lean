import ZeroFS.Namespace.Ops

/-!
# The consistency invariant of the namespace

`Consistent db next` relates the tables row by row: entry rows, scan rows, inode records, cookie counters, the orphan
set and the ids below `next`. It is followed through adding an entry, unlinking one, and rewriting a scan row.
-/

namespace ZeroFS

open Table Option

abbrev EntryTable := Table (InodeId × Name) (InodeId × Nat)
abbrev ScanTable := Table (InodeId × Nat) (Name × DirScanValue)
abbrev InodeTable := Table InodeId Inode

/-! ## Entry rows and scan rows -/

/-- The name and the id in the scan row of `d` at cookie `c`. -/
def scanKey (scans : ScanTable) (d : InodeId) (c : Nat) : Option (Name × InodeId) :=
  (scans.get (d, c)).map fun r => (r.1, r.2.inodeId)

/-- Entry rows and scan rows are the same triples of name, id and cookie, directory by directory. -/
def EntryScan (entries : EntryTable) (scans : ScanTable) : Prop :=
  ∀ d n i c, entries.get (d, n) = some (i, c) ↔ scanKey scans d c = some (n, i)

section Rows

variable {entries : EntryTable} {scans : ScanTable} {d : InodeId} {n : Name} {i : InodeId} {c : Nat} {v : DirScanValue}

theorem scanKey_put (scans : ScanTable) (d : InodeId) (c : Nat) (n : Name) (v : DirScanValue) (d' : InodeId)
    (c' : Nat) :
    scanKey (scans.put (d, c) (n, v)) d' c' = if d' = d ∧ c' = c then some (n, v.inodeId) else scanKey scans d' c' := by
  unfold scanKey
  rw [get_put]
  split <;> simp_all

theorem scanKey_del (scans : ScanTable) (d : InodeId) (c : Nat) (d' : InodeId) (c' : Nat) :
    scanKey (scans.del (d, c)) d' c' = if d' = d ∧ c' = c then none else scanKey scans d' c' := by
  unfold scanKey
  rw [get_del]
  split <;> simp_all

section

variable (h : EntryScan entries scans)
include h

theorem EntryScan.add (hn : entries.get (d, n) = none) (hc : scans.get (d, c) = none)
    (hv : v.inodeId = i) : EntryScan (entries.put (d, n) (i, c)) (scans.put (d, c) (n, v)) := by
  have hc' : scanKey scans d c = none := by simp [scanKey, hc]
  intro d' n' i' c'
  rw [get_put, scanKey_put, hv]
  have h1 := h d' n' i' c'
  grind

theorem EntryScan.unlink (he : entries.get (d, n) = some (i, c)) :
    EntryScan (entries.del (d, n)) (scans.del (d, c)) := by
  intro d' n' i' c'
  rw [get_del, scanKey_del]
  have h0 := h d n i c
  have h1 := h d' n' i' c'
  grind

theorem EntryScan.rewrite (he : entries.get (d, n) = some (i, c)) (hv : v.inodeId = i) :
    EntryScan entries (scans.put (d, c) (n, v)) := by
  intro d' n' i' c'
  rw [scanKey_put, hv]
  have h0 := h d n i c
  have h1 := h d' n' i' c'
  grind

theorem EntryScan.entry (hs : scans.get (d, c) = some (n, v)) :
    entries.get (d, n) = some (v.inodeId, c) := (h d n v.inodeId c).2 (by simp [scanKey, hs])

theorem EntryScan.scan (he : entries.get (d, n) = some (i, c)) :
    ∃ v, scans.get (d, c) = some (n, v) ∧ v.inodeId = i := by
  have hk := (h d n i c).1 he
  obtain ⟨⟨n', v⟩, hr, hv⟩ := map_eq_some_iff.1 hk
  cases hv
  exact ⟨v, hr, rfl⟩

end

end Rows

/-! ## Counting entries -/

/-- Is `id` the id of a directory record? -/
def IsDirId (inodes : InodeTable) (id : InodeId) : Prop := (inodes.get id).any Inode.isDirectory = true

instance (inodes : InodeTable) (id : InodeId) : Decidable (IsDirId inodes id) :=
  inferInstanceAs (Decidable ((inodes.get id).any Inode.isDirectory = true))

@[grind =] theorem isDirId_put (inodes : InodeTable) (k : InodeId) (ino : Inode) (i : InodeId) :
    IsDirId (inodes.put k ino) i ↔ if i = k then ino.isDirectory = true else IsDirId inodes i := by
  unfold IsDirId
  rw [get_put]
  split <;> simp

@[grind =] theorem isDirId_del (inodes : InodeTable) (k i : InodeId) :
    IsDirId (inodes.del k) i ↔ i ≠ k ∧ IsDirId inodes i := by
  unfold IsDirId
  rw [get_del]
  split <;> simp_all

theorem isDirId_of_get {inodes : InodeTable} {i : InodeId} {ino : Inode} (h : inodes.get i = some ino) :
    IsDirId inodes i ↔ ino.isDirectory = true := by
  simp [IsDirId, h]

def children (entries : EntryTable) (d : InodeId) : Nat := entries.count fun k _ => k.1 = d

def subdirs (inodes : InodeTable) (entries : EntryTable) (d : InodeId) : Nat :=
  entries.count fun k v => k.1 = d ∧ IsDirId inodes v.1

def links (entries : EntryTable) (i : InodeId) : Nat := entries.count fun _ v => v.1 = i

section Counts

variable {inodes' : InodeTable} (inodes : InodeTable) {entries : EntryTable} {d : InodeId} {n : Name} {i : InodeId}
  {c : Nat}

theorem children_add (h : entries.get (d, n) = none) (x : InodeId) :
    children (entries.put (d, n) (i, c)) x = children entries x + if d = x then 1 else 0 := by
  have := count_put (p := fun k (_ : InodeId × Nat) => k.1 = x) entries (d, n) (i, c)
  rw [h, elim_none] at this
  exact this

theorem children_unlink (h : entries.get (d, n) = some (i, c)) (x : InodeId) :
    children (entries.del (d, n)) x + (if d = x then 1 else 0) = children entries x := by
  have := count_del (p := fun k (_ : InodeId × Nat) => k.1 = x) entries (d, n)
  rw [h, elim_some] at this
  exact this

theorem links_add (h : entries.get (d, n) = none) (x : InodeId) :
    links (entries.put (d, n) (i, c)) x = links entries x + if i = x then 1 else 0 := by
  have := count_put (p := fun (_ : InodeId × Name) v => v.1 = x) entries (d, n) (i, c)
  rw [h, elim_none] at this
  exact this

theorem links_unlink (h : entries.get (d, n) = some (i, c)) (x : InodeId) :
    links (entries.del (d, n)) x + (if i = x then 1 else 0) = links entries x := by
  have := count_del (p := fun (_ : InodeId × Name) v => v.1 = x) entries (d, n)
  rw [h, elim_some] at this
  exact this

theorem subdirs_add (h : entries.get (d, n) = none) (x : InodeId) :
    subdirs inodes (entries.put (d, n) (i, c)) x =
      subdirs inodes entries x + if d = x ∧ IsDirId inodes i then 1 else 0 := by
  have := count_put (p := fun k (v : InodeId × Nat) => k.1 = x ∧ IsDirId inodes v.1) entries (d, n) (i, c)
  rw [h, elim_none] at this
  exact this

theorem subdirs_unlink (h : entries.get (d, n) = some (i, c)) (x : InodeId) :
    subdirs inodes (entries.del (d, n)) x + (if d = x ∧ IsDirId inodes i then 1 else 0) =
      subdirs inodes entries x := by
  have := count_del (p := fun k (v : InodeId × Nat) => k.1 = x ∧ IsDirId inodes v.1) entries (d, n)
  rw [h, elim_some] at this
  exact this

variable {inodes} in
theorem subdirs_congr (h : ∀ d n i c, entries.get (d, n) = some (i, c) → (IsDirId inodes i ↔ IsDirId inodes' i))
    (x : InodeId) : subdirs inodes entries x = subdirs inodes' entries x :=
  count_congr fun k v hv => and_congr_right fun _ => h k.1 k.2 v.1 v.2 hv

theorem children_eq_zero_iff : children entries d = 0 ↔ ∀ n v, entries.get (d, n) ≠ some v := by
  unfold children
  rw [count_eq_zero_iff]
  exact ⟨fun h n v hv => h (d, n) v hv rfl, fun h k v hv hk => h k.2 v (by rw [← hk]; exact hv)⟩

theorem subdirs_eq_zero_of_children (h : children entries d = 0) : subdirs inodes entries d = 0 := by
  unfold subdirs
  rw [count_eq_zero_iff]
  rintro ⟨d', n⟩ v hv ⟨rfl, _⟩
  exact children_eq_zero_iff.1 h n v hv

theorem links_pos (h : entries.get (d, n) = some (i, c)) : 0 < links entries i := count_pos h rfl

theorem links_eq_zero_iff : links entries i = 0 ↔ ∀ d n c, entries.get (d, n) ≠ some (i, c) := by
  unfold links
  rw [count_eq_zero_iff]
  constructor
  · intro h d n c hv; exact h (d, n) (i, c) hv rfl
  · rintro h ⟨d, n⟩ ⟨j, c⟩ hv rfl; exact h d n c hv

end Counts

/-! ## The invariant, row by row -/

/-- A scan row that embeds a record embeds the current one; a file is embedded exactly while it is placed. -/
def ScanOk (inodes : InodeTable) (d : InodeId) (n : Name) : DirScanValue → Prop
  | .withInode i ino => inodes.get i = some ino ∧ ∀ l, ino = .leaf l → l.parent = some d ∧ l.name = some n
  | .reference i => ∀ l, inodes.get i = some (.leaf l) → l.parent = none

/-- An entry is held by a live directory and names an inode that is placed nowhere else. -/
def EntryOk (inodes : InodeTable) (d : InodeId) (n : Name) (i : InodeId) : Prop :=
  (∃ dd, inodes.get d = some (.directory dd) ∧ 0 < dd.nlink) ∧
  ((∃ l, inodes.get i = some (.leaf l) ∧ (l.parent = none ∨ l.parent = some d ∧ l.name = some n)) ∨
    ∃ dd, inodes.get i = some (.directory dd) ∧ dd.parent = d ∧ dd.name = some n ∧ d ≠ i)

/-- A leaf counts its links; it is placed nowhere, or it has one link and is placed at that entry. -/
def LeafOk (entries : EntryTable) (i : InodeId) (l : LeafInode) : Prop :=
  l.nlink = links entries i ∧
  (l.parent = none ∧ l.name = none ∨
    ∃ p n c, l.parent = some p ∧ l.name = some n ∧ l.nlink = 1 ∧ entries.get (p, n) = some (i, c))

/-- A directory is unlinked, or the root, or placed at its entry. -/
def DirPlaced (entries : EntryTable) (i : InodeId) (d : DirectoryInode) : Prop :=
  d.nlink = 0 ∧ d.name = none ∧ i ≠ 0 ∨
  0 < d.nlink ∧ (d.name = none ∧ i = 0 ∨
    ∃ n c, d.name = some n ∧ i ≠ 0 ∧ entries.get (d.parent, n) = some (i, c))

/-- A directory counts its entries, and a linked one its subdirectories. -/
def DirCounted (inodes : InodeTable) (entries : EntryTable) (i : InodeId) (d : DirectoryInode) : Prop :=
  d.entryCount = children entries i ∧ (0 < d.nlink → d.nlink = 2 + subdirs inodes entries i)

section

variable {entries entries' : EntryTable} {i : InodeId} {d : DirectoryInode}

theorem LeafOk.frame {l : LeafInode} (h : LeafOk entries i l)
    (hl : links entries' i = links entries i)
    (he : ∀ p n c, entries.get (p, n) = some (i, c) → entries'.get (p, n) = some (i, c)) : LeafOk entries' i l := by
  refine ⟨h.1.trans hl.symm, h.2.imp_right ?_⟩
  rintro ⟨p, n, c, hp, hn, h1, hent⟩
  exact ⟨p, n, c, hp, hn, h1, he p n c hent⟩

theorem DirPlaced.frame (h : DirPlaced entries i d)
    (he : ∀ p n c, entries.get (p, n) = some (i, c) → entries'.get (p, n) = some (i, c)) :
    DirPlaced entries' i d := by
  refine h.imp_right fun ⟨hd, hplace⟩ => ⟨hd, hplace.imp_right ?_⟩
  rintro ⟨n, c, hn, h0, hent⟩
  exact ⟨n, c, hn, h0, he _ n c hent⟩

/-- The place of a directory that carries a name. -/
theorem DirPlaced.entry (h : DirPlaced entries i d) {n : Name}
    (hn : d.name = some n) : 0 < d.nlink ∧ i ≠ 0 ∧ ∃ c, entries.get (d.parent, n) = some (i, c) := by
  rcases h with ⟨_, hn', _⟩ | ⟨hl, ⟨hn', _⟩ | ⟨n', c, hn', h0, he⟩⟩ <;> rw [hn] at hn' <;> cases hn'
  exact ⟨hl, h0, c, he⟩

end

namespace NsDb

/-- The tables agree, except that the directories in `stale` may have wrong counts and an old copy in their scan row:
their entries have changed and their record has not been saved yet. -/
structure ConsistentUpTo (db : NsDb) (stale : List InodeId) (next : Nat) : Prop where
  entry_scan : EntryScan db.entries db.scans
  scan_ok : ∀ d c n v, db.scans.get (d, c) = some (n, v) → v.inodeId ∉ stale → ScanOk db.inodes d n v
  entry_ok : ∀ d n i c, db.entries.get (d, n) = some (i, c) → EntryOk db.inodes d n i
  leaf_ok : ∀ i l, db.inodes.get i = some (.leaf l) → LeafOk db.entries i l
  dir_placed : ∀ i d, db.inodes.get i = some (.directory d) → DirPlaced db.entries i d
  dir_counted : ∀ i d, db.inodes.get i = some (.directory d) → i ∉ stale → DirCounted db.inodes db.entries i d
  root_dir : IsDirId db.inodes 0
  stale_dir : ∀ i ∈ stale, IsDirId db.inodes i
  orphan_iff : ∀ i, (db.orphans.get i).isSome ↔ ∃ ino, db.inodes.get i = some ino ∧ ino.nlink = 0
  cookie_lt : ∀ (d : InodeId) (c : Nat), (db.scans.get (d, c)).isSome → c < db.readCookie d
  id_lt : ∀ i : Nat, (db.inodes.get i).isSome → i < next

abbrev Consistent (db : NsDb) (next : Nat) : Prop := db.ConsistentUpTo [] next

end NsDb

end ZeroFS
