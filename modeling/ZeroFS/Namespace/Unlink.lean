import ZeroFS.Namespace.Preserve

/-!
# Dropping and moving entries

`ConsistentUpTo.dropEntry` removes a link with its entry: one link less, an orphan, or nothing left. `Moves.kept`
moves an entry to a free name. The directories whose entries change are stale afterwards.
-/

namespace ZeroFS
namespace NsDb

open Table

variable {db : NsDb} {next : Nat} {stale : List InodeId} {id : InodeId}

/-! ## Dropping a link with its entry -/

/-- What is left of a record that lost a link: nothing, or a placeless record with one link less. -/
def LinkDropped : Inode → Option Inode → Prop
  | .leaf l, none => l.nlink ≤ 1
  | .directory _, none => True
  | .leaf l, some (.leaf l') => l'.nlink = l.nlink - 1 ∧
      (l'.parent = none ∧ l'.name = none ∨ 1 < l.nlink ∧ l'.parent = l.parent ∧ l'.name = l.name)
  | .directory d, some (.directory d') => d'.nlink = 0 ∧ d'.name = none ∧ d'.entryCount = d.entryCount
  | _, _ => False

variable {left : Option Inode} {dirid j fromDir toDir : InodeId} {name fromName toName : Name} {c k : Nat}
  {inode : Inode} {inodes : InodeTable} {entries : EntryTable}

theorem dropLink_commit (db : NsDb) (t : Timestamp) (id : InodeId) (defer : Bool) (inode : Inode) :
    ∃ (left : Option Inode) (inodes : InodeTable) (counters : Table InodeId Nat) (orphans : Table InodeId Unit),
      db.commit (dropLink t id defer inode) =
        { db with inodes := inodes, counters := counters, orphans := orphans } ∧
      LinkDropped inode left ∧
      (∀ j, inodes.get j = if j = id then left else db.inodes.get j) ∧
      (∀ j, j ≠ id ∨ inode.isDirectory = false → counters.get j = db.counters.get j) ∧
      (∀ j, (orphans.get j).isSome ↔
        (db.orphans.get j).isSome ∨ j = id ∧ ∃ ino, left = some ino ∧ ino.nlink = 0) := by
  cases inode with
  | leaf l =>
    by_cases hl : 1 < l.nlink
    · simp only [dropLink, if_pos hl]
      refine ⟨_, _, _, _, rfl, ?_, fun j => get_put .., fun _ _ => rfl, fun j => ?_⟩
      · exact ⟨rfl, .inr ⟨hl, rfl, rfl⟩⟩
      · grind [apply]
    simp only [dropLink, if_neg hl]
    cases defer with
    | true =>
      refine ⟨_, _, _, _, rfl, ?_, fun j => get_put .., fun _ _ => rfl, fun j => ?_⟩
      · exact ⟨(Nat.sub_eq_zero_of_le (Nat.le_of_not_lt hl)).symm, .inl ⟨rfl, rfl⟩⟩
      · grind [apply]
    | false =>
      refine ⟨none, _, _, _, rfl, ?_, fun j => get_del .., fun _ _ => rfl, fun j => ?_⟩
      · exact Nat.le_of_not_lt hl
      · grind [apply]
  | directory d =>
    cases defer with
    | true =>
      refine ⟨_, _, _, _, rfl, ?_, fun j => get_put .., fun _ _ => rfl, fun j => ?_⟩
      · exact ⟨rfl, rfl, rfl⟩
      · grind [apply]
    | false =>
      refine ⟨none, _, _, _, rfl, trivial, fun j => get_del .., fun j hj => ?_, fun j => ?_⟩
      · grind [apply]
      · grind [apply]

theorem LinkDropped.not_dir {l : LeafInode} (h : LinkDropped (.leaf l) left) :
    left.any Inode.isDirectory = false := by
  rcases left with _ | _ | _
  · rfl
  · rfl
  · exact h.elim

theorem ConsistentUpTo.dir_last_entry {d : DirectoryInode}
    (h : db.ConsistentUpTo stale next) (hi : db.inodes.get id = some (.directory d))
    (he : db.entries.get (dirid, name) = some (id, c)) (d' : InodeId) (n : Name) (c' : Nat) :
    (db.entries.del (dirid, name)).get (d', n) ≠ some (id, c') := by
  intro he'
  obtain ⟨hkey, he'⟩ := of_del he'
  obtain ⟨hp, hn, _⟩ := h.dir_entry hi he
  obtain ⟨hp', hn', _⟩ := h.dir_entry hi he'
  rw [hn] at hn'
  cases hn'
  exact hkey (by rw [← hp, ← hp'])

/-- What is left of the dropped inode counts as a subdirectory nowhere else. -/
theorem ConsistentUpTo.subdirs_drop
    (h : db.ConsistentUpTo stale next) (he : db.entries.get (dirid, name) = some (id, c))
    (hi : db.inodes.get id = some inode) (hleft : LinkDropped inode left)
    (hin : ∀ j, inodes.get j = if j = id then left else db.inodes.get j) (x : InodeId) :
    subdirs inodes (db.entries.del (dirid, name)) x = subdirs db.inodes (db.entries.del (dirid, name)) x := by
  apply subdirs_congr
  intro d n i ci hent
  unfold IsDirId
  rw [hin]
  split
  · rename_i hid
    subst hid
    cases inode with
    | directory d₀ => exact absurd hent (h.dir_last_entry hi he d n ci)
    | leaf l => simp [hleft.not_dir, hi]
  · rfl

/-- The number of subdirectories of each directory after a link and its entry went. -/
theorem ConsistentUpTo.subdirs_dropEntry (t : Timestamp)
    (defer : Bool) (h : db.ConsistentUpTo stale next) (he : db.entries.get (dirid, name) = some (id, c))
    (hi : db.inodes.get id = some inode) (x : InodeId) :
    subdirs (db.commit (dropLink t id defer inode)).inodes (db.entries.del (dirid, name)) x +
      (if dirid = x ∧ inode.isDirectory = true then 1 else 0) = subdirs db.inodes db.entries x := by
  obtain ⟨left, inodes, counters, orphans, hcommit, hleft, hin, -, -⟩ := dropLink_commit db t id defer inode
  rw [hcommit, h.subdirs_drop he hi hleft hin, ← subdirs_unlink db.inodes he x]
  simp only [isDirId_of_get hi]

@[simp] theorem dropLink_entries (db : NsDb) (t : Timestamp) (id : InodeId) (defer : Bool) (inode : Inode) :
    (db.commit (dropLink t id defer inode)).entries = db.entries := by
  obtain ⟨_, _, _, _, hcommit, -⟩ := dropLink_commit db t id defer inode
  rw [hcommit]

theorem dropLink_inodes (db : NsDb) (t : Timestamp) (defer : Bool) (inode : Inode) (hj : j ≠ id) :
    (db.commit (dropLink t id defer inode)).inodes.get j = db.inodes.get j := by
  obtain ⟨_, _, _, _, hcommit, _, hin, -⟩ := dropLink_commit db t id defer inode
  rw [hcommit]
  exact (hin j).trans (if_neg hj)

theorem dropLink_counters (db : NsDb) (t : Timestamp) (defer : Bool) (inode : Inode) (hj : j ≠ id) :
    (db.commit (dropLink t id defer inode)).counters.get j = db.counters.get j := by
  obtain ⟨_, _, _, _, hcommit, _, _, hcnt, -⟩ := dropLink_commit db t id defer inode
  rw [hcommit]
  exact hcnt j (.inl hj)

theorem ConsistentUpTo.dropEntry (t : Timestamp)
    (defer : Bool) (h : db.Consistent next) (he : db.entries.get (dirid, name) = some (id, c))
    (hi : db.inodes.get id = some inode) (hempty : ∀ d, inode = .directory d → d.entryCount = 0) :
    (db.commit (dropLink t id defer inode ++ unlinkEntry dirid name c)).ConsistentUpTo [dirid] next := by
  obtain ⟨left, inodes, counters, orphans, hcommit, hleft, hin, hcnt, horph⟩ := dropLink_commit db t id defer inode
  have hok := h.entry_ok _ _ _ _ he
  have hself : links db.entries id = links (db.entries.del (dirid, name)) id + 1 := by
    rw [← links_unlink he id, if_pos rfl]
  have hlast : ∀ d, inode = .directory d → ∀ d' n c', (db.entries.del (dirid, name)).get (d', n) ≠ some (id, c') := by
    rintro d rfl
    exact h.dir_last_entry hi he
  have hkids : ∀ d, inode = .directory d → children db.entries id = 0 := by
    rintro d rfl
    rw [← (h.dir_counted id d hi (by simp)).1, hempty d rfl]
  have hgone : left = none → ∀ d' n c', (db.entries.del (dirid, name)).get (d', n) ≠ some (id, c') := by
    rintro rfl
    cases inode with
    | directory d => exact hlast d rfl
    | leaf l =>
      apply links_eq_zero_iff.1
      have := (h.leaf_ok id l hi).1
      have : l.nlink ≤ 1 := hleft
      omega
  have hleaf : ∀ l', left = some (.leaf l') → l'.nlink + 1 = links db.entries id ∧ l'.parent = none ∧ l'.name = none ∧
      inode.isDirectory = false := by
    rintro l' rfl
    cases inode with
    | directory d => exact hleft.elim
    | leaf l => have := h.leaf_ok id l hi; obtain ⟨hnl, hpl⟩ := hleft; grind [LeafOk]
  have hsub : ∀ d', left = some (.directory d') → d'.nlink = 0 ∧ d'.name = none ∧ d'.entryCount = 0 ∧
      inode.isDirectory = true := by
    rintro d' rfl
    cases inode with
    | leaf l => exact hleft.elim
    | directory d => exact ⟨hleft.1, hleft.2.1, hleft.2.2.trans (hempty d rfl), rfl⟩
  have hne : dirid ≠ id := by
    rintro rfl
    grind [EntryOk]
  have hdid : ∀ j, IsDirId inodes j ↔ if j = id then left.any Inode.isDirectory = true else IsDirId db.inodes j := by
    intro j
    unfold IsDirId
    rw [hin]
    split <;> rfl
  have hkind := h.subdirs_drop he hi hleft hin
  rw [commit_append, hcommit]
  simp only [unlinkEntry, commit_cons, commit_nil, apply]
  refine ⟨h.entry_scan.unlink he, ?_, ?_, ?_, ?_, ?_, ?_, ?_, ?_, ?_, ?_⟩
  · intro d c' n v hs hst
    have hold := h.scan_ok d c' n v
    have hent := fun e => h.entry_scan.entry (d := d) (c := c') (n := n) (v := v) e
    by_cases hv : v.inodeId = id
    · cases left with
      | none => grind
      | some ino => cases ino <;> cases v <;> cases inode <;> grind [ScanOk, EntryOk]
    · cases v <;> grind [ScanOk]
  · intro d n i c' he'
    have hold := h.entry_ok d n i c' (by grind)
    have hdd : d ≠ id := by
      rintro rfl
      cases inode with
      | leaf l => grind [EntryOk]
      | directory d₀ => have := children_eq_zero_iff.1 (hkids d₀ rfl) n (i, c'); grind
    by_cases hid : i = id
    · cases left with
      | none => grind
      | some ino => cases ino <;> cases inode <;> grind [EntryOk]
    · grind [EntryOk]
  · intro i l hi'
    have hcount := links_unlink he i
    by_cases hid : i = id
    · have := hleaf l (by grind); refine ⟨by grind, .inl ⟨this.2.1, this.2.2.1⟩⟩
    · refine (h.leaf_ok i l (by grind)).frame (by grind) ?_; grind
  · intro i d hi'
    by_cases hid : i = id
    · subst hid; have := hsub d (by grind); exact .inl ⟨this.1, this.2.1, h.ne_root he⟩
    · refine (h.dir_placed i d (by grind)).frame ?_; grind
  · intro i d hi' hst
    have h1 := children_unlink he i
    have h2 := subdirs_unlink db.inodes he i
    have hold := h.dir_counted i d
    by_cases hid : i = id
    · cases inode with
      | leaf l => grind
      | directory d₀ => refine ⟨by grind, by grind⟩
    · grind [DirCounted]
  · have := h.root_dir; have := h.ne_root he; grind
  · have := h.isDirId_entry he; grind
  · intro i
    have := h.orphan_iff i
    have := h.nlink_ne_zero he hi
    by_cases hid : i = id
    · grind
    · grind
  · intro d c' hs
    have hrow : (db.scans.get (d, c')).isSome := by grind
    have := h.cookie_lt d c' hrow
    have hd : d ≠ id ∨ inode.isDirectory = false := by
      cases inode with
      | leaf l => exact .inr rfl
      | directory d₀ =>
        refine .inl ?_
        rintro rfl
        obtain ⟨⟨n, v⟩, hv⟩ := Option.isSome_iff_exists.1 hrow
        exact children_eq_zero_iff.1 (hkids d₀ rfl) n _ (h.entry_scan.entry hv)
    simpa [readCookie, hcnt d hd] using this
  · intro i; have := h.id_lt i; grind

/-! ## Moving an entry -/

@[simp, grind =] theorem isDirectory_relocate (d d' : InodeId) (n : Name) (ino : Inode) :
    (relocate d d' n ino).isDirectory = ino.isDirectory := by
  cases ino with
  | directory dd => rfl
  | leaf l => unfold relocate; dsimp only; split <;> rfl

@[simp, grind =] theorem nlink_relocate (d d' : InodeId) (n : Name) (ino : Inode) :
    (relocate d d' n ino).nlink = ino.nlink := by
  cases ino with
  | directory dd => rfl
  | leaf l => unfold relocate; dsimp only; split <;> rfl

/-- The entry of `id` can move to a free name of a linked directory. -/
structure Moves (db : NsDb) (stale : List InodeId) (next : Nat) (fromDir : InodeId) (fromName : Name)
    (toDir : InodeId) (toName : Name) (id : InodeId) (c c' : Nat) (source : Inode) : Prop where
  consistent : db.ConsistentUpTo stale next
  from_stale : fromDir ∈ stale
  to_stale : toDir ∈ stale
  not_stale : id ∉ stale
  entry : db.entries.get (fromDir, fromName) = some (id, c)
  free : db.entries.get (toDir, toName) = none
  source : db.inodes.get id = some source
  dir : ∃ dir, db.inodes.get toDir = some (.directory dir) ∧ 0 < dir.nlink
  cookie : c' = if fromDir = toDir then c else db.readCookie toDir

namespace Moves

variable {c' c₁ : Nat} {source : Inode} {d i : InodeId} {n : Name} {v : DirScanValue}
  (m : Moves db stale next fromDir fromName toDir toName id c c' source)
include m

theorem free_del : (db.entries.del (fromDir, fromName)).get (toDir, toName) = none := by rw [get_del, m.free, ite_self]

/-- A directory that stays in its directory keeps its parent. -/
theorem parent {dd : DirectoryInode} (hs : source = .directory dd) :
    (if fromDir = toDir then dd.parent else toDir) = toDir := by
  subst hs
  split
  · rename_i hsame; rw [(m.consistent.dir_entry m.source m.entry).1, hsame]
  · rfl

/-- The moved inode has no other entry unless it is a leaf with several links. -/
theorem other (he₁ : (db.entries.del (fromDir, fromName)).get (d, n) = some (id, c₁)) :
    ∃ l, source = .leaf l ∧ l.nlink ≠ 1 ∧ l.parent = none := by
  obtain ⟨h, -, -, -, he, -, hsrc, -, -⟩ := m
  have hent : db.entries.get (d, n) = some (id, c₁) := by grind
  have hcount := links_unlink he id
  have hpos := links_pos he₁
  cases source with
  | leaf l => have := h.leaf_ok id l hsrc; grind [LeafOk]
  | directory dd => have h1 := h.dir_entry hsrc he; have h2 := h.dir_entry hsrc hent; grind

theorem scan_ok
    (hs : ((db.scans.del (fromDir, c)).put (toDir, c')
      (toName,
      .of id (if (relocate fromDir toDir toName source).nlink = 1 then some (relocate fromDir toDir toName source)
      else none))).get (d, c₁) = some (n, v)) (hst : v.inodeId ∉ stale) :
    ScanOk (db.inodes.put id (relocate fromDir toDir toName source)) d n v := by
  have hscan := m.consistent.entry_scan.unlink m.entry
  rw [get_put] at hs
  split at hs
  · rename_i hkey
    cases hkey
    by_cases hn1 : (relocate fromDir toDir toName source).nlink = 1
    · rw [if_pos hn1] at hs
      cases hs
      refine ⟨get_put_self .., fun l hl => ?_⟩
      cases source <;> grind [relocate]
    rw [if_neg hn1] at hs
    cases hs
    intro l hl
    cases source with
    | directory dd => grind [relocate]
    | leaf l₀ => have := m.consistent.leaf_ok id l₀ m.source; grind [LeafOk, relocate]
  · have hent := hscan.entry hs
    have hold := m.consistent.scan_ok d c₁ n v (by grind) hst
    have hsrc := m.source
    by_cases hv : v.inodeId = id
    · obtain ⟨l, rfl, hl1, hlp⟩ := m.other (hv ▸ hent); cases v <;> grind [ScanOk, relocate]
    · cases v <;> grind [ScanOk]

theorem entry_ok (he₁ : ((db.entries.del (fromDir, fromName)).put (toDir, toName) (id, c')).get (d, n) = some (i, c₁)) :
    EntryOk (db.inodes.put id (relocate fromDir toDir toName source)) d n i := by
  have hlive : ∀ x : InodeId, (∃ dd, db.inodes.get x = some (.directory dd) ∧ 0 < dd.nlink) →
      ∃ dd, (db.inodes.put id (relocate fromDir toDir toName source)).get x = some (.directory dd) ∧ 0 < dd.nlink := by
    rintro x ⟨dd, hx, hl⟩
    by_cases hxi : x = id
    · subst hxi; cases m.source.symm.trans hx; exact ⟨_, get_put_self .., hl⟩
    · exact ⟨dd, by rw [get_put_ne hxi]; exact hx, hl⟩
  rcases cases_put he₁ with ⟨hkey, heq⟩ | ⟨-, hdel⟩
  · cases hkey
    cases heq
    refine ⟨hlive toDir m.dir, ?_⟩
    cases source with
    | directory dd => exact .inr ⟨_, get_put_self .., m.parent rfl, rfl, fun e => m.not_stale (e ▸ m.to_stale)⟩
    | leaf l => have := m.consistent.leaf_ok id l m.source; refine .inl ?_; grind [LeafOk, relocate]
  · have hold := m.consistent.entry_ok d n i c₁ (by grind)
    refine ⟨hlive d hold.1, ?_⟩
    by_cases hi : i = id
    · subst hi; obtain ⟨l, rfl, hl1, hlp⟩ := m.other hdel; grind [relocate]
    · rw [get_put_ne hi]; exact hold.2

theorem leaf_ok {l : LeafInode}
    (hi : (db.inodes.put id (relocate fromDir toDir toName source)).get i = some (.leaf l)) :
    LeafOk ((db.entries.del (fromDir, fromName)).put (toDir, toName) (id, c')) i l := by
  have h2 := links_add (i := id) (c := c') m.free_del i
  obtain ⟨h, -, -, -, he, hfree, hsrc, -, -⟩ := m
  have h1 := links_unlink he i
  rw [get_put] at hi
  split at hi
  · rename_i hid
    subst hid
    cases source with
    | directory dd => cases hi
    | leaf l₀ => have := h.leaf_ok i l₀ hsrc; refine ⟨by grind [LeafOk, relocate], ?_⟩; grind [LeafOk, relocate]
  · refine (h.leaf_ok i l hi).frame (by grind) ?_; grind

theorem dir_placed {x : DirectoryInode}
    (hi : (db.inodes.put id (relocate fromDir toDir toName source)).get i = some (.directory x)) :
    DirPlaced ((db.entries.del (fromDir, fromName)).put (toDir, toName) (id, c')) i x := by
  have hfree := m.free
  have he := m.entry
  rw [get_put] at hi
  split at hi
  · rename_i hid
    subst hid
    cases source with
    | leaf l₀ => grind [relocate]
    | directory dd =>
      cases hi
      refine .inr ⟨Nat.pos_of_ne_zero (m.consistent.nlink_ne_zero he m.source),
        .inr ⟨toName, c', rfl, m.consistent.ne_root he, ?_⟩⟩
      rw [m.parent rfl, get_put_self]
  · refine (m.consistent.dir_placed i x hi).frame ?_; grind

theorem dir_counted {x : DirectoryInode}
    (hi : (db.inodes.put id (relocate fromDir toDir toName source)).get i = some (.directory x)) (hst : i ∉ stale) :
    DirCounted (db.inodes.put id (relocate fromDir toDir toName source))
      ((db.entries.del (fromDir, fromName)).put (toDir, toName) (id, c')) i x := by
  have h2 := children_add (i := id) (c := c') m.free_del i
  have h4 := subdirs_add db.inodes (i := id) (c := c') m.free_del i
  obtain ⟨h, hfrom, hto, -, he, -, hsrc, -, -⟩ := m
  have hdir := isDirId_of_get hsrc
  have h1 := children_unlink he i
  have h3 := subdirs_unlink db.inodes he i
  have hold := h.dir_counted i
  have hkind : ∀ (entries : EntryTable) x,
      subdirs (db.inodes.put id (relocate fromDir toDir toName source)) entries x = subdirs db.inodes entries x := by
    intro entries
    apply subdirs_congr
    intro d n i c he
    grind
  obtain ⟨x₀, hx, hec, hnk⟩ : ∃ x₀, db.inodes.get i = some (.directory x₀) ∧ x₀.entryCount = x.entryCount ∧
      x₀.nlink = x.nlink := by
    rw [get_put] at hi
    split at hi
    · cases source <;> grind [relocate]
    · exact ⟨x, hi, rfl, rfl⟩
  grind [DirCounted]

/-- **Moving an entry** keeps the tables consistent, up to the directories that it leaves and enters. -/
theorem kept :
    (db.commit (moveEntry fromDir fromName toDir toName id c c' (relocate fromDir toDir toName source))).ConsistentUpTo
    stale next := by
  have m' := m
  obtain ⟨h, hfrom, hto, hid, he, hfree, hsrc, -, hc⟩ := m
  have hnl := h.nlink_ne_zero he hsrc
  have hdir := isDirId_of_get hsrc
  have hrow : (db.scans.del (fromDir, c)).get (toDir, c') = none := by
    have := h.fresh_cookie toDir
    grind
  have hctr : ∀ db' : NsDb, db'.commit (if fromDir = toDir then [] else [.putCounter toDir (c' + 1)]) =
      { db' with counters := if fromDir = toDir then db'.counters else db'.counters.put toDir (c' + 1) } := by
    intro db'; split <;> rfl
  unfold NsDb.moveEntry
  rw [commit_append, commit_append, commit_append, hctr]
  simp only [unlinkEntry, add, commit_cons, commit_nil, apply]
  refine ⟨(h.entry_scan.unlink he).add m'.free_del hrow (by simp), fun d c₁ n v hs hst => m'.scan_ok hs hst,
    fun d n i c₁ he₁ => m'.entry_ok he₁, fun i l hi => m'.leaf_ok hi, fun i x hi => m'.dir_placed hi,
    fun i x hi hst => m'.dir_counted hi hst, ?_, ?_, ?_, ?_, ?_⟩
  · have := h.root_dir; grind
  · intro i hi; have := h.stale_dir i hi; grind
  · intro i; have := h.orphan_iff i; grind
  · intro d c₁
    have := h.cookie_lt d c₁
    obtain ⟨v, hv, _⟩ := h.entry_scan.scan he
    grind [readCookie]
  · intro i; have := h.id_lt i; grind

end Moves

theorem children_move
    (he : entries.get (fromDir, fromName) = some (id, c)) (hfree : entries.get (toDir, toName) = none) (x : InodeId) :
    children ((entries.del (fromDir, fromName)).put (toDir, toName) (id, k)) x + (if fromDir = x then 1 else 0) =
      children entries x + if toDir = x then 1 else 0 := by
  have hfree' : (entries.del (fromDir, fromName)).get (toDir, toName) = none := by
    rw [get_del, hfree, ite_self]
  rw [children_add hfree', ← children_unlink he x]
  omega

theorem subdirs_move {inodes' : InodeTable} (hkind : ∀ i, IsDirId inodes' i ↔ IsDirId inodes i)
    (he : entries.get (fromDir, fromName) = some (id, c)) (hfree : entries.get (toDir, toName) = none) (x : InodeId) :
    subdirs inodes' ((entries.del (fromDir, fromName)).put (toDir, toName) (id, k)) x +
        (if fromDir = x ∧ IsDirId inodes id then 1 else 0) =
      subdirs inodes entries x + if toDir = x ∧ IsDirId inodes id then 1 else 0 := by
  have hfree' : (entries.del (fromDir, fromName)).get (toDir, toName) = none := by
    rw [get_del, hfree, ite_self]
  rw [subdirs_congr (fun _ _ i _ _ => hkind i), subdirs_add inodes hfree', ← subdirs_unlink inodes he x]
  omega

theorem moveEntry_inodes (db : NsDb) (fromDir : InodeId) (fromName : Name) (toDir : InodeId) (toName : Name)
    (id : InodeId) (c k : Nat) (source : Inode) :
    (db.commit (moveEntry fromDir fromName toDir toName id c k source)).inodes = db.inodes.put id source := by
  unfold NsDb.moveEntry
  split <;> rfl

theorem moveEntry_entries (db : NsDb) (fromDir : InodeId) (fromName : Name) (toDir : InodeId) (toName : Name)
    (id : InodeId) (c k : Nat) (source : Inode) :
    (db.commit (moveEntry fromDir fromName toDir toName id c k source)).entries =
      (db.entries.del (fromDir, fromName)).put (toDir, toName) (id, k) := by
  unfold NsDb.moveEntry
  split <;> rfl

end NsDb
end ZeroFS
