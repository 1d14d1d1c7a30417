import ZeroFS.Namespace.Unlink

/-!
# The transactions keep the namespace consistent

One theorem for each operation but `rename`, which peels the checks off the operation and composes the edits.
-/

namespace ZeroFS
namespace NsDb

open Table

variable {db : NsDb} {next : Nat} {now : Nat → Timestamp} {creds : Credentials} {ws : List NsWrite} {id : InodeId}

/-! ## What the checks establish -/

section

variable {inode : Inode} {dir dir' : DirectoryInode} {name : Name} {i dirid fileid : InodeId} {db₁ : NsDb}
  {c : Nat} {attr : SetAttributes} {l : LeafInode} {unembed : List NsWrite} {expected : Option Bool}
  {defer : Bool}

theorem getInode_eq_ok : db.getInode id = .ok inode ↔ db.inodes.get id = some inode := by
  unfold getInode
  cases db.inodes.get id with
  | none => exact ⟨nofun, nofun⟩
  | some x => exact ⟨fun h => by cases h; rfl, fun h => by cases h; rfl⟩

theorem getEntryWithCookie_eq_ok {dir : InodeId} {e : InodeId × Nat} :
    db.getEntryWithCookie dir name = .ok e ↔ db.entries.get (dir, name) = some e := by
  unfold getEntryWithCookie
  cases db.entries.get (dir, name) with
  | none => exact ⟨nofun, nofun⟩
  | some x => exact ⟨fun h => by cases h; rfl, fun h => by cases h; rfl⟩

theorem entryExists_eq_false {dir : InodeId} :
    ¬db.entryExists dir name = true ↔ db.entries.get (dir, name) = none := by
  simp [entryExists]

theorem isDirId_get {inodes : InodeTable} (h : IsDirId inodes i) :
    ∃ d, inodes.get i = some (.directory d) := by
  unfold IsDirId at h
  rcases hi : inodes.get i with _ | _ | d
  · rw [hi] at h; cases h
  · rw [hi] at h; cases h
  · exact ⟨d, rfl⟩

/-- The parent of a new entry is a linked directory without that name. -/
theorem newEntryParent_ok
    (h : db.newEntryParent creds dirid name = .ok dir) :
    db.inodes.get dirid = some (.directory dir) ∧ dir.nlink ≠ 0 ∧ db.entries.get (dirid, name) = none := by
  obtain ⟨inode, hi, h⟩ := bind_eq_ok.1 h
  iterate 2 obtain ⟨_, _, h⟩ := bind_eq_ok.1 h
  cases inode with
  | leaf l => cases h
  | directory d =>
    obtain ⟨_, hl, h⟩ := bind_eq_ok.1 h
    obtain ⟨_, he, h⟩ := bind_eq_ok.1 h
    cases h
    exact ⟨getInode_eq_ok.1 hi, throwIf_eq_ok.1 hl, entryExists_eq_false.1 (throwIf_eq_ok.1 he)⟩

/-! ## Creating -/

/-- A new child is added to a directory that may get it. -/
def Creates (db : NsDb) (now : Nat → Timestamp) (creds : Credentials) (id dirid : InodeId) (name : Name)
    (ws : List NsWrite) : Prop :=
  ∃ dir child, db.newEntryParent creds dirid name = .ok dir ∧ NewChild dirid name child ∧
    ws = db.addChild dirid name (withChild dir child (now 0)) id child

theorem newEntry_creates {f : DirectoryInode → Except FsError Inode}
    (hf : ∀ dir child, f dir = .ok child → NewChild dirid name child)
    (hop : db.newEntry now creds id dirid name f = .ok ws) : Creates db now creds id dirid name ws := by
  obtain ⟨dir, hd, hop⟩ := bind_eq_ok.1 hop
  obtain ⟨child, hc, hop⟩ := bind_eq_ok.1 hop
  cases hop
  exact ⟨dir, child, hd, hf dir child hc, rfl⟩

theorem create_creates (hop : db.create now creds id dirid name attr = .ok ws) :
    Creates db now creds id dirid name ws := by
  obtain ⟨_, _, hop⟩ := bind_eq_ok.1 hop
  refine newEntry_creates (fun dir child hc => ?_) hop
  cases hc
  exact ⟨rfl, rfl, rfl⟩

theorem mknod_creates {ftype : FileType} {rdev : Option (Nat × Nat)}
    (hop : db.mknod now creds id dirid name ftype attr rdev = .ok ws) : Creates db now creds id dirid name ws := by
  iterate 2 obtain ⟨_, _, hop⟩ := bind_eq_ok.1 hop
  refine newEntry_creates (fun dir child hc => ?_) hop
  split at hc <;> cases hc
  exact ⟨rfl, rfl, rfl⟩

theorem symlink_creates {target : List UInt8} (hop : db.symlink now creds id dirid name target attr = .ok ws) :
    Creates db now creds id dirid name ws := by
  obtain ⟨_, _, hop⟩ := bind_eq_ok.1 hop
  refine newEntry_creates (fun dir child hc => ?_) hop
  cases hc
  exact ⟨rfl, rfl, rfl⟩

theorem mkdir_creates (hop : db.mkdir now creds id dirid name attr = .ok ws) :
    Creates db now creds id dirid name ws := by
  obtain ⟨_, _, hop⟩ := bind_eq_ok.1 hop
  refine newEntry_creates (fun dir child hc => ?_) hop
  obtain ⟨_, _, hc⟩ := bind_eq_ok.1 hc
  cases hc
  exact ⟨rfl, rfl, rfl, rfl⟩

section

variable (h : db.Consistent next)
include h

/-- Settling the directory that got one entry more. -/
theorem Consistent.settleAdded {next₁ : Nat} (h₁ : db₁.ConsistentUpTo [dirid] next₁)
    (hd : db.inodes.get dirid = some (.directory dir)) (hlink : dir.nlink ≠ 0)
    (hfree : db.entries.get (dirid, name) = none) (hd₁ : db₁.inodes.get dirid = some (.directory dir))
    (he₁ : db₁.entries = db.entries.put (dirid, name) (i, c))
    (hkind : ∀ d n j c, db.entries.get (d, n) = some (j, c) → (IsDirId db₁.inodes j ↔ IsDirId db.inodes j))
    (hp : dir'.parent = dir.parent) (hn : dir'.name = dir.name) (hc : dir'.entryCount = dir.entryCount + 1)
    (hl : dir'.nlink = dir.nlink + if IsDirId db₁.inodes i then 1 else 0) :
    (db₁.commit ([.saveInode dirid (.directory dir')] ++ db.refreshOwnEntry dirid dir')).Consistent next₁ := by
  have hcount := h.dir_counted dirid dir hd (by simp)
  refine h₁.settle hd₁ hp hn ?_ ⟨?_, fun _ => ?_⟩ ?_
  · omega
  · rw [hc, he₁, hcount.1, children_add hfree, if_pos rfl]
  · rw [hl, he₁, hcount.2 (Nat.pos_of_ne_zero hlink), subdirs_add _ hfree, subdirs_congr hkind]
    simp only [true_and]
    omega
  intro n hname
  obtain ⟨_, _, c, he⟩ := (h.dir_placed dirid dir hd).entry hname
  rw [he₁, get_put_ne]
  intro hkey
  rw [hkey, hfree] at he
  cases he

theorem Consistent.addChild {child : Inode}
    (hd : db.newEntryParent creds dirid name = .ok dir) (hchild : NewChild dirid name child) (t : Timestamp) :
    (db.commit (db.addChild dirid name (withChild dir child t) next child)).Consistent (next + 1) := by
  obtain ⟨hdir, hlink, hfree⟩ := newEntryParent_ok hd
  have hnext := h.get_next
  have hne : dirid ≠ next := by
    rintro rfl
    rw [hnext] at hdir
    cases hdir
  have hadd := h.addNew hdir hlink hfree hchild
  unfold NsDb.addChild
  rw [List.append_assoc, commit_append]
  refine Consistent.settleAdded h hadd hdir hlink hfree ?_ rfl ?_ rfl rfl rfl ?_
  · simp only [add, commit_append, commit_cons, commit_nil, apply]; rw [get_put_ne hne]; exact hdir
  · intro d n j c he
    simp only [add, commit_append, commit_cons, commit_nil, apply]
    rw [isDirId_put, if_neg]
    rintro rfl
    exact h.no_entry hnext d n c he
  · simp only [add, commit_append, commit_cons, commit_nil, apply, isDirId_put, if_true, withChild,
      DirectoryInode.touch]
    split <;> rfl

theorem Creates.consistent (hc : Creates db now creds next dirid name ws) : (db.commit ws).Consistent (next + 1) := by
  obtain ⟨dir, child, hd, hchild, rfl⟩ := hc
  exact Consistent.addChild h hd hchild _

/-! ## link -/

theorem unembeds_of_ok
    (hi : db.inodes.get id = some (.leaf l))
    (hop : db.unembedEntry id l = .ok unembed) : Unembeds db id l unembed := by
  unfold unembedEntry at hop
  obtain ⟨_, ⟨hp, hn⟩ | ⟨p, n, c, hp, hn, _, he⟩⟩ := h.leaf_ok id l hi
  · rw [hp] at hop; cases hop; exact .inl ⟨hp, rfl⟩
  · simp only [hp, hn, convertToReference_eq he] at hop
    cases hop
    exact .inr ⟨p, n, c, hp, hn, he, rfl⟩

end

/-- The inodes and the entries after the writes of `link` that come before its directory. -/
theorem addLink_tables {l' : Inode} {v : Option Inode} {k : Nat} (hun : Unembeds db fileid l unembed)
    (h : db₁ = db.commit ([.putCounter dirid k] ++ unembed ++ add dirid name fileid c v
      ++ (if l.nlink = 0 then [.removeOrphan fileid] else []) ++ [.saveInode fileid l'])) :
    db₁.inodes = db.inodes.put fileid l' ∧ db₁.entries = db.entries.put (dirid, name) (fileid, c) := by
  subst h
  rcases hun with ⟨_, rfl⟩ | ⟨p, n, c, _, _, _, rfl⟩ <;> split <;> exact ⟨rfl, rfl⟩

theorem link_ok (hop : db.link now creds fileid dirid name = .ok ws) :
    ∃ dir l unembed, db.inodes.get dirid = some (.directory dir) ∧ dir.nlink ≠ 0 ∧
    db.inodes.get fileid = some (.leaf l) ∧
      db.entries.get (dirid, name) = none ∧ db.unembedEntry fileid l = .ok unembed ∧
      let dir' := { dir with entryCount := dir.entryCount + 1 }.touch (now 0)
      ws = [.putCounter dirid (db.readCookie dirid + 1)] ++ unembed
        ++ add dirid name fileid (db.readCookie dirid)
          (if (relink now l dirid name).nlink = 1 then some (.leaf (relink now l dirid name)) else none)
        ++ (if l.nlink = 0 then [.removeOrphan fileid] else [])
        ++ [.saveInode fileid (.leaf (relink now l dirid name)), .saveInode dirid (.directory dir')]
        ++ db.refreshOwnEntry dirid dir' := by
  obtain ⟨_, _, hop⟩ := bind_eq_ok.1 hop
  obtain ⟨dirInode, hd, hop⟩ := bind_eq_ok.1 hop
  obtain ⟨file, hf, hop⟩ := bind_eq_ok.1 hop
  iterate 2 obtain ⟨_, _, hop⟩ := bind_eq_ok.1 hop
  rw [getInode_eq_ok] at hd hf
  cases dirInode with
  | leaf l => cases hop
  | directory dir =>
    obtain ⟨_, hlink, hop⟩ := bind_eq_ok.1 hop
    cases file with
    | directory d => cases hop
    | leaf l =>
      obtain ⟨_, hfree, hop⟩ := bind_eq_ok.1 hop
      obtain ⟨unembed, hun, hop⟩ := bind_eq_ok.1 hop
      obtain ⟨_, _, hop⟩ := bind_eq_ok.1 hop
      cases hop
      exact ⟨dir, l, unembed, hd, throwIf_eq_ok.1 hlink, hf, entryExists_eq_false.1 (throwIf_eq_ok.1 hfree), hun, rfl⟩

theorem link_consistent (h : db.Consistent next)
    (hop : db.link now creds fileid dirid name = .ok ws) : (db.commit ws).Consistent next := by
  obtain ⟨dir, l, unembed, hd, hlink, hf, hfree, hun, rfl⟩ := link_ok hop
  have hlinks : (relink now l dirid name).nlink = l.nlink + 1 := by
    unfold relink
    split <;> rfl
  have hplace : if l.nlink = 0 then (relink now l dirid name).parent = some dirid ∧
    (relink now l dirid name).name = some name
      else (relink now l dirid name).parent = none ∧ (relink now l dirid name).name = none := by
    unfold relink
    split <;> exact ⟨rfl, rfl⟩
  have hun := unembeds_of_ok h hf hun
  obtain ⟨hinodes, hentries⟩ := addLink_tables hun rfl
  have hadd := h.addLink hd hlink hf hfree hun hlinks hplace
  have hne : dirid ≠ fileid := by
    rintro rfl
    rw [hf] at hd
    cases hd
  rw [List.append_cons, List.append_assoc, commit_append]
  refine Consistent.settleAdded h hadd hd hlink hfree ?_ hentries ?_ rfl rfl rfl ?_
  · rw [hinodes, get_put_ne hne]; exact hd
  · intro d n j c _
    rw [hinodes, isDirId_put]
    split
    · rename_i hj; rw [hj, isDirId_of_get hf]; rfl
    · rfl
  · rw [hinodes]; simp [isDirId_put, DirectoryInode.touch]

/-! ## remove -/

theorem checkEmpty_ok {u : Unit} (h : checkEmpty inode = .ok u) :
    ∀ d, inode = .directory d → d.entryCount = 0 := by
  rintro d rfl
  have : ¬0 < d.entryCount := throwIf_eq_ok.1 h
  omega

theorem ConsistentUpTo.entry_irrefl {stale : List InodeId} (h : db.ConsistentUpTo stale next) {d : InodeId} {n : Name}
    (he : db.entries.get (d, n) = some (i, c)) : d ≠ i := by
  rintro rfl
  obtain ⟨⟨dd, hdd, _⟩, ⟨l, hl, _⟩ | ⟨_, _, _, _, hne⟩⟩ := h.entry_ok d n d c he
  · rw [hdd] at hl; cases hl
  · exact hne rfl

theorem ConsistentUpTo.no_entries (h : db.Consistent next)
    (hi : db.inodes.get id = some inode) (hempty : ∀ d, inode = .directory d → d.entryCount = 0) (n : Name)
    (v : InodeId × Nat) : db.entries.get (id, n) ≠ some v := by
  intro he
  obtain ⟨d, hd⟩ := isDirId_get (h.isDirId_entry he)
  rw [hi] at hd
  cases hd
  have hc := (h.dir_counted id d hi (by simp)).1
  rw [hempty d rfl] at hc
  exact children_eq_zero_iff.1 hc.symm n v he

theorem remove_ok
    (hop : db.remove now creds dirid name expected defer = .ok ws) :
    ∃ dir id c inode, db.inodes.get dirid = some (.directory dir) ∧ dir.nlink ≠ 0 ∧
      db.entries.get (dirid, name) = some (id, c) ∧ db.inodes.get id = some inode ∧
      (∀ d, inode = .directory d → d.entryCount = 0) ∧
      let dir' := { dir with
        nlink := if inode.isDirectory then dir.nlink - 1 else dir.nlink
        entryCount := dir.entryCount - 1 }.touch (now 0)
      ws = dropLink (now 0) id defer inode ++ unlinkEntry dirid name c ++ [.saveInode dirid (.directory dir')]
        ++ db.refreshOwnEntry dirid dir' := by
  obtain ⟨_, _, hop⟩ := bind_eq_ok.1 hop
  obtain ⟨dirInode, hd, hop⟩ := bind_eq_ok.1 hop
  cases dirInode with
  | leaf l => cases hop
  | directory dir =>
    obtain ⟨_, _, hop⟩ := bind_eq_ok.1 hop
    obtain ⟨_, hlink, hop⟩ := bind_eq_ok.1 hop
    obtain ⟨⟨id, cookie⟩, he, hop⟩ := bind_eq_ok.1 hop
    iterate 2 obtain ⟨_, _, hop⟩ := bind_eq_ok.1 hop
    obtain ⟨inode, hi, hop⟩ := bind_eq_ok.1 hop
    iterate 3 obtain ⟨_, _, hop⟩ := bind_eq_ok.1 hop
    obtain ⟨_, hempty, hop⟩ := bind_eq_ok.1 hop
    cases hop
    exact ⟨dir, id, cookie, inode, getInode_eq_ok.1 hd, throwIf_eq_ok.1 hlink, getEntryWithCookie_eq_ok.1 he,
      getInode_eq_ok.1 hi, checkEmpty_ok hempty, rfl⟩

theorem remove_consistent
    (h : db.Consistent next) (hop : db.remove now creds dirid name expected defer = .ok ws) :
    (db.commit ws).Consistent next := by
  obtain ⟨dir, id, cookie, inode, hd, hlink, he, hi, hempty, rfl⟩ := remove_ok hop
  have hne := h.entry_irrefl he
  obtain ⟨hec, hnl⟩ := h.dir_counted dirid dir hd (by simp)
  have hdrop := h.dropEntry (now 0) defer he hi hempty
  have hkids := children_unlink he dirid
  have hsub := h.subdirs_dropEntry (now 0) defer he hi dirid
  rw [if_pos rfl] at hkids
  simp only [true_and] at hsub
  rw [List.append_assoc, commit_append]
  refine hdrop.settle (d := dir) ?_ rfl rfl ?_ ⟨?_, fun _ => ?_⟩ ?_
  · rw [commit_append]; exact (dropLink_inodes db (now 0) defer inode hne).trans hd
  · simp only [DirectoryInode.touch]; split <;> omega
  · rw [commit_append]
    simp only [DirectoryInode.touch, unlinkEntry, commit_cons, commit_nil, apply, dropLink_entries]
    omega
  · rw [commit_append]
    simp only [DirectoryInode.touch, unlinkEntry, commit_cons, commit_nil, apply, dropLink_entries]
    split at hsub
    · rename_i hdir; rw [if_pos hdir]; omega
    · rename_i hdir; rw [if_neg hdir]; omega
  · intro n hname
    obtain ⟨_, _, c, hown⟩ := (h.dir_placed dirid dir hd).entry hname
    rw [commit_append]
    simp only [unlinkEntry, commit_cons, commit_nil, apply, dropLink_entries]
    rw [get_del_ne]
    intro hkey
    rw [hkey, he] at hown
    cases hown
    exact hne rfl

/-! ## Attribute updates -/

end

/-- The fields of a record that the namespace depends on. -/
def SamePlace : Inode → Inode → Prop
  | .leaf l, .leaf l' => l'.parent = l.parent ∧ l'.name = l.name ∧ l'.nlink = l.nlink
  | .directory d, .directory d' =>
    d'.parent = d.parent ∧ d'.name = d.name ∧ d'.nlink = d.nlink ∧ d'.entryCount = d.entryCount
  | _, _ => False

variable {inode : Inode} {l l' : LeafInode} {refresh : List NsWrite} {offset len : Nat}

theorem refreshEntry_placed {p : InodeId} {n : Name} {i : InodeId} {c : Nat}
    (hp : inode.parent = some p) (hn : inode.name = some n) (he : db.entries.get (p, n) = some (i, c)) :
    db.refreshEntry id inode = .ok [.putScan p c n (.withInode id inode)] := by
  simp [refreshEntry, hp, hn, updateInodeInEntry, getEntryWithCookie, he]
  rfl

/-- The scan rows after the copy of a leaf was refreshed. -/
theorem Consistent.refreshLeaf (h : db.Consistent next)
    (hi : db.inodes.get id = some (.leaf l)) (hp : l'.parent = l.parent) (hn : l'.name = l.name)
    (hop : db.refreshEntry id (.leaf l') = .ok refresh) :
    ∃ scans : ScanTable, EntryScan db.entries scans ∧
      (∀ db' : NsDb, db'.scans = db.scans → db'.commit refresh = { db' with scans := scans }) ∧
      (∀ d c, (scans.get (d, c)).isSome = (db.scans.get (d, c)).isSome) ∧
      ∀ d c n v, scans.get (d, c) = some (n, v) →
        (v = .withInode id (.leaf l') ∧ l.parent = some d ∧ l.name = some n ∨ v = .reference id ∧ l.parent = none) ∨
          v.inodeId ≠ id ∧ db.scans.get (d, c) = some (n, v) := by
  refine h.rewriteRow hi (.withInode id (.leaf l')) rfl ?_
  obtain ⟨_, ⟨hpar, hname⟩ | ⟨p, n, c, hpar, hname, _, he⟩⟩ := h.leaf_ok id l hi
  · rw [refreshEntry, show (Inode.leaf l').parent = none from hp.trans hpar] at hop
    cases hop
    exact .inl ⟨hpar, rfl⟩
  · rw [refreshEntry_placed (show (Inode.leaf l').parent = _ from hp.trans hpar) (hn.trans hname) he] at hop
    cases hop
    exact .inr ⟨p, n, c, hpar, hname, he, rfl⟩

/-- Saving a leaf whose place and links did not change, with the copy in its entry. -/
theorem Consistent.saveLeaf (h : db.Consistent next)
    (hi : db.inodes.get id = some (.leaf l)) (hsame : SamePlace (.leaf l) (.leaf l'))
    (hop : db.refreshEntry id (.leaf l') = .ok refresh) :
    (db.commit ([.saveInode id (.leaf l')] ++ refresh)).Consistent next := by
  obtain ⟨hp, hn, hl⟩ := hsame
  have hok := h.leaf_ok id l hi
  have hdir := isDirId_of_get hi
  have hkind : ∀ i, IsDirId (db.inodes.put id (.leaf l')) i ↔ IsDirId db.inodes i := by
    intro i
    rw [isDirId_put]
    split
    · rename_i hid; rw [hid, hdir]; rfl
    · rfl
  obtain ⟨scans, hscan, hcommit, hsome, hrow⟩ := Consistent.refreshLeaf h hi hp hn hop
  rw [commit_append, hcommit (db.commit [.saveInode id (.leaf l')]) rfl]
  simp only [commit_cons, commit_nil, apply]
  refine ⟨hscan, ?_, ?_, ?_, ?_, ?_, (hkind 0).2 h.root_dir, by simp, ?_, ?_, ?_⟩
  · intro d c n v hs _
    rcases hrow d c n v hs with (⟨rfl, hpar, hname⟩ | ⟨rfl, hpar⟩) | ⟨hv, hs⟩
    · refine ⟨get_put_self .., ?_⟩; rintro l₁ ⟨⟩; exact ⟨hp.trans hpar, hn.trans hname⟩
    · intro l₁ hl₁
      rw [get_put_self] at hl₁
      cases hl₁
      exact hp.trans hpar
    · have hold := h.scan_ok d c n v hs (by simp)
      cases v with
      | withInode i ino => exact ⟨(get_put_ne hv).trans hold.1, hold.2⟩
      | reference i => exact fun l₁ hl₁ => hold l₁ ((get_put_ne hv).symm.trans hl₁)
  · intro d n i c he; have hold := h.entry_ok d n i c he; grind [EntryOk]
  · intro i l₁ hi₁
    rw [get_put] at hi₁
    split at hi₁
    · rename_i hid
      cases hi₁
      rw [hid, LeafOk, hp, hn, hl]
      exact hok
    · exact h.leaf_ok i l₁ hi₁
  · intro i d hi₁; exact h.dir_placed i d (by grind)
  · intro i d hi₁ hst
    have hold := h.dir_counted i d (by grind) hst
    rw [DirCounted, subdirs_congr fun _ _ i _ _ => hkind i]
    exact hold
  · intro i
    rw [h.orphan_iff i, get_put]
    split
    · rename_i hid; subst hid; simp [hi, hl]
    · rfl
  · intro d c hs; rw [hsome] at hs; exact h.cookie_lt d c hs
  · intro i hs
    refine h.id_lt i ?_
    rw [get_put] at hs
    split at hs
    · rename_i hid; rw [hid, hi]; rfl
    · exact hs

/-- **Attribute updates** keep the tables consistent. -/
theorem saveWithEntry_consistent {inode' : Inode} (h : db.Consistent next)
    (hi : db.inodes.get id = some inode) (hsame : SamePlace inode inode')
    (hop : db.saveWithEntry id inode' = .ok ws) : (db.commit ws).Consistent next := by
  obtain ⟨refresh, hr, hop⟩ := bind_eq_ok.1 hop
  cases hop
  rcases inode with l | d <;> rcases inode' with l' | d'
  · exact Consistent.saveLeaf h hi hsame hr
  · exact hsame.elim
  · exact hsame.elim
  obtain ⟨hp, hn, hl, hc⟩ := hsame
  have hrefresh : refresh = db.refreshOwnEntry id d' := by
    simp only [refreshEntry, Inode.parent_directory, Inode.name_directory] at hr
    unfold refreshOwnEntry
    cases hname : d'.name with
    | none => rw [hname] at hr; cases hr; rfl
    | some n => rw [hname] at hr; simp [hr, Except.toOption]
  rw [hrefresh]
  have hcount := h.dir_counted id d hi (by simp)
  refine (h.weaken ((isDirId_of_get hi).2 rfl)).settle hi hp hn (by rw [hl]) ?_ fun _ _ => rfl
  rw [DirCounted, hc, hl]
  exact hcount

theorem setSize_withAttrs_samePlace (size : Option Nat) (a : Attrs) (inode : Inode) :
    SamePlace inode ((setSize size inode).withAttrs a) := by
  rcases inode with ⟨kind, at', p, n, l⟩ | d
  · cases kind <;> exact ⟨rfl, rfl, rfl⟩
  · exact ⟨rfl, rfl, rfl, rfl⟩

theorem writeRecord_samePlace {size : Nat}
    (h : writeRecord now creds l size offset len = some l') : SamePlace (.leaf l) (.leaf l') := by
  unfold writeRecord at h
  simp only at h
  split at h
  · cases h; exact ⟨rfl, rfl, rfl⟩
  · cases h

/-- Nothing is written, or a record that keeps its place. -/
def Updates (db : NsDb) (id : InodeId) (ws : List NsWrite) : Prop :=
  ws = [] ∨ ∃ inode inode', db.inodes.get id = some inode ∧ SamePlace inode inode' ∧ db.saveWithEntry id inode' = .ok ws

theorem updateInode_updates {f : Inode → Except FsError (Option Inode)}
    (hf : ∀ inode inode', f inode = .ok (some inode') → SamePlace inode inode') (hop : db.updateInode id f = .ok ws) :
    Updates db id ws := by
  obtain ⟨inode, hi, hop⟩ := bind_eq_ok.1 hop
  obtain ⟨record, hr, hop⟩ := bind_eq_ok.1 hop
  cases record with
  | none => cases hop; exact .inl rfl
  | some inode' => exact .inr ⟨inode, inode', getInode_eq_ok.1 hi, hf inode inode' hr, hop⟩

theorem setattr_updates {attr : SetAttributes} {opened : Bool} (hop : db.setattr now creds id attr opened = .ok ws) :
    Updates db id ws := by
  refine updateInode_updates (fun inode inode' hf => ?_) hop
  obtain ⟨_, _, hf⟩ := bind_eq_ok.1 hf
  cases hf
  exact setSize_withAttrs_samePlace ..

theorem write_updates {checkPermissions : Bool} (hop : db.write now creds id offset len checkPermissions = .ok ws) :
    Updates db id ws := by
  refine updateInode_updates (fun inode inode' hf => ?_) hop
  unfold writeInode at hf
  split at hf
  · obtain ⟨_, _, hf⟩ := bind_eq_ok.1 hf
    split at hf
    · cases hf
    obtain ⟨_, _, hf⟩ := bind_eq_ok.1 hf
    obtain ⟨l', hl', rfl⟩ := Option.map_eq_some_iff.1 (Except.ok.inj hf)
    exact writeRecord_samePlace hl'
  · cases hf

theorem recordAccessTime_updates {atime : Timestamp} (hop : db.recordAccessTime id atime = .ok ws) :
    Updates db id ws := by
  refine updateInode_updates (fun inode inode' hf => ?_) hop
  unfold accessInode at hf
  split at hf
  · split at hf <;> cases hf; exact ⟨rfl, rfl, rfl⟩
  · cases hf

section

variable (h : db.Consistent next)
include h

theorem Updates.consistent (hu : Updates db id ws) : (db.commit ws).Consistent next := by
  rcases hu with rfl | ⟨inode, inode', hi, hsame, hsave⟩
  · exact h
  · exact saveWithEntry_consistent h hi hsame hsave

/-! ## Orphan reclaim -/

theorem Consistent.deleteOrphan {counters : Table InodeId Nat}
    (hi : db.inodes.get id = some inode) (hl : inode.nlink = 0) (hempty : ∀ d, inode = .directory d → d.entryCount = 0)
    (hcnt : ∀ j, j ≠ id ∨ inode.isDirectory = false → counters.get j = db.counters.get j) :
    Consistent { db with inodes := db.inodes.del id, counters := counters, orphans := db.orphans.del id } next := by
  have hno : ∀ d n c, db.entries.get (d, n) ≠ some (id, c) := by
    intro d n c he
    exact h.nlink_ne_zero he hi hl
  have hkids : children db.entries id = 0 := children_eq_zero_iff.2 (h.no_entries hi hempty)
  have hroot : id ≠ 0 := by
    rintro rfl
    obtain ⟨d, hd⟩ := isDirId_get h.root_dir
    rw [hi] at hd
    cases hd
    have := h.dir_placed 0 d hi
    simp_all [DirPlaced]
  have hkind : ∀ x, subdirs (db.inodes.del id) db.entries x = subdirs db.inodes db.entries x := by
    apply subdirs_congr
    intro d n i c he
    rw [isDirId_del]
    exact ⟨fun h => h.2, fun h => ⟨fun e => hno d n c (e ▸ he), h⟩⟩
  refine ⟨h.entry_scan, ?_, ?_, ?_, ?_, ?_, ?_, by simp, ?_, ?_, ?_⟩
  · intro d c n v hs _
    have hold := h.scan_ok d c n v hs (by simp)
    have hv : v.inodeId ≠ id := fun e => hno d n c (e ▸ h.entry_scan.entry hs)
    cases v <;> grind [ScanOk]
  · intro d n i c he
    have hold := h.entry_ok d n i c he
    have hii : i ≠ id := fun e => hno d n c (e ▸ he)
    have hdi : d ≠ id := fun e => children_eq_zero_iff.1 hkids n (i, c) (e ▸ he)
    rw [EntryOk, get_del_ne hii, get_del_ne hdi]
    exact hold
  · intro i l hi'; exact h.leaf_ok i l (by grind)
  · intro i d hi'; exact h.dir_placed i d (by grind)
  · intro i d hi' hst; rw [DirCounted, hkind]; exact h.dir_counted i d (by grind) hst
  · rw [isDirId_del]; exact ⟨hroot.symm, h.root_dir⟩
  · intro i; have := h.orphan_iff i; grind
  · intro d c hs
    have hd : d ≠ id := by
      rintro rfl
      obtain ⟨⟨n, v⟩, hv⟩ := Option.isSome_iff_exists.1 hs
      exact children_eq_zero_iff.1 hkids n _ (h.entry_scan.entry hv)
    have := h.cookie_lt d c hs
    simpa [readCookie, hcnt d (.inl hd)] using this
  · intro i hs; refine h.id_lt i ?_; grind

/-- The orphan set names no linked inode, so there is nothing else to clean up. -/
theorem Consistent.not_orphan
    (hi : ∀ inode, db.inodes.get id = some inode → inode.nlink ≠ 0) : ¬(db.orphans.get id).isSome = true := by
  rw [h.orphan_iff id]
  rintro ⟨inode, hget, hl⟩
  exact hi inode hget hl

theorem entryCount_eq_zero {i : InodeId} {d : DirectoryInode} (hi : db.inodes.get i = some (.directory d))
    (hl : d.nlink = 0) : d.entryCount = 0 := by
  rw [(h.dir_counted i d hi (by simp)).1, children_eq_zero_iff]
  intro n v he
  obtain ⟨⟨dd, hdd, hpos⟩, _⟩ := h.entry_ok i n v.1 v.2 he
  rw [hi] at hdd
  cases hdd
  omega

theorem reclaimOrphanInode_cases (id : InodeId) :
    (∃ inode, db.inodes.get id = some inode ∧ inode.nlink = 0 ∧ (∀ d, inode = .directory d → d.entryCount = 0) ∧
      (db.reclaimOrphanInode id = [.deleteInode id, .removeOrphan id] ∨
        inode.isDirectory = true ∧ db.reclaimOrphanInode id = [.deleteInode id, .deleteCounter id, .removeOrphan id])) ∨
      (∀ inode, db.inodes.get id = some inode → inode.nlink ≠ 0) ∧ db.reclaimOrphanInode id = [] := by
  unfold reclaimOrphanInode
  by_cases hlinked : ∀ inode, db.inodes.get id = some inode → inode.nlink ≠ 0
  · right
    rw [if_neg (Consistent.not_orphan h hlinked)]
    rcases hi : db.inodes.get id with _ | l | d
    · exact ⟨nofun, rfl⟩
    · exact ⟨hi ▸ hlinked, if_neg (hlinked _ hi)⟩
    · exact ⟨hi ▸ hlinked, if_neg (hlinked _ hi)⟩
  · push Not at hlinked
    obtain ⟨inode, hi, hl⟩ := hlinked
    rw [hi]
    refine .inl ⟨inode, rfl, hl, ?_⟩
    cases inode with
    | leaf l => exact ⟨nofun, .inl (if_pos hl)⟩
    | directory d =>
      have hempty := entryCount_eq_zero h hi hl
      refine ⟨fun d' hd => ?_, .inr ⟨rfl, (if_pos hl).trans (if_neg fun hc => hc hempty)⟩⟩
      cases hd
      exact hempty

theorem reclaimOrphanInode_consistent :
    (db.commit (db.reclaimOrphanInode id)).Consistent next := by
  rcases reclaimOrphanInode_cases h id with ⟨inode, hi, hl, hempty, hws | ⟨hdir, hws⟩⟩ | ⟨-, hws⟩
  · rw [hws]; exact Consistent.deleteOrphan h hi hl hempty fun _ _ => rfl
  · rw [hws]
    refine Consistent.deleteOrphan h hi hl hempty fun j hj => get_del_ne (hj.resolve_right ?_)
    rw [hdir]
    decide
  · rw [hws]; exact h

end

end NsDb
end ZeroFS
