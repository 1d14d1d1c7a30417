import ZeroFS.Lib.Forest
import ZeroFS.Namespace.Rename

/-!
# The directory tree

Each linked directory is reachable from the root, and its parent pointers lead there. Both follow from the entries being
rooted (`ConsistentUpTo.isTree`), which the transactions keep; a rename does if its destination is reachable without
passing through a moved directory.
-/

namespace ZeroFS

open Forest

/-- `path` leads from `i` along parent pointers to the root. -/
inductive ParentPath (db : NsDb) : InodeId → List InodeId → Prop
  | root : ParentPath db 0 [0]
  | up {i : InodeId} {d : DirectoryInode} {path : List InodeId} :
    i ≠ 0 → db.inodes.get i = some (.directory d) → ParentPath db d.parent path → ParentPath db i (i :: path)

/-- Every linked directory is reachable from the root, and its parent pointers lead back to it. -/
structure NsDb.IsTree (db : NsDb) : Prop where
  reachable : ∀ i d, db.inodes.get i = some (.directory d) → d.nlink ≠ 0 → Reachable db.entries 0 i
  parents : ∀ i d, db.inodes.get i = some (.directory d) → d.nlink ≠ 0 → ∃ path, ParentPath db i path ∧ path.Nodup

/-! ## Parent paths -/

variable {db : NsDb} {next : Nat} {stale : List InodeId} {id : InodeId}

section

variable {i : InodeId} {p : List InodeId}

theorem ParentPath.unique (hp : ParentPath db i p) :
    ∀ {q : List InodeId}, ParentPath db i q → p = q := by
  induction hp with
  | root =>
    intro q hq
    cases hq with
    | root => rfl
    | up h0 _ _ => exact absurd rfl h0
  | up h0 hi _ ih =>
    intro q hq
    cases hq with
    | root => exact absurd rfl h0
    | up _ hi' hq => rw [hi] at hi'; cases hi'; rw [ih hq]

theorem ParentPath.rest {j : InodeId} (hp : ParentPath db i p) (hj : j ∈ p) :
    ∃ q, ParentPath db j q ∧ q.length ≤ p.length := by
  induction hp with
  | root => obtain rfl := List.mem_singleton.1 hj; exact ⟨[0], .root, le_rfl⟩
  | up h0 hi hrest ih =>
    rcases List.mem_cons.1 hj with rfl | hj
    · exact ⟨_, .up h0 hi hrest, le_rfl⟩
    · obtain ⟨q, hq, hlen⟩ := ih hj; exact ⟨q, hq, Nat.le_succ_of_le hlen⟩

theorem ParentPath.nodup (hp : ParentPath db i p) : p.Nodup := by
  induction hp with
  | root => simp
  | @up i d path h0 hi hrest ih =>
    refine List.nodup_cons.2 ⟨fun hmem => ?_, ih⟩
    -- a second visit would leave a shorter path from the same inode
    obtain ⟨q, hq, hlen⟩ := hrest.rest hmem
    rw [hq.unique (.up h0 hi hrest), List.length_cons] at hlen
    omega

end

namespace NsDb

/-! ## Rooted entries make a tree -/

theorem ConsistentUpTo.reachable (h : db.ConsistentUpTo stale next) (hr : Rooted db.entries 0) {i : InodeId}
    {d : DirectoryInode} (hi : db.inodes.get i = some (.directory d)) (hl : d.nlink ≠ 0) :
    Reachable db.entries 0 i := by
  rcases h.dir_placed i d hi with ⟨h0, _⟩ | ⟨_, ⟨_, rfl⟩ | ⟨n, c, _, _, he⟩⟩
  · exact absurd h0 hl
  · exact .root
  · exact (hr _ _ _ he).edge he

/-- Parent pointers go up the path of entries. -/
theorem ConsistentUpTo.parentPath (h : db.ConsistentUpTo stale next) {i : InodeId} (hr : Reachable db.entries 0 i)
    (hi : IsDirId db.inodes i) : ∃ path, ParentPath db i path := by
  induction hr with
  | root => exact ⟨[0], .root⟩
  | edge _ he ih =>
    obtain ⟨path, hpath⟩ := ih (h.isDirId_entry he)
    obtain ⟨dd, hdd⟩ := isDirId_get hi
    obtain ⟨hp, _, _⟩ := h.dir_entry hdd he
    exact ⟨_, .up (h.ne_root he) hdd (hp ▸ hpath)⟩

/-- **Rooted entries make a tree** of the linked directories. -/
theorem ConsistentUpTo.isTree (h : db.ConsistentUpTo stale next) (hr : Rooted db.entries 0) : db.IsTree where
  reachable _ _ hi hl := h.reachable hr hi hl
  parents i d hi hl := by
    obtain ⟨path, hpath⟩ := h.parentPath (h.reachable hr hi hl) ((isDirId_of_get hi).2 rfl)
    exact ⟨path, hpath, hpath.nodup⟩

/-! ## The entries after a transaction -/

variable {now : Nat → Timestamp} {creds : Credentials} {ws : List NsWrite}

variable {dirid fromDir toDir : InodeId} {name fromName toName : Name} {expected : Option Bool} {defer : Bool}
  {c : Nat} {source : Inode} {target : Option (InodeId × Nat × Inode)}

theorem addChild_entries (db : NsDb) (dirid : InodeId) (name : Name) (dir : DirectoryInode) (id : InodeId)
    (child : Inode) :
    (db.commit (db.addChild dirid name dir id child)).entries =
      db.entries.put (dirid, name) (id, db.readCookie dirid) := by
  unfold addChild
  rw [List.append_assoc, commit_append, (settle_tables _ db dirid dir).2]
  rfl

theorem addChild_rooted {dir dir' : DirectoryInode} {child : Inode}
    (h : db.Consistent next) (hr : Rooted db.entries 0) (hd : db.newEntryParent creds dirid name = .ok dir) :
    Rooted (db.commit (db.addChild dirid name dir' id child)).entries 0 := by
  obtain ⟨hdir, hlink, hfree⟩ := newEntryParent_ok hd
  rw [addChild_entries]
  exact hr.put (h.reachable hr hdir hlink) hfree _

theorem remove_entries
    (hop : db.remove now creds dirid name expected defer = .ok ws) :
    (db.commit ws).entries = db.entries.del (dirid, name) := by
  obtain ⟨dir, id, c, inode, _, _, _, _, _, rfl⟩ := remove_ok hop
  rw [List.append_assoc, commit_append, (settle_tables _ db dirid _).2, commit_append]
  simp only [unlinkEntry, commit_cons, commit_nil, apply, dropLink_entries]

theorem remove_rooted (h : db.Consistent next)
    (hr : Rooted db.entries 0) (hop : db.remove now creds dirid name expected defer = .ok ws) :
    Rooted (db.commit ws).entries 0 := by
  obtain ⟨dir, id, c, inode, _, _, he, hi, hempty, _⟩ := remove_ok hop
  rw [remove_entries hop]
  exact hr.del he (h.no_entries hi hempty)

/-! ## The entries after a rename -/

theorem refreshOwn_entries (db db' : NsDb) (i : InodeId) (inode : Inode) :
    (db.commit (db'.refreshOwn i inode)).entries = db.entries := by
  cases inode with
  | leaf l => rfl
  | directory d =>
    rcases refreshOwnEntry_cases db' i d with he | ⟨p, c, n, v, he⟩
    · rw [refreshOwn, he]; rfl
    · rw [refreshOwn, he]; rfl

/-- The entries after the transaction of a rename: the target's is gone, the source's has moved. -/
theorem renameTxn_entries {fromInode : Inode}
    {toInode : Option Inode}
    (hop : db.renameTxn now fromDir fromName toDir toName id c source fromInode toInode target defer = .ok ws) :
    ∃ k, (db.commit ws).entries =
      ((db.commit (dropTarget toDir toName (now 0) defer target)).entries.del (fromDir, fromName)).put (toDir, toName)
        (id, k) := by
  obtain ⟨entered, hent, hop⟩ := bind_eq_ok.1 hop
  cases hop
  refine ⟨if fromDir = toDir then c else db.readCookie toDir, ?_⟩
  rw [commit_append, commit_append, commit_append]
  have hentered : ∀ db₁ : NsDb, (db₁.commit entered).entries = db₁.entries := by
    intro db₁
    cases toInode with
    | none => cases hent; rfl
    | some toInode =>
      obtain ⟨toInode', _, hent⟩ := bind_eq_ok.1 hent
      cases hent
      rw [commit_append, refreshOwn_entries]
      rfl
  rw [hentered, refreshOwn_entries, commit_append db]
  exact moveEntry_entries ..

/-- Dropping a target keeps the entries rooted, and every path that does not end in it. -/
theorem dropTarget_rooted
    (a : InodeId) (t : Timestamp) (defer : Bool) (h : db.Consistent next)
    (hr : Rooted db.entries 0) (ht : TargetOk db source toDir toName target) :
    Rooted (db.commit (dropTarget toDir toName t defer target)).entries 0 ∧
      (Above db.entries a toDir 0 → Above (db.commit (dropTarget toDir toName t defer target)).entries a toDir 0) := by
  rcases target with _ | ⟨tid, tc, tino⟩
  · exact ⟨hr, id⟩
  obtain ⟨he, hi, _, hempty⟩ := ht
  have hno := h.no_entries hi hempty
  simp only [dropTarget, commit_append, unlinkEntry, commit_cons, commit_nil, apply, dropLink_entries]
  refine ⟨hr.del he hno, fun habove => habove.kept fun d k j c hj _ hocc => (Table.get_del_ne fun hkey => ?_).trans hj⟩
  rw [hkey, he] at hj
  cases hj
  rcases hocc with rfl | ⟨k', v, hv⟩
  · exact h.entry_irrefl he rfl
  · exact hno _ _ hv

/-- **A rename keeps the entries rooted** when it moves a directory below an inode that is reachable without passing
through that directory. -/
theorem renameChecked_rooted (h : db.Consistent next) (hr : Rooted db.entries 0)
    (hne : ¬(fromDir = toDir ∧ fromName = toName)) (he : db.entries.get (fromDir, fromName) = some (id, c))
    (hs : db.inodes.get id = some source) (hti : toDir ≠ id) (hto : IsDirId db.inodes toDir)
    (habove : ∀ td, db.inodes.get toDir = some (.directory td) → td.nlink ≠ 0 → source.isDirectory = true →
      Above db.entries id toDir 0)
    (hop : db.renameChecked now creds fromDir fromName toDir toName id c source (db.entries.get (toDir, toName)) defer =
      .ok ws) : Rooted (db.commit ws).entries 0 := by
  rcases renameChecked_ok h he hto hop with rfl | ⟨fd, td, target, hfd, hfl, htd, htl, htok, hother, htxn⟩
  · exact hr
  obtain ⟨k, hentries⟩ := renameTxn_entries htxn
  obtain ⟨hr₁, habove₁⟩ := dropTarget_rooted id (now 0) defer h hr htok
  have hd := Consistent.targetDropped (now 0) defer h hto htok
  have he₁ := (hd.entries _ (by simpa using hne)).trans he
  rw [hentries]
  cases source with
  | directory sd => exact hr₁.move he₁ (habove₁ (habove td htd htl rfl)) hd.free
  | leaf l =>
    have hno : ∀ n v, (db.commit (dropTarget toDir toName (now 0) defer target)).entries.get (id, n) ≠ some v := by
      intro n v hv
      rw [hd.entries _ fun hkey => hti (congrArg Prod.fst hkey).symm] at hv
      exact h.no_entries hs (by simp) n v hv
    obtain ⟨_, htt⟩ := Consistent.target_ne h he htok
    have hreach := hd.upTo.reachable hr₁ ((hd.inodes toDir htt).trans htd) htl
    exact (hr₁.del he₁ hno).put (hreach.del he₁ hno hti) (by rw [Table.get_del, hd.free, ite_self]) _

end NsDb
end ZeroFS
