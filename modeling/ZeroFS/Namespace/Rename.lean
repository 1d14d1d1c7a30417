import ZeroFS.Namespace.Txn

/-!
# A rename into a directory keeps the namespace consistent

`rename` drops a replaced target, moves the entry and settles its one or two directories. The source does not check that
the destination is a directory; `rename_consistent` assumes it.
-/

namespace ZeroFS
namespace NsDb

variable {db : NsDb} {next : Nat} {now : Nat → Timestamp} {creds : Credentials} {ws : List NsWrite} {id : InodeId}

/-! ## The target -/

/-- The tables after a replaced target was dropped: one entry of `toDir` less, if there was a target. -/
structure TargetDropped (db db₁ : NsDb) (toDir : InodeId) (toName : Name) (target : Option (InodeId × Nat × Inode))
    (next : Nat) : Prop where
  upTo : db₁.ConsistentUpTo [toDir] next
  free : db₁.entries.get (toDir, toName) = none
  entries : ∀ k, k ≠ (toDir, toName) → db₁.entries.get k = db.entries.get k
  inodes : ∀ j, target.map (·.1) ≠ some j → db₁.inodes.get j = db.inodes.get j
  cookie : db₁.readCookie toDir = db.readCookie toDir
  children_add : ∀ x, children db₁.entries x + (if toDir = x ∧ target.isSome then 1 else 0) = children db.entries x
  subdirs_add : ∀ x, subdirs db₁.inodes db₁.entries x +
    (if toDir = x ∧ target.any (·.2.2.isDirectory) then 1 else 0) = subdirs db.inodes db.entries x

/-- The target of a rename is what the entry names; it has the source's kind and, as a directory, no entries. -/
def TargetOk (db : NsDb) (source : Inode) (toDir : InodeId) (toName : Name) : Option (InodeId × Nat × Inode) → Prop
  | none => db.entries.get (toDir, toName) = none
  | some (id, c, inode) => db.entries.get (toDir, toName) = some (id, c) ∧ db.inodes.get id = some inode ∧
      inode.isDirectory = source.isDirectory ∧ ∀ d, inode = .directory d → d.entryCount = 0

section

variable {toDir : InodeId} {toName : Name} {source : Inode} {target : Option (InodeId × Nat × Inode)}

theorem Consistent.targetDropped (t : Timestamp) (defer : Bool) (h : db.Consistent next)
    (hto : IsDirId db.inodes toDir) (ht : TargetOk db source toDir toName target) :
    TargetDropped db (db.commit (dropTarget toDir toName t defer target)) toDir toName target next := by
  rcases target with _ | ⟨id, c, inode⟩
  · exact ⟨h.weaken hto, ht, fun _ _ => rfl, fun _ _ => rfl, rfl, by simp [dropTarget], by simp [dropTarget]⟩
  obtain ⟨he, hi, _, hempty⟩ := ht
  have hne := h.entry_irrefl he
  refine ⟨h.dropEntry t defer he hi hempty, ?_, ?_, ?_, ?_, ?_, ?_⟩
  all_goals simp only [dropTarget, commit_append, unlinkEntry, commit_cons, commit_nil, apply, dropLink_entries]
  · exact Table.get_del_self ..
  · intro k hk; exact Table.get_del_ne hk
  · intro j hj; exact dropLink_inodes db t defer inode fun e => hj (by rw [e]; rfl)
  · simp only [readCookie, dropLink_counters db t defer inode hne]
  · intro x; simpa using children_unlink he x
  · intro x; simpa using h.subdirs_dropEntry t defer he hi x

theorem renameTargetEntry_ok {fromInode : Inode} {toInode : Option Inode}
    (h : db.renameTargetEntry creds source fromInode toInode (db.entries.get (toDir, toName)) = .ok target) :
    TargetOk db source toDir toName target := by
  cases he : db.entries.get (toDir, toName) with
  | none => rw [he] at h; cases h; exact he
  | some e =>
    rw [he] at h
    obtain ⟨inode, hr, h⟩ := bind_eq_ok.1 h
    cases h
    obtain ⟨inode', hi, hr⟩ := bind_eq_ok.1 hr
    obtain ⟨_, h1, hr⟩ := bind_eq_ok.1 hr
    obtain ⟨_, h2, hr⟩ := bind_eq_ok.1 hr
    obtain ⟨_, hempty, hr⟩ := bind_eq_ok.1 hr
    obtain ⟨_, _, hr⟩ := bind_eq_ok.1 hr
    cases hr
    refine ⟨he, getInode_eq_ok.1 hi, ?_, checkEmpty_ok hempty⟩
    cases hs : source.isDirectory <;> cases hk : inode.isDirectory <;> simp_all

/-! ## The move -/

end

/-- What a move that replaced `target` did to the counts, the other records and the own entries of directories. -/
structure Moved (db db₂ : NsDb) (fromDir toDir id : InodeId) (source : Inode)
    (target : Option (InodeId × Nat × Inode)) : Prop where
  children_eq : ∀ x, children db₂.entries x + (if fromDir = x then 1 else 0) +
      (if toDir = x ∧ target.isSome then 1 else 0) = children db.entries x + if toDir = x then 1 else 0
  subdirs_eq : ∀ x, subdirs db₂.inodes db₂.entries x + (if fromDir = x ∧ source.isDirectory then 1 else 0) +
      (if toDir = x ∧ target.any (·.2.2.isDirectory) then 1 else 0) =
    subdirs db.inodes db.entries x + if toDir = x ∧ source.isDirectory then 1 else 0
  inodes : ∀ x, x ≠ id → target.map (·.1) ≠ some x → db₂.inodes.get x = db.inodes.get x
  own : ∀ x d n, x ≠ id → target.map (·.1) ≠ some x → db.inodes.get x = some (.directory d) → d.name = some n →
    db.entries.get (d.parent, n) = db₂.entries.get (d.parent, n)

section

variable {fromDir toDir : InodeId} {fromName toName : Name} {c : Nat} {source : Inode}
  {target : Option (InodeId × Nat × Inode)}

theorem TargetDropped.moved {db₁ : NsDb} (k : Nat) (h : db.Consistent next)
    (hd : TargetDropped db db₁ toDir toName target next) (hne : ¬(fromDir = toDir ∧ fromName = toName))
    (he : db.entries.get (fromDir, fromName) = some (id, c)) (hs : db.inodes.get id = some source)
    (hself : target.map (·.1) ≠ some id) (ht : TargetOk db source toDir toName target) :
    Moved db (db₁.commit (moveEntry fromDir fromName toDir toName id c k (relocate fromDir toDir toName source)))
      fromDir toDir id source target := by
  generalize hdb₂ : db₁.commit (moveEntry fromDir fromName toDir toName id c k (relocate fromDir toDir toName source)) =
    db₂
  have hinodes := moveEntry_inodes db₁ fromDir fromName toDir toName id c k (relocate fromDir toDir toName source)
  have hentries := moveEntry_entries db₁ fromDir fromName toDir toName id c k (relocate fromDir toDir toName source)
  rw [hdb₂] at hinodes hentries
  have he₁ : db₁.entries.get (fromDir, fromName) = some (id, c) := by
    rw [hd.entries _ (by simpa using hne)]
    exact he
  have hdir := isDirId_of_get ((hd.inodes id hself).trans hs)
  have hkind : ∀ i, IsDirId db₂.inodes i ↔ IsDirId db₁.inodes i := by
    intro i
    rw [hinodes, isDirId_put]
    split
    · rename_i hi; rw [hi, hdir, isDirectory_relocate]
    · rfl
  constructor
  · intro x
    have h1 := hd.children_add x
    have h2 := children_move (k := k) he₁ hd.free x
    rw [hentries]
    omega
  · intro x
    have h1 := hd.subdirs_add x
    have h2 := subdirs_move (k := k) hkind he₁ hd.free x
    simp only [hdir] at h2
    rw [hentries]
    omega
  · intro x hx ht; rw [hinodes, Table.get_put_ne hx, hd.inodes x ht]
  intro x d n hx htx hget hname
  obtain ⟨_, _, cx, hrow⟩ := (h.dir_placed x d hget).entry hname
  have hkey : (d.parent, n) ≠ (toDir, toName) := by
    intro hkey
    rw [hkey] at hrow
    rcases target with _ | ⟨tid, tc, tino⟩
    · exact absurd (hrow.symm.trans ht) (by simp)
    rw [ht.1] at hrow
    cases hrow
    exact htx rfl
  have hkey' : (d.parent, n) ≠ (fromDir, fromName) := by
    intro hkey'
    rw [hkey', he] at hrow
    cases hrow
    exact hx rfl
  rw [hentries, Table.get_put_ne hkey, Table.get_del_ne hkey', hd.entries _ hkey]

/-- The replaced target is neither the source's directory nor the destination. -/
theorem Consistent.target_ne (h : db.Consistent next)
    (he : db.entries.get (fromDir, fromName) = some (id, c)) (ht : TargetOk db source toDir toName target) :
    target.map (·.1) ≠ some fromDir ∧ target.map (·.1) ≠ some toDir := by
  rcases target with _ | ⟨tid, tc, tino⟩
  · exact ⟨nofun, nofun⟩
  obtain ⟨hte, hti, _, hempty⟩ := ht
  constructor
  · rintro ⟨⟩
    obtain ⟨d, hd⟩ := isDirId_get (h.isDirId_entry he)
    rw [hd] at hti
    cases hti
    have hkids := (h.dir_counted _ d hd (by simp)).1
    rw [hempty d rfl] at hkids
    exact children_eq_zero_iff.1 hkids.symm _ _ he
  · rintro ⟨⟩; exact h.entry_irrefl hte rfl

end

section RenameTxn

variable {fromDir toDir id : InodeId} {fromName toName : Name} {c : Nat} {source : Inode} {fd td : DirectoryInode}
  {target : Option (InodeId × Nat × Inode)} {defer : Bool} (h : db.Consistent next)
  (hne : ¬(fromDir = toDir ∧ fromName = toName)) (he : db.entries.get (fromDir, fromName) = some (id, c))
  (hs : db.inodes.get id = some source) (hti : toDir ≠ id) (hfd : db.inodes.get fromDir = some (.directory fd))
  (hlink : fd.nlink ≠ 0) (htd : db.inodes.get toDir = some (.directory td)) (htlink : td.nlink ≠ 0)
  (ht : TargetOk db source toDir toName target) (hself : target.map (·.1) ≠ some id)
include h hne he hs hti hfd hlink htd htlink ht hself

/-- The entry is moved and the directory that it leaves is settled; another destination is still stale. -/
theorem renameTxn_left {t t' : Timestamp} {db₂ : NsDb} {fd' : DirectoryInode}
    (hdb : (db.commit (dropTarget toDir toName t defer target)).commit (moveEntry fromDir fromName toDir toName id c
      (if fromDir = toDir then c else db.readCookie toDir) (relocate fromDir toDir toName source)) = db₂)
    (hfd' : leave (fromDir = toDir) source.isDirectory (target.map (·.2.2)) t' fd = fd') :
    Moved db db₂ fromDir toDir id source target ∧
      (db₂.commit ([.saveInode fromDir (.directory fd')] ++ db.refreshOwnEntry fromDir fd')).ConsistentUpTo
        (if fromDir = toDir then [] else [toDir]) next := by
  have hfi := h.entry_irrefl he
  obtain ⟨htf, htt⟩ := Consistent.target_ne h he ht
  have hd := Consistent.targetDropped t defer h ((isDirId_of_get htd).2 rfl) ht
  have hmoved := hd.moved (if fromDir = toDir then c else db.readCookie toDir) h hne he hs hself ht
  have hstale : (db.commit (dropTarget toDir toName t defer target)).ConsistentUpTo
      (fromDir :: if fromDir = toDir then [] else [toDir]) next := by
    split
    · rename_i hsame; rw [hsame]; exact hd.upTo
    · exact hd.upTo.weaken ((isDirId_of_get ((hd.inodes fromDir htf).trans hfd)).2 rfl)
  have hmove :=
    Moves.kept ⟨hstale, List.mem_cons_self, (by split <;> simp_all), (by split <;> simp [hfi.symm, hti.symm]),
    (hd.entries _ (by simpa using hne)).trans he, hd.free, (hd.inodes id hself).trans hs,
    ⟨td, (hd.inodes toDir htt).trans htd, Nat.pos_of_ne_zero htlink⟩, by rw [hd.cookie]⟩
  rw [hdb] at hmoved hmove
  obtain ⟨hec, hnl⟩ := h.dir_counted fromDir fd hfd (by simp)
  have hnl := hnl (Nat.pos_of_ne_zero hlink)
  have hkids := hmoved.children_eq fromDir
  have hsub := hmoved.subdirs_eq fromDir
  refine ⟨hmoved, hmove.settle ((hmoved.inodes fromDir hfi htf).trans hfd) ?_ ?_ ?_ ⟨?_, fun _ => ?_⟩
    fun n hn => hmoved.own fromDir fd n hfi htf hfd hn⟩ <;> rw [← hfd'] <;> simp only [leave, DirectoryInode.touch]
  · rcases target with _ | ⟨_, _, _⟩ <;> split <;> rfl
  · rcases target with _ | ⟨_, _, _⟩ <;> split <;> rfl
  all_goals by_cases hsame : toDir = fromDir <;> rcases target with _ | ⟨_, _, _⟩ <;>
    simp [hsame, eq_comm (a := fromDir) (b := toDir)] at hkids hsub ⊢
  all_goals try split
  all_goals simp_all
  all_goals omega

theorem renameTxn_consistent (hop : db.renameTxn now fromDir fromName toDir toName id c source (.directory fd)
      (if fromDir = toDir then none else some (.directory td)) target defer = .ok ws) :
    (db.commit ws).Consistent next := by
  obtain ⟨entered, hent, hop⟩ := bind_eq_ok.1 hop
  cases hop
  simp only [isDirectory_relocate, afterLeave] at hent ⊢
  rw [commit_append db (dropTarget toDir toName (now 0) defer target ++ _ ++ _),
    commit_append db (dropTarget toDir toName (now 0) defer target ++ _), commit_append db (dropTarget _ _ _ _ _)]
  generalize hdb : (db.commit (dropTarget toDir toName (now 0) defer target)).commit
    (moveEntry fromDir fromName toDir toName id c (if fromDir = toDir then c else db.readCookie toDir)
    (relocate fromDir toDir toName source)) = db₂
  generalize hfd' : leave (fromDir = toDir) source.isDirectory (target.map (·.2.2)) (now 1) fd = fd'
  obtain ⟨hmoved, hleft⟩ := renameTxn_left h hne he hs hti hfd hlink htd htlink ht hself hdb hfd'
  have hfi := h.entry_irrefl he
  obtain ⟨htf, htt⟩ := Consistent.target_ne h he ht
  split at hent
  · rename_i hsame
    rw [if_pos hsame] at hleft
    cases hent
    exact hleft
  rename_i hsame
  rw [if_neg hsame] at hleft
  obtain ⟨_, hent', hent⟩ := bind_eq_ok.1 hent
  obtain ⟨td', hent', heq⟩ := bind_eq_ok.1 hent'
  obtain ⟨_, _, hent'⟩ := bind_eq_ok.1 hent'
  cases hent'
  cases heq
  cases hent
  obtain ⟨htec, htnl⟩ := h.dir_counted toDir td htd (by simp)
  have htnl := htnl (Nat.pos_of_ne_zero htlink)
  have hkids := hmoved.children_eq toDir
  have hsub := hmoved.subdirs_eq toDir
  obtain ⟨hin, hen⟩ := settle_tables db₂ db fromDir fd'
  have hkind : ∀ i, IsDirId (db₂.inodes.put fromDir (.directory fd')) i ↔ IsDirId db₂.inodes i := by
    intro i
    rw [isDirId_put]
    split
    · rename_i hi; rw [hi, isDirId_of_get ((hmoved.inodes fromDir hfi htf).trans hfd)]; rfl
    · rfl
  refine hleft.settle (d := td) ?_ rfl rfl ?_ ⟨?_, fun _ => ?_⟩ ?_
  · rw [hin, Table.get_put_ne (Ne.symm hsame)]; exact (hmoved.inodes toDir hti htt).trans htd
  · simp only [DirectoryInode.touch]; split <;> omega
  · rw [hen]
    simp only [DirectoryInode.touch]
    rcases target with _ | ⟨_, _, tino⟩ <;> simp [hsame] at hkids ⊢ <;> omega
  · rw [hen, hin, subdirs_congr fun _ _ i _ _ => hkind i]
    simp only [DirectoryInode.touch]
    rcases target with _ | ⟨_, _, tino⟩
    · split <;> simp_all; omega
    have hk : tino.isDirectory = source.isDirectory := ht.2.2.1
    simp [hsame, hk] at hsub ⊢
    omega
  · intro n hn; rw [hen]; exact hmoved.own toDir td n hti htt htd hn

end RenameTxn

variable {fromDir toDir : InodeId} {fromName toName : Name} {c : Nat} {source : Inode} {defer : Bool}

theorem checkLinkedDirectory_ok {d : DirectoryInode} {u : Unit} (h : checkLinkedDirectory (.directory d) = .ok u) :
    d.nlink ≠ 0 := throwIf_eq_ok.1 h

/-- A rename that is performed has found its destination directory. -/
theorem renameChecked_toDir {target : Option (InodeId × Nat)}
    (hop : db.renameChecked now creds fromDir fromName toDir toName id c source target defer = .ok ws) :
    ∃ inode, db.inodes.get toDir = some inode := by
  obtain ⟨fromInode, hfd, hop⟩ := bind_eq_ok.1 hop
  obtain ⟨toInode, htd, hop⟩ := bind_eq_ok.1 hop
  unfold getToDir at htd
  split at htd
  · rename_i hsame; exact ⟨fromInode, hsame ▸ getInode_eq_ok.1 hfd⟩
  · cases hi : db.getInode toDir with
    | error e => rw [hi] at htd; cases htd
    | ok inode => exact ⟨inode, getInode_eq_ok.1 hi⟩

theorem renameChecked_ok (h : db.Consistent next) (he : db.entries.get (fromDir, fromName) = some (id, c))
    (hto : IsDirId db.inodes toDir)
    (hop : db.renameChecked now creds fromDir fromName toDir toName id c source (db.entries.get (toDir, toName)) defer
      = .ok ws) :
    ws = [] ∨ ∃ fd td target, db.inodes.get fromDir = some (.directory fd) ∧ fd.nlink ≠ 0 ∧
      db.inodes.get toDir = some (.directory td) ∧ td.nlink ≠ 0 ∧ TargetOk db source toDir toName target ∧
      target.map (·.1) ≠ some id ∧
      db.renameTxn now fromDir fromName toDir toName id c source (.directory fd)
        (if fromDir = toDir then none else some (.directory td)) target defer = .ok ws := by
  obtain ⟨fromInode, hfd, hop⟩ := bind_eq_ok.1 hop
  obtain ⟨toInode, htd, hop⟩ := bind_eq_ok.1 hop
  obtain ⟨_, hfl, hop⟩ := bind_eq_ok.1 hop
  obtain ⟨_, htl, hop⟩ := bind_eq_ok.1 hop
  iterate 6 obtain ⟨_, _, hop⟩ := bind_eq_ok.1 hop
  rw [getInode_eq_ok] at hfd
  obtain ⟨fd, hfd'⟩ := isDirId_get (h.isDirId_entry he)
  rw [hfd] at hfd'
  cases hfd'
  split at hop
  · obtain ⟨_, _, hop⟩ := bind_eq_ok.1 hop; cases hop; exact .inl rfl
  rename_i hself
  obtain ⟨target, ht, hop⟩ := bind_eq_ok.1 hop
  have htok := renameTargetEntry_ok ht
  have hother : target.map (·.1) ≠ some id := by
    intro hid
    rcases target with _ | ⟨tid, tc, tino⟩
    · cases hid
    · cases hid; exact hself (by rw [htok.1]; rfl)
  have hfl := checkLinkedDirectory_ok hfl
  unfold getToDir at htd
  by_cases hsame : fromDir = toDir
  · rw [if_pos hsame] at htd
    cases htd
    exact .inr ⟨fd, fd, target, hfd, hfl, hsame ▸ hfd, hfl, htok, hother, by rw [if_pos hsame]; exact hop⟩
  rw [if_neg hsame] at htd
  obtain ⟨td, htd'⟩ := isDirId_get hto
  rw [getInode, htd'] at htd
  cases htd
  exact .inr ⟨fd, td, target, hfd, hfl, htd', checkLinkedDirectory_ok htl, htok, hother,
    by rw [if_neg hsame]; exact hop⟩

theorem renameChecked_consistent (h : db.Consistent next) (hne : ¬(fromDir = toDir ∧ fromName = toName))
    (he : db.entries.get (fromDir, fromName) = some (id, c)) (hs : db.inodes.get id = some source) (hti : toDir ≠ id)
    (hto : IsDirId db.inodes toDir)
    (hop : db.renameChecked now creds fromDir fromName toDir toName id c source (db.entries.get (toDir, toName)) defer
      = .ok ws) :
    (db.commit ws).Consistent next := by
  rcases renameChecked_ok h he hto hop with rfl | ⟨fd, td, target, hfd, hfl, htd, htl, htok, hother, htxn⟩
  · exact h
  · exact renameTxn_consistent h hne he hs hti hfd hfl htd htl htok hother htxn

theorem rename_consistent {replaceExisting : Bool}
    (h : db.Consistent next) (hto : IsDirId db.inodes toDir)
    (hop : db.rename now creds fromDir fromName toDir toName replaceExisting defer = .ok ws) :
    (db.commit ws).Consistent next := by
  obtain ⟨_, _, hop⟩ := bind_eq_ok.1 hop
  split at hop
  · cases hop; exact h
  rename_i hne
  obtain ⟨⟨id, c⟩, he, hop⟩ := bind_eq_ok.1 hop
  obtain ⟨_, hti, hop⟩ := bind_eq_ok.1 hop
  obtain ⟨_, _, hop⟩ := bind_eq_ok.1 hop
  obtain ⟨source, hs, hop⟩ := bind_eq_ok.1 hop
  obtain ⟨_, _, hop⟩ := bind_eq_ok.1 hop
  exact renameChecked_consistent h hne (getEntryWithCookie_eq_ok.1 he) (getInode_eq_ok.1 hs)
    (throwIf_eq_ok.1 hti) hto hop

end NsDb
end ZeroFS
