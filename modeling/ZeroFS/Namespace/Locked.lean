import ZeroFS.Namespace.Run
import ZeroFS.Namespace.Tree

/-!
# What a transaction changes under its locks

The transaction of a call with the locks `held` changes entries of locked directories and entries that name locked
inodes only, deletes at most `gone`, makes at most `fresh`, changes no size, and only `orphan` may become an orphan.
-/

namespace ZeroFS

open List Table

def NsWrite.record : NsWrite → Option InodeId
  | .saveInode id _ => some id
  | .deleteInode id => some id
  | _ => none

def NsWrite.orphaned : NsWrite → Option InodeId
  | .addOrphan id => some id
  | _ => none

/-- A save leaves the size as it is. -/
def NsWrite.Sized (db : NsDb) : NsWrite → Prop
  | .saveInode id inode => ∃ old, db.inodes.get id = some old ∧ inode.size = old.size
  | _ => True

/-- The write keeps to the locks `held`: it deletes at most `gone` and makes at most `fresh`, no size changes, and only
`orphan` may become an orphan. -/
def NsWrite.Allowed (db : NsDb) (held : List InodeId) (gone fresh orphan : Option InodeId) (w : NsWrite) : Prop :=
  match w with
  | .saveInode id _ => gone ≠ some id ∧ (fresh = some id ∨ id ∈ held ∧ w.Sized db)
  | .deleteInode id => gone = some id ∧ id ∈ held
  | .addOrphan id => orphan = some id
  | _ => True

namespace Inode

/-- One unlink more and nothing names the inode. -/
def lastLink (inode : Inode) : Bool := inode.isDirectory || inode.nlink ≤ 1

end Inode

namespace NsDb

variable {db : NsDb} {next : Nat} {now : Nat → Timestamp} {creds : Credentials} {ws : List NsWrite} {i id : InodeId}

theorem commit_record {i : InodeId} (h : ∀ w ∈ ws, w.record ≠ some i) :
    (db.commit ws).inodes.get i = db.inodes.get i := by
  induction ws generalizing db with
  | nil => rfl
  | cons w ws ih =>
    rw [commit_cons, ih fun w' hw' => h w' (mem_cons_of_mem _ hw')]
    have hw := h w mem_cons_self
    cases w with
    | saveInode id inode => exact get_put_ne fun e => hw (by rw [e]; rfl)
    | deleteInode id => exact get_del_ne fun e => hw (by rw [e]; rfl)
    | _ => rfl

theorem commit_orphans (h : ((db.commit ws).orphans.get i).isSome) :
    (db.orphans.get i).isSome ∨ ∃ w ∈ ws, w.orphaned = some i := by
  induction ws generalizing db with
  | nil => exact .inl h
  | cons w ws ih =>
    rcases ih h with h | ⟨w', hw', ho⟩
    · cases w with
      | addOrphan id =>
        by_cases heq : i = id
        · exact .inr ⟨_, mem_cons_self, by rw [heq]; rfl⟩
        · exact .inl (by rwa [apply, get_put_ne heq] at h)
      | removeOrphan id =>
        by_cases heq : i = id
        · rw [heq, apply, get_del_self] at h; cases h
        · exact .inl (by rwa [apply, get_del_ne heq] at h)
      | _ => exact .inl h
    · exact .inr ⟨w', mem_cons_of_mem _ hw', ho⟩

/-- Saves that keep sizes keep the size of every inode that is not deleted. -/
theorem commit_size {o : Option Nat} (ho : (db.inodes.get i).map Inode.size = o)
    (hsave : ∀ inode, .saveInode i inode ∈ ws → some inode.size = o) (hdel : .deleteInode i ∉ ws) :
    ((db.commit ws).inodes.get i).map Inode.size = o := by
  induction ws generalizing db with
  | nil => exact ho
  | cons w ws ih =>
    refine ih ?_ (fun inode hw => hsave inode (mem_cons_of_mem _ hw)) (fun hw => hdel (mem_cons_of_mem _ hw))
    cases w with
    | saveInode id inode =>
      by_cases heq : i = id
      · subst heq; rw [apply, get_put_self]; exact hsave inode mem_cons_self
      · rw [apply, get_put_ne heq]; exact ho
    | deleteInode id =>
      by_cases heq : i = id
      · subst heq; exact absurd mem_cons_self hdel
      · rw [apply, get_del_ne heq]; exact ho
    | _ => exact ho

theorem commit_deleted (hsave : ∀ inode, .saveInode i inode ∉ ws)
    (hdel : .deleteInode i ∈ ws ∨ db.inodes.get i = none) : (db.commit ws).inodes.get i = none := by
  induction ws generalizing db with
  | nil =>
    rcases hdel with hdel | hdel
    · cases hdel
    · exact hdel
  | cons w ws ih =>
    refine ih (fun inode hw => hsave inode (mem_cons_of_mem _ hw)) ?_
    rcases hdel with hdel | hdel
    · rcases mem_cons.1 hdel with rfl | hdel
      · right; rw [apply, get_del_self]
      · exact .inl hdel
    right
    cases w with
    | saveInode id inode =>
      by_cases heq : i = id
      · subst heq; exact absurd mem_cons_self (hsave inode)
      · rw [apply, get_put_ne heq]; exact hdel
    | deleteInode id =>
      rw [apply, get_del]
      split
      · rfl
      · exact hdel
    | _ => exact hdel

/-- What the transaction of a call with the locks `held` changes. -/
structure Locked (db : NsDb) (held : List InodeId) (ws : List NsWrite) (gone fresh orphan : Option InodeId) : Prop where
  entries : ∀ d n, d ∉ held → (db.commit ws).entries.get (d, n) = db.entries.get (d, n)
  named : ∀ d n i c, db.entries.get (d, n) = some (i, c) → i ∉ held → (db.commit ws).entries.get (d, n) = some (i, c)
  inodes : ∀ i, i ∉ held → (db.inodes.get i).isSome → (db.commit ws).inodes.get i = db.inodes.get i
  sizes : ∀ i, gone ≠ some i → fresh ≠ some i →
    ((db.commit ws).inodes.get i).map Inode.size = (db.inodes.get i).map Inode.size
  gone : ∀ i, gone = some i → (db.commit ws).inodes.get i = none
  orphans : ∀ i, ((db.commit ws).orphans.get i).isSome → (db.orphans.get i).isSome ∨ orphan = some i

section

variable {w : NsWrite} {dirid fileid : InodeId} {name : Name} {held : List InodeId} {t : Timestamp}
  {defer : Bool} {inode : Inode}

theorem Locked.nil (db : NsDb) (held : List InodeId) : Locked db held [] none none none :=
  ⟨fun _ _ _ => rfl, fun _ _ _ _ he _ => he, fun _ _ _ => rfl, fun _ _ _ => rfl, nofun, fun _ h => .inl h⟩

/-- The bounds of a transaction, write by write; `keys` are the entries that it may change. -/
theorem Locked.of_writes {gone fresh orphan : Option InodeId} (keys : List (InodeId × Name))
    (hentries : ∀ k ∉ keys, (db.commit ws).entries.get k = db.entries.get k)
    (hkeys : ∀ k ∈ keys, k.1 ∈ held ∧ ∀ i ∈ (db.entries.get k).map (·.1), i ∈ held)
    (hall : ∀ w ∈ ws, w.Allowed db held gone fresh orphan) (hfresh : ∀ i, fresh = some i → db.inodes.get i = none)
    (hgone : ∀ i, gone = some i → .deleteInode i ∈ ws) : Locked db held ws gone fresh orphan := by
  refine ⟨fun d n hd => hentries _ fun hk => hd (hkeys _ hk).1,
    fun d n i c he hi => (hentries _ fun hk => hi ((hkeys _ hk).2 i (by simp [he]))).trans he,
    fun i hi hsome => commit_record fun w hw hr => ?_,
    fun i hg hf => commit_size rfl (fun inode hw => ?_) fun hw => hg (hall _ hw).1,
    fun i hi => commit_deleted (fun inode hw => (hall _ hw).1 hi) (.inl (hgone i hi)), fun i hi => ?_⟩
  · have hallowed := hall w hw
    cases w with
    | saveInode id inode =>
      cases hr
      rcases hallowed.2 with hf | hheld
      · simp [hfresh i hf] at hsome
      · exact hi hheld.1
    | deleteInode id => cases hr; exact hi hallowed.2
    | _ => cases hr
  · obtain ⟨-, hmade | ⟨-, old, hold, hsize⟩⟩ := hall _ hw
    · exact absurd hmade hf
    · rw [hold, hsize]; rfl
  · rcases commit_orphans hi with hi | ⟨w, hw, ho⟩
    · exact .inl hi
    have hallowed := hall w hw
    cases w with
    | addOrphan id => cases ho; exact .inr hallowed
    | _ => cases ho

theorem refreshOwnEntry_allowed {d : DirectoryInode} {gone fresh orphan : Option InodeId} :
    ∀ w ∈ db.refreshOwnEntry i d, w.Allowed db held gone fresh orphan := by
  rcases refreshOwnEntry_cases db i d with he | ⟨p, c, n, v, he⟩ <;> simp [he, NsWrite.Allowed]

/-! ## create and link -/

theorem addChild_locked {dir dir' : DirectoryInode} {child : Inode} (h : db.Consistent next) (hdir : dirid ∈ held)
    (hd : db.newEntryParent creds dirid name = .ok dir) :
    Locked db held (db.addChild dirid name dir' next child) none (some next) none := by
  obtain ⟨hdget, _, hfree⟩ := newEntryParent_ok hd
  refine .of_writes [(dirid, name)] (fun k hk => ?_) (by simp [hdir, hfree]) ?_ ?_ (by simp)
  · rw [addChild_entries, get_put_ne (by simpa using hk)]
  · have hrefresh : ∀ w ∈ db.refreshOwnEntry dirid dir', w.Allowed db held none (some next) none :=
      refreshOwnEntry_allowed
    simp only [addChild, add, forall_mem_append, forall_mem_cons]
    exact ⟨⟨⟨⟨trivial, ⟨(by simp), .inl rfl⟩, (by simp)⟩, trivial, trivial, (by simp)⟩,
      ⟨(by simp), .inr ⟨hdir, _, hdget, rfl⟩⟩, (by simp)⟩, hrefresh⟩
  · rintro j ⟨⟩; exact h.get_next

theorem create_locked {attr : SetAttributes} (h : db.Consistent next)
    (hdir : dirid ∈ held) (hop : db.create now creds next dirid name attr = .ok ws) :
    Locked db held ws none (some next) none ∧ ((db.commit ws).inodes.get next).map Inode.size = some 0 ∧
      ∃ c, (db.commit ws).entries.get (dirid, name) = some (next, c) := by
  obtain ⟨_, _, hop⟩ := bind_eq_ok.1 hop
  obtain ⟨dir, hd, hop⟩ := bind_eq_ok.1 hop
  obtain ⟨child, hchild, hop⟩ := bind_eq_ok.1 hop
  have hsize : child.size = 0 := by
    cases hchild
    rfl
  cases hop
  refine ⟨addChild_locked h hdir hd, ?_, ⟨_, by rw [addChild_entries, get_put_self]⟩⟩
  have hne : dirid ≠ next := by
    rintro rfl
    cases (newEntryParent_ok hd).1.symm.trans h.get_next
  -- the record of the new file is saved before its parent's
  rw [addChild, append_assoc, commit_append]
  refine commit_size ?_ (fun inode hw => ?_) (fun hw => ?_)
  · simp only [add, commit_cons, commit_nil, apply, cons_append, nil_append, get_put_self, Option.map_some, hsize]
  all_goals
    rcases refreshOwnEntry_cases db dirid (withChild dir child (now 0)) with he | ⟨p, c, n, v, he⟩
    all_goals simp [he, Ne.symm hne] at hw

theorem link_entries (h : db.Consistent next)
    (hop : db.link now creds fileid dirid name = .ok ws) :
    ∃ c, (db.commit ws).entries = db.entries.put (dirid, name) (fileid, c) := by
  obtain ⟨dir, l, unembed, _, _, hf, _, hun, rfl⟩ := link_ok hop
  refine ⟨db.readCookie dirid, ?_⟩
  rw [append_cons, append_assoc, commit_append, (settle_tables _ db dirid _).2]
  exact (addLink_tables (unembeds_of_ok h hf hun) rfl).2

theorem relink_size (l : LeafInode) (dirid : InodeId) (name : Name) :
    (Inode.leaf (relink now l dirid name)).size = (Inode.leaf l).size := by
  obtain ⟨kind, a, p, n, k⟩ := l
  unfold relink
  split <;> cases kind <;> rfl

theorem link_locked (h : db.Consistent next) (hfile : fileid ∈ held)
    (hdir : dirid ∈ held) (hop : db.link now creds fileid dirid name = .ok ws) : Locked db held ws none none none := by
  obtain ⟨k, hentries⟩ := link_entries h hop
  obtain ⟨dir, l, unembed, hd, _, hf, hfree, hun, rfl⟩ := link_ok hop
  have hunembed : ∀ w ∈ unembed, w.Allowed db held none none none := by
    rcases unembeds_of_ok h hf hun with ⟨_, rfl⟩ | ⟨p, n, c, _, _, _, rfl⟩ <;> simp [NsWrite.Allowed]
  refine .of_writes [(dirid, name)] (fun k hk => ?_) (by simp [hdir, hfree]) ?_ (by simp) (by simp)
  · rw [hentries, get_put_ne (by simpa using hk)]
  · simp only [add, forall_mem_append, forall_mem_cons]
    refine ⟨⟨⟨⟨⟨⟨trivial, (by simp)⟩, hunembed⟩, trivial, trivial, (by simp)⟩, ?_⟩,
      ⟨(by simp), .inr ⟨hfile, _, hf, relink_size l dirid name⟩⟩,
      ⟨(by simp), .inr ⟨hdir, _, hd, rfl⟩⟩, (by simp)⟩, refreshOwnEntry_allowed⟩
    split <;> simp [NsWrite.Allowed]

/-! ## remove and rename -/

/-- The inode that an unlink deletes. -/
def goneBy (id : InodeId) (inode : Inode) (defer : Bool) : Option InodeId :=
  if inode.lastLink && !defer then some id else none

/-- The inode that an unlink leaves as an orphan. -/
def orphanedBy (id : InodeId) (inode : Inode) (defer : Bool) : Option InodeId :=
  if inode.lastLink && defer then some id else none

theorem goneBy_ne (h : i ≠ id) : goneBy id inode defer ≠ some i := by
  unfold goneBy
  split
  · exact fun heq => h (Option.some.inj heq).symm
  · exact nofun

theorem size_leaf (l : LeafInode) (a : Attrs) (p : Option InodeId) (n : Option Name) (k : Nat) :
    (Inode.leaf ⟨l.kind, a, p, n, k⟩).size = (Inode.leaf l).size := by
  obtain ⟨kind, _, _, _, _⟩ := l
  cases kind <;> rfl

/-- The writes of an unlink delete the inode, or keep its record and size. -/
theorem dropLink_allowed (hi : db.inodes.get id = some inode) (hid : id ∈ held) :
    ∀ w ∈ dropLink t id defer inode, w.Allowed db held (goneBy id inode defer) none (orphanedBy id inode defer) := by
  cases inode with
  | leaf l =>
    have hlast : (Inode.leaf l).lastLink = decide (l.nlink ≤ 1) := rfl
    simp only [dropLink]
    split
    · have : ¬l.nlink ≤ 1 := by omega
      simp [NsWrite.Allowed, NsWrite.Sized, goneBy, hlast, this, hid, hi, size_leaf]
    · split <;> simp_all [NsWrite.Allowed, NsWrite.Sized, goneBy, orphanedBy, size_leaf]
  | directory d =>
    have hsize : ∀ d' : DirectoryInode, (Inode.directory d').size = (Inode.directory d).size := fun _ => rfl
    have hlast : (Inode.directory d).lastLink = true := rfl
    simp only [dropLink]
    split <;> simp_all [NsWrite.Allowed, NsWrite.Sized, goneBy, orphanedBy]

theorem dropLink_deletes (h : goneBy id inode defer = some i) : .deleteInode i ∈ dropLink t id defer inode := by
  unfold goneBy at h
  split at h <;> cases h
  rename_i hand
  obtain ⟨hlast, hdefer⟩ := Bool.and_eq_true_iff.1 hand
  rw [Bool.not_eq_true'] at hdefer
  subst hdefer
  cases inode with
  | leaf l =>
    have hle : l.nlink ≤ 1 := of_decide_eq_true hlast
    simp only [dropLink]
    rw [if_neg (by omega), if_neg (by simp)]
    exact mem_cons_self
  | directory d => exact mem_cons_self

end

section

variable {held : List InodeId} {defer : Bool} {c : Nat} {fromDir toDir : InodeId} {fromName toName : Name}
  {source : Inode}

theorem remove_locked {dirid : InodeId} {name : Name} {expected : Option Bool} (h : db.Consistent next)
    (hdir : dirid ∈ held) (hid : id ∈ held) (he : db.entries.get (dirid, name) = some (id, c))
    (hop : db.remove now creds dirid name expected defer = .ok ws) :
    ∃ inode, db.inodes.get id = some inode ∧
    Locked db held ws (goneBy id inode defer) none (orphanedBy id inode defer) := by
  have hent := remove_entries hop
  obtain ⟨dir, id', c', inode, hd, _, he', hi, _, hws⟩ := remove_ok hop
  rw [he] at he'
  cases he'
  have hne := h.entry_irrefl he
  refine ⟨inode, hi, ?_⟩
  refine .of_writes [(dirid, name)] (fun k hk => ?_) (by simp [hdir, he, hid]) ?_ (by simp) fun i hgone => ?_
  · rw [hent, get_del_ne (by simpa using hk)]
  · rw [hws]
    simp only [unlinkEntry, forall_mem_append, forall_mem_cons]
    exact ⟨⟨⟨dropLink_allowed hi hid, trivial, trivial, (by simp)⟩, ⟨goneBy_ne hne, .inr ⟨hdir, _, hd, rfl⟩⟩,
      (by simp)⟩, refreshOwnEntry_allowed⟩
  · rw [hws]
    exact mem_append_left _ (mem_append_left _ (mem_append_left _ (dropLink_deletes hgone)))

theorem renameTxn_entries_kept {fromInode : Inode}
    {toInode : Option Inode} {target : Option (InodeId × Nat × Inode)} (h : db.Consistent next)
    (hto : IsDirId db.inodes toDir) (ht : TargetOk db source toDir toName target)
    (hop : db.renameTxn now fromDir fromName toDir toName id c source fromInode toInode target defer = .ok ws)
    {k : InodeId × Name} (hfrom : k ≠ (fromDir, fromName)) (htok : k ≠ (toDir, toName)) :
    (db.commit ws).entries.get k = db.entries.get k := by
  obtain ⟨_, hentries⟩ := renameTxn_entries hop
  rw [hentries, get_put_ne htok, get_del_ne hfrom]
  exact (Consistent.targetDropped (now 0) defer h hto ht).entries k htok

theorem renameTxn_allowed {fd td : DirectoryInode} {target : Option (InodeId × Nat × Inode)}
    (gone orphan : Option InodeId) (hs : db.inodes.get id = some source)
    (hfd : db.inodes.get fromDir = some (.directory fd)) (htd : db.inodes.get toDir = some (.directory td))
    (hop : db.renameTxn now fromDir fromName toDir toName id c source (.directory fd)
      (if fromDir = toDir then none else some (.directory td)) target defer = .ok ws)
    (hheld : fromDir ∈ held ∧ toDir ∈ held ∧ id ∈ held)
    (hgone : gone ≠ some fromDir ∧ gone ≠ some toDir ∧ gone ≠ some id) :
    ∃ rest, ws = dropTarget toDir toName (now 0) defer target ++ rest ∧
    ∀ w ∈ rest, w.Allowed db held gone none orphan := by
  obtain ⟨entered, hent, hop⟩ := bind_eq_ok.1 hop
  cases hop
  refine ⟨_, by rw [append_assoc, append_assoc], ?_⟩
  simp only [moveEntry, unlinkEntry, add, forall_mem_append, forall_mem_cons]
  refine ⟨⟨⟨⟨⟨trivial, trivial, (by simp)⟩, ?_⟩, trivial, trivial, (by simp)⟩,
    ⟨hgone.2.2, .inr ⟨hheld.2.2, _, hs, relocate_size ..⟩⟩, (by simp)⟩,
    ⟨⟨⟨hgone.1, .inr ⟨hheld.1, _, hfd, rfl⟩⟩, (by simp)⟩, refreshOwnEntry_allowed⟩, ?_⟩
  · split <;> simp [NsWrite.Allowed]
  split at hent
  · cases hent; simp
  obtain ⟨toInode, hto, hent⟩ := bind_eq_ok.1 hent
  obtain ⟨td', _, hto⟩ := bind_eq_ok.1 hto
  cases hto
  cases hent
  simp only [forall_mem_append, forall_mem_cons]
  exact ⟨⟨⟨hgone.2.1, .inr ⟨hheld.2.1, _, htd, rfl⟩⟩, (by simp)⟩, refreshOwnEntry_allowed⟩

/-- A rename under its locks: it drops the last link of its target, if that is another inode than its source. -/
theorem renameChecked_locked (h : db.Consistent next)
    (he : db.entries.get (fromDir, fromName) = some (id, c)) (hs : db.inodes.get id = some source)
    (hto : IsDirId db.inodes toDir) (hfrom : fromDir ∈ held) (htod : toDir ∈ held) (hid : id ∈ held)
    (htarget : ∀ x ∈ (db.entries.get (toDir, toName)).map (·.1), x ∈ held)
    (hop : db.renameChecked now creds fromDir fromName toDir toName id c source (db.entries.get (toDir, toName)) defer
      = .ok ws) :
    match (db.entries.get (toDir, toName)).map (·.1) with
    | none => Locked db held ws none none none
    | some x => if x = id then ws = [] else
        ∃ inode, db.inodes.get x = some inode ∧
            Locked db held ws (goneBy x inode defer) none (orphanedBy x inode defer) := by
  rcases renameChecked_ok h he hto hop with rfl | ⟨fd, td, target, hfd, _, htd, _, htok, hother, htxn⟩
  · split
    · exact .nil db held
    split
    · rfl
    rename_i x hx hne
    -- only a rename between two links of one inode writes nothing
    iterate 10 obtain ⟨_, _, hop⟩ := bind_eq_ok.1 hop
    rw [if_neg (by rw [hx]; exact fun heq => hne (Option.some.inj heq))] at hop
    iterate 2 obtain ⟨_, _, hop⟩ := bind_eq_ok.1 hop
    have hnil := Except.ok.inj hop
    simp only [moveEntry, unlinkEntry, append_eq_nil_iff, cons_ne_nil, false_and, and_false] at hnil
  have hentries : ∀ k ∉ [(fromDir, fromName), (toDir, toName)], (db.commit ws).entries.get k = db.entries.get k :=
    fun k hk =>
    renameTxn_entries_kept h hto htok htxn (by simp_all) (by simp_all)
  have hkeys : ∀ k ∈ [(fromDir, fromName), (toDir, toName)], k.1 ∈ held ∧
      ∀ i ∈ (db.entries.get k).map (·.1), i ∈ held := by
    simp only [forall_mem_cons]
    exact ⟨⟨hfrom, by simp [he, hid]⟩, ⟨htod, htarget⟩, by simp⟩
  rcases target with _ | ⟨x, k, inode⟩
  · rw [show db.entries.get (toDir, toName) = none from htok]
    obtain ⟨rest, hws, hrest⟩ := renameTxn_allowed none none hs hfd htd htxn ⟨hfrom, htod, hid⟩
      ⟨(by simp), (by simp), (by simp)⟩
    rw [show ws = rest from hws] at hentries ⊢
    exact .of_writes _ hentries hkeys hrest (by simp) (by simp)
  obtain ⟨hnf, hnt⟩ := Consistent.target_ne h he htok
  obtain ⟨hte, hti, _, _⟩ := htok
  have hxid : x ≠ id := fun heq => hother (congrArg some heq)
  rw [hte]
  dsimp only [Option.map_some]
  rw [if_neg hxid]
  obtain ⟨rest, hws, hrest⟩ := renameTxn_allowed (goneBy x inode defer) (orphanedBy x inode defer) hs hfd htd htxn
    ⟨hfrom, htod, hid⟩ ⟨goneBy_ne fun heq => hnf (congrArg some heq.symm),
    goneBy_ne fun heq => hnt (congrArg some heq.symm), goneBy_ne (Ne.symm hxid)⟩
  refine ⟨inode, hti, .of_writes _ hentries hkeys ?_ (by simp) fun j hj => ?_⟩
  · rw [hws]
    simp only [dropTarget, unlinkEntry, forall_mem_append, forall_mem_cons]
    exact ⟨⟨dropLink_allowed hti (htarget x (by rw [hte]; rfl)), trivial, trivial, (by simp)⟩, hrest⟩
  · rw [hws]; exact mem_append_left _ (mem_append_left _ (dropLink_deletes hj))

/-! ## reclaim -/

/-- An orphan is deleted, anything else is left alone. -/
theorem reclaimOrphanInode_locked (h : db.Consistent next) (hid : id ∈ held) :
    (∃ inode, db.inodes.get id = some inode ∧ inode.nlink = 0 ∧
      Locked db held (db.reclaimOrphanInode id) (some id) none none) ∨
      ((∀ inode, db.inodes.get id = some inode → inode.nlink ≠ 0) ∧ db.reclaimOrphanInode id = []) := by
  have hdelete : ∀ ws, (ws = [.deleteInode id, .removeOrphan id] ∨
      ws = [.deleteInode id, .deleteCounter id, .removeOrphan id]) → Locked db held ws (some id) none none := by
    rintro ws (rfl | rfl)
    all_goals exact .of_writes [] (fun _ _ => rfl) nofun (by simp [NsWrite.Allowed, hid]) nofun (by simp)
  rcases reclaimOrphanInode_cases h id with ⟨inode, hi, hl, -, hws⟩ | hkept
  · exact .inl ⟨inode, hi, hl, hdelete _ (hws.imp_right And.right)⟩
  · exact .inr hkept

theorem reclaimOrphanInode_get (h : db.Consistent next) (hne : i ≠ id) :
    (db.commit (db.reclaimOrphanInode id)).inodes.get i = db.inodes.get i := by
  rcases reclaimOrphanInode_locked h (mem_singleton_self id) with ⟨_, _, _, hl⟩ | ⟨_, hnil⟩
  · cases hi : db.inodes.get i with
    | none =>
      have hsize := hl.sizes i (fun heq => hne (Option.some.inj heq).symm) nofun
      rw [hi] at hsize
      exact Option.map_eq_none_iff.1 hsize
    | some inode => exact (hl.inodes i (fun hm => hne (mem_singleton.1 hm)) (by rw [hi]; rfl)).trans hi
  · rw [hnil]; rfl

/-! ## Saves -/

end

/-- The transaction writes nothing but the record of `id`, which keeps its place. -/
def Saves (db : NsDb) (id : InodeId) (ws : List NsWrite) : Prop :=
  (db.commit ws).entries = db.entries ∧
    ((db.commit ws).inodes = db.inodes ∨ ∃ inode inode', db.inodes.get id = some inode ∧ SamePlace inode inode' ∧
    (db.commit ws).inodes = db.inodes.put id inode')

theorem Updates.saves (h : Updates db id ws) : Saves db id ws := by
  rcases h with rfl | ⟨inode, inode', hi, hsame, hop⟩
  · exact ⟨rfl, .inl rfl⟩
  obtain ⟨refresh, hr, hop⟩ := bind_eq_ok.1 hop
  cases hop
  unfold refreshEntry at hr
  split at hr
  · obtain ⟨_, _, hr⟩ := bind_eq_ok.1 hr
    cases hr
    exact ⟨rfl, .inr ⟨inode, inode', hi, hsame, rfl⟩⟩
  · cases hr; exact ⟨rfl, .inr ⟨inode, inode', hi, hsame, rfl⟩⟩

end NsDb

end ZeroFS
