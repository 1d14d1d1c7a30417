import ZeroFS.Namespace.Locked
import ZeroFS.Namespace.Threads

/-!
# The directory tree under concurrent calls

A commit changes only rows of inodes that its thread has locked (`CommitOk`), so what a thread has verified is kept by
the others. The one fact a rename uses about unlocked inodes, that its destination is not below its source, is kept
while no other thread moves a directory.
-/

namespace ZeroFS

open Forest List Table Machine

/-! ## What a transaction leaves alone -/

namespace NsDb

variable {db : NsDb} {next : Nat} {now : Nat → Timestamp} {creds : Credentials} {ws : List NsWrite}

/-- A transaction of a thread that holds the locks `held`: it keeps the tables consistent and the entries rooted, and it
changes only records and entries of locked inodes. -/
structure CommitOk (db : NsDb) (next : Nat) (held : List InodeId) (ws : List NsWrite) : Prop where
  consistent : (db.commit ws).Consistent next
  rooted : Rooted (db.commit ws).entries 0
  inodes : ∀ i, i ∉ held → (db.inodes.get i).isSome → (db.commit ws).inodes.get i = db.inodes.get i
  entries : ∀ d n, d ∉ held → (db.commit ws).entries.get (d, n) = db.entries.get (d, n)

/-- Entries of directories stay, unless the directory is empty and locked. -/
def KeepsDirs (db : NsDb) (held : List InodeId) (ws : List NsWrite) : Prop :=
  ∀ d n j c, db.entries.get (d, n) = some (j, c) → IsDirId db.inodes j →
    (j ∉ held ∨ ∃ n v, db.entries.get (j, n) = some v) → (db.commit ws).entries.get (d, n) = some (j, c)

variable {i dirid fromDir toDir : InodeId} {w : NsWrite} {name fromName toName : Name} {held : List InodeId}
  {attr : SetAttributes} {defer : Bool} {c : Nat} {source fromInode : Inode} {toInode : Option Inode}
  {target : Option (InodeId × Nat × Inode)}

section

variable (h : db.Consistent next) (hr : Rooted db.entries 0)
include h hr

theorem Creates.commitOk (hc : Creates db now creds next dirid name ws) (hheld : dirid ∈ held) :
    CommitOk db (next + 1) held ws ∧ KeepsDirs db held ws := by
  obtain ⟨dir, child, hd, hchild, rfl⟩ := hc
  have hlocked : Locked db held (db.addChild dirid name (withChild dir child (now 0)) next child) none
    (some next) none :=
    addChild_locked h hheld hd
  refine ⟨⟨Consistent.addChild h hd hchild _, addChild_rooted h hr hd, hlocked.inodes, hlocked.entries⟩, ?_⟩
  intro d n j c he _ _
  rw [addChild_entries, get_put_ne]
  · exact he
  intro hkey
  rw [hkey, (newEntryParent_ok hd).2.2] at he
  cases he

theorem remove_commitOk {id : InodeId} {expected : Option Bool} (hdir : dirid ∈ held) (hid : id ∈ held)
    (he : db.entries.get (dirid, name) = some (id, c))
    (hop : db.remove now creds dirid name expected defer = .ok ws) :
    CommitOk db next held ws ∧ KeepsDirs db held ws := by
  have hent := remove_entries hop
  obtain ⟨_, _, hlocked⟩ := remove_locked h hdir hid he hop
  refine ⟨⟨remove_consistent h hop, remove_rooted h hr hop, hlocked.inodes, hlocked.entries⟩, ?_⟩
  · intro d n j c' hj _ hocc
    rw [hent, get_del_ne]
    · exact hj
    intro hkey
    rw [hkey, he] at hj
    cases hj
    obtain ⟨_, _, _, _, _, _, he', hi, hempty, _⟩ := remove_ok hop
    rw [he] at he'
    cases he'
    rcases hocc with hj | ⟨n', v, hv⟩
    · exact hj hid
    · exact h.no_entries hi hempty n' v hv

theorem renameChecked_commitOk {id : InodeId}
    (hne : ¬(fromDir = toDir ∧ fromName = toName)) (he : db.entries.get (fromDir, fromName) = some (id, c))
    (hs : db.inodes.get id = some source) (hti : toDir ≠ id) (hto : IsDirId db.inodes toDir)
    (habove : ∀ td, db.inodes.get toDir = some (.directory td) → td.nlink ≠ 0 → source.isDirectory = true →
      Above db.entries id toDir 0)
    (hfrom : fromDir ∈ held) (htod : toDir ∈ held) (hid : id ∈ held)
    (htarget : ∀ x ∈ (db.entries.get (toDir, toName)).map (·.1), x ∈ held)
    (hop : db.renameChecked now creds fromDir fromName toDir toName id c source (db.entries.get (toDir, toName)) defer
      = .ok ws) :
    CommitOk db next held ws ∧ (source.isDirectory = false → KeepsDirs db held ws) := by
  have hcons := renameChecked_consistent h hne he hs hti hto hop
  have hroot := renameChecked_rooted h hr hne he hs hti hto habove hop
  rcases renameChecked_ok h he hto hop with rfl | ⟨fd, td, target, _, _, _, _, htok, _, htxn⟩
  · exact ⟨⟨hcons, hroot, fun _ _ _ => rfl, fun _ _ _ => rfl⟩, fun _ d n j c he _ _ => he⟩
  obtain ⟨_, _, hlocked⟩ : ∃ gone orphan, Locked db held ws gone none orphan := by
    have hl := renameChecked_locked h he hs hto hfrom htod hid htarget hop
    split at hl
    · exact ⟨_, _, hl⟩
    split at hl
    · rw [hl]; exact ⟨_, _, .nil db held⟩
    · obtain ⟨_, _, hl⟩ := hl; exact ⟨_, _, hl⟩
  refine ⟨⟨hcons, hroot, hlocked.inodes, hlocked.entries⟩, ?_⟩
  · intro hleaf d n j c' hj hjd _
    rw [renameTxn_entries_kept h hto htok htxn]
    · exact hj
    · intro hkey
      rw [hkey, he] at hj
      cases hj
      rw [isDirId_of_get hs, hleaf] at hjd
      cases hjd
    · intro hkey
      rw [hkey] at hj
      rcases target with _ | ⟨tid, tc, tino⟩
      · rw [show db.entries.get (toDir, toName) = none from htok] at hj; cases hj
      rw [htok.1] at hj
      cases hj
      rw [isDirId_of_get htok.2.1, htok.2.2.1, hleaf] at hjd
      cases hjd

end

end NsDb

/-! ## What a thread relies on -/

/-- What a verified rename relies on; its locks protect it. -/
structure VerifiedOk (db : NsDb) (held : List InodeId) (r : Verified) : Prop where
  entry : db.entries.get (r.fromDir, r.fromName) = some (r.sourceId, r.cookie)
  target : db.entries.get (r.toDir, r.toName) = r.target
  source : db.inodes.get r.sourceId = some r.source
  toDir : IsDirId db.inodes r.toDir
  ne_source : r.toDir ≠ r.sourceId
  ne_names : ¬(r.fromDir = r.toDir ∧ r.fromName = r.toName)
  from_held : r.fromDir ∈ held
  to_held : r.toDir ∈ held
  source_held : r.sourceId ∈ held
  target_held : ∀ x ∈ r.target.map (·.1), x ∈ held

namespace Thread

variable {db : NsDb} {next : Nat} {t t' : Thread} {ws : List NsWrite} {busy : InodeId → Bool}

/-- The rename that the thread has verified. -/
def verified (t : Thread) : Option Verified :=
  match t.phase with
  | .walking r _ => some r
  | .ready r => some r
  | _ => none

/-- How far the ancestor walk has come. -/
def current (t : Thread) : InodeId :=
  match t.phase with
  | .walking _ current => current
  | _ => 0

/-- The locks that a thread's transaction needs are held or still to be taken. -/
def Planned (t : Thread) : Prop :=
  match t.phase, t.call with
  | .foundSource id _, .rename fromDir fromName toDir toName _ _ =>
    toDir ≠ id ∧ ¬(fromDir = toDir ∧ fromName = toName)
  | .locking todo _, .create dirid _ _ => dirid ∈ todo ++ t.held
  | .locking todo _, .mkdir dirid _ _ => dirid ∈ todo ++ t.held
  | .locking todo (.entry id _), .remove dirid _ _ _ => dirid ∈ todo ++ t.held ∧ id ∈ todo ++ t.held
  | .locking todo (.move id _ targetId), .rename fromDir fromName toDir toName _ _ =>
    (toDir ≠ id ∧ ¬(fromDir = toDir ∧ fromName = toName)) ∧
      ∀ x ∈ [fromDir, id, toDir] ++ targetId.toList, x ∈ todo ++ t.held
  | _, _ => True

/-- A thread's locks protect what it relies on, and its walk has not met the source. -/
structure Ok (db : NsDb) (t : Thread) : Prop where
  planned : t.Planned
  verified : ∀ r, t.verified = some r → VerifiedOk db t.held r
  above : ∀ r, t.verified = some r → ∀ td, db.inodes.get r.toDir = some (.directory td) → td.nlink ≠ 0 →
    r.source.isDirectory = true → Above db.entries r.sourceId r.toDir t.current

theorem movesDirectory_eq_true : t.movesDirectory = true ↔ ∃ r, t.verified = some r ∧ r.source.isDirectory = true := by
  cases hp : t.phase <;> simp [movesDirectory, Thread.verified, hp]

theorem Ok.finish (db : NsDb) (t : Thread) : t.finish.Ok db := ⟨trivial, nofun, nofun⟩

/-- A thread that is still before its verification relies on its plan only. -/
theorem Ok.of_planned (hp : t.Planned) (hv : t.verified = none) : t.Ok db :=
  ⟨hp, fun _ hr => (nomatch hv.symm.trans hr), fun _ hr => (nomatch hv.symm.trans hr)⟩

/-- What a thread relies on survives another thread's transaction. -/
theorem Ok.other {held : List InodeId} {n : Nat} (h : db.Consistent next) (ht : t.Ok db)
    (hdisj : ∀ x ∈ t.held, x ∉ held) (hc : NsDb.CommitOk db n held ws)
    (hkeep : t.movesDirectory = true → NsDb.KeepsDirs db held ws) : t.Ok (db.commit ws) := by
  refine ⟨ht.planned, fun r hr => ?_, fun r hr td htd hl hdir => ?_⟩
  · have hv := ht.verified r hr
    refine { hv with entry := ?_, target := ?_, source := ?_, toDir := ?_ }
    · rw [hc.entries _ _ (hdisj _ hv.from_held)]; exact hv.entry
    · rw [hc.entries _ _ (hdisj _ hv.to_held)]; exact hv.target
    · rw [hc.inodes _ (hdisj _ hv.source_held) (by rw [hv.source]; rfl)]; exact hv.source
    · obtain ⟨d, hd⟩ := NsDb.isDirId_get hv.toDir
      rw [IsDirId, hc.inodes _ (hdisj _ hv.to_held) (by rw [hd]; rfl)]
      exact hv.toDir
  · have hv := ht.verified r hr
    have hk := hkeep (movesDirectory_eq_true.2 ⟨r, hr, hdir⟩)
    obtain ⟨td', htd'⟩ := NsDb.isDirId_get hv.toDir
    rw [hc.inodes _ (hdisj _ hv.to_held) (by rw [htd']; rfl)] at htd
    refine (ht.above r hr td htd hl hdir).kept fun d k j c he _ hocc => hk d k j c he ?_ ?_
    · rcases hocc with rfl | ⟨k', v, hv'⟩
      · exact hv.toDir
      · exact h.isDirId_entry hv'
    · rcases hocc with rfl | hocc
      · exact .inl (hdisj _ hv.to_held)
      · exact .inr hocc

/-- What one step of a thread does: it goes on without a write, or it commits and returns. -/
def Stepped (db : NsDb) (next : Nat) (busy : InodeId → Bool) (t t' : Thread) (ws : List NsWrite) : Prop :=
  (ws = [] ∧ t'.Ok db ∧ (∀ x ∈ t'.held, x ∈ t.held ∨ busy x = false) ∧
    (t'.movesDirectory = true → t.movesDirectory = true ∨
      ∃ id toDir, t.verifies = some (id, toDir) ∧ IsDirId db.inodes id)) ∨
  (t' = t.finish ∧ NsDb.CommitOk db (if t.allocates then next + 1 else next) t.held ws ∧
    (t.movesDirectory = false → NsDb.KeepsDirs db t.held ws))

variable {held : List InodeId} {fromDir toDir a b current : InodeId} {fromName toName : Name} {cookie : Nat}
  {inode : Inode} {td : DirectoryInode}

theorem Stepped.finish (db : NsDb) (next : Nat) (busy : InodeId → Bool) (t : Thread) :
    Stepped db next busy t t.finish [] :=
  .inl ⟨rfl, .finish db t, nofun, nofun⟩

theorem commitOk_nil {n : Nat} (h : db.Consistent next) (hr : Rooted db.entries 0) (hn : next ≤ n) :
    NsDb.CommitOk db n held [] ∧ NsDb.KeepsDirs db held [] := by
  refine ⟨⟨?_, hr, fun _ _ _ => rfl, fun _ _ _ => rfl⟩, fun d n j c he _ _ => he⟩
  exact { h with id_lt := fun i hi => Nat.lt_of_lt_of_le (h.id_lt i hi) hn }

theorem Stepped.commit {txn : Except FsError (List NsWrite)} (h : db.Consistent next) (hr : Rooted db.entries 0)
    (hok : ∀ ws, txn = .ok ws → NsDb.CommitOk db (if t.allocates then next + 1 else next) t.held ws ∧
      (t.movesDirectory = false → NsDb.KeepsDirs db t.held ws)) :
    Stepped db next busy t (t.commit txn).1 (t.commit txn).2 := by
  refine .inr ⟨rfl, ?_⟩
  cases txn with
  | error e =>
    have hle : next ≤ if t.allocates then next + 1 else next := by split <;> omega
    exact ⟨(commitOk_nil h hr hle).1, fun _ => (commitOk_nil h hr hle).2⟩
  | ok ws => exact hok ws rfl

theorem lookupSource_ok {id : InodeId}
    (h : lookupSource db fromDir fromName toDir toName = .ok (some (id, cookie))) :
    toDir ≠ id ∧ ¬(fromDir = toDir ∧ fromName = toName) := by
  obtain ⟨_, _, h⟩ := bind_eq_ok.1 h
  split at h
  · cases h
  rename_i hne
  obtain ⟨e, _, h⟩ := bind_eq_ok.1 h
  obtain ⟨_, hti, h⟩ := bind_eq_ok.1 h
  cases h
  exact ⟨throwIf_eq_ok.1 hti, hne⟩

theorem verify_ok {id : InodeId} {targetId : Option InodeId}
    {replaceExisting defer : Bool} {r : Verified}
    (h : verify db fromDir fromName toDir toName replaceExisting defer id cookie targetId = .ok r)
    (hto : IsDirId db.inodes toDir) (hne : toDir ≠ id ∧ ¬(fromDir = toDir ∧ fromName = toName))
    (hheld : ∀ x ∈ [fromDir, id, toDir] ++ targetId.toList, x ∈ held) :
    VerifiedOk db held r ∧ r.toDir = toDir ∧ r.sourceId = id := by
  obtain ⟨e, he, h⟩ := bind_eq_ok.1 h
  obtain ⟨_, hent, h⟩ := bind_eq_ok.1 h
  obtain ⟨_, _, h⟩ := bind_eq_ok.1 h
  obtain ⟨_, htgt, h⟩ := bind_eq_ok.1 h
  obtain ⟨source, hs, h⟩ := bind_eq_ok.1 h
  cases h
  rw [throwIf_eq_ok, not_not] at hent htgt
  rw [NsDb.getEntryWithCookie_eq_ok, hent] at he
  refine ⟨⟨he, rfl, NsDb.getInode_eq_ok.1 hs, hto, hne.1, hne.2, ?_, ?_, ?_, ?_⟩, rfl, rfl⟩
  · exact hheld _ (by simp)
  · exact hheld _ (by simp)
  · exact hheld _ (by simp)
  · intro x hx
    refine hheld x (mem_append_right _ ?_)
    rw [← htgt]
    simpa using hx

/-- The ancestor walk from a linked destination meets linked directories only. -/
theorem above_dir (h : db.Consistent next)
    (htd : db.inodes.get b = some (.directory td)) (hl : td.nlink ≠ 0) (habove : Above db.entries a b current)
    (hi : db.inodes.get current = some inode) : ∃ d, inode = .directory d ∧ d.nlink ≠ 0 := by
  rcases habove.occupied with rfl | ⟨k, v, he⟩
  · rw [hi] at htd; cases htd; exact ⟨td, rfl, hl⟩
  · obtain ⟨⟨d, hd, hlink⟩, _⟩ := h.entry_ok _ _ v.1 v.2 he
    rw [hi] at hd
    cases hd
    exact ⟨d, rfl, Nat.ne_of_gt hlink⟩

theorem walk_above {parent : InodeId} (h : db.Consistent next)
    (htd : db.inodes.get b = some (.directory td)) (hl : td.nlink ≠ 0) (habove : Above db.entries a b current)
    (h0 : current ≠ 0) (hi : db.inodes.get current = some inode) (hp : inode.parent = some parent) (hne : parent ≠ a) :
    Above db.entries a b parent := by
  obtain ⟨d, rfl, hlink⟩ := above_dir h htd hl habove hi
  cases hp
  rcases h.dir_placed current d hi with ⟨hz, _⟩ | ⟨_, ⟨_, hz⟩ | ⟨n, c, _, _, he⟩⟩
  · exact absurd hz hlink
  · exact absurd hz h0
  · exact .up habove he hne

theorem Stepped.goto {phase : Phase} (hp : (t.goto phase).Planned) (hv : (t.goto phase).verified = none) :
    Stepped db next busy t (t.goto phase) [] := by
  refine .inl ⟨rfl, .of_planned hp hv, fun x hx => .inl hx, fun hm => ?_⟩
  obtain ⟨r, hr, _⟩ := movesDirectory_eq_true.1 hm
  cases hv.symm.trans hr

/-- The lock moves from the plan to the locks held. -/
theorem Stepped.lock {id : InodeId} {todo : List InodeId} {found : Located} (hplan : t.Planned)
    (hphase : t.phase = .locking (id :: todo) found) (hbusy : busy id = false) :
    Stepped db next busy t { t with phase := .locking todo found, held := id :: t.held } [] := by
  refine .inl ⟨rfl, .of_planned ?_ rfl, fun x hx => ?_, nofun⟩
  · have hperm : ∀ x, x ∈ (id :: todo) ++ t.held → x ∈ todo ++ (id :: t.held) := by simp; tauto
    unfold Planned at hplan ⊢
    rw [hphase] at hplan
    cases hcall : t.call <;> cases found <;> simp only [hcall] at hplan ⊢
    all_goals first
      | exact hperm _ hplan
      | exact ⟨hperm _ hplan.1, hperm _ hplan.2⟩
      | exact ⟨hplan.1, fun x hx => hperm x (hplan.2 x hx)⟩
  · rcases mem_cons.1 hx with rfl | hx
    · exact .inr hbusy
    · exact .inl hx

/-- The thread goes on to `phase`, which relies on the rename `r`. -/
theorem Stepped.rely {r : Verified} {phase : Phase} (hver : (t.goto phase).verified = some r)
    (hv : VerifiedOk db t.held r)
    (hab : ∀ td, db.inodes.get r.toDir = some (.directory td) → td.nlink ≠ 0 → r.source.isDirectory = true →
      Above db.entries r.sourceId r.toDir (t.goto phase).current)
    (hmoves : r.source.isDirectory = true → t.movesDirectory = true ∨ ∃ id toDir, t.verifies = some (id, toDir) ∧
      IsDirId db.inodes id) : Stepped db next busy t (t.goto phase) [] := by
  refine .inl ⟨rfl, ⟨?_, fun r' hr' => ?_, fun r' hr' => ?_⟩, fun x hx => .inl hx, fun hm => ?_⟩
  · unfold Planned; unfold Thread.verified at hver; split <;> simp_all [Thread.goto]
  · cases hver.symm.trans hr'; exact hv
  · cases hver.symm.trans hr'; exact hab
  · obtain ⟨r', hr', hd⟩ := movesDirectory_eq_true.1 hm
    cases hver.symm.trans hr'
    exact hmoves hd

theorem stepped_start (hphase : t.phase = .start) (hs : t.step db next busy = some (t', ws)) :
    Stepped db next busy t t' ws := by
  unfold Thread.step at hs
  rw [hphase] at hs
  cases hcall : t.call with
  | create dirid name attr | mkdir dirid name attr =>
    rw [hcall] at hs
    cases hs
    exact .goto (by simp [Planned, Thread.goto, hcall]) rfl
  | remove dirid name expected defer =>
    rw [hcall] at hs
    dsimp only at hs
    split at hs <;> cases hs
    · exact .goto (by simp [Planned, Thread.goto, hcall, mem_lockOrder]) rfl
    · exact .finish ..
  | rename fromDir fromName toDir toName replaceExisting defer =>
    rw [hcall] at hs
    dsimp only at hs
    split at hs <;> cases hs
    · rename_i hlook
      refine .goto ?_ rfl
      simp only [Planned, Thread.goto, hcall]
      exact lookupSource_ok hlook
    · exact .finish ..

section

variable (h : db.Consistent next) (ht : t.Ok db)
include h ht

theorem stepped_walking {r : Verified} {current : InodeId} (hphase : t.phase = .walking r current)
    (hs : t.step db next busy = some (t', ws)) : Stepped db next busy t t' ws := by
  have hv := ht.verified r (by simp [Thread.verified, hphase])
  have habove := ht.above r (by simp [Thread.verified, hphase])
  simp only [Thread.current, hphase] at habove
  have hmoves : r.source.isDirectory = true → t.movesDirectory = true := by simp [movesDirectory, hphase]
  unfold Thread.step at hs
  rw [hphase] at hs
  dsimp only at hs
  split at hs
  · rename_i h0; cases hs; exact .rely rfl hv (by rw [h0] at habove; exact habove) fun hd => .inl (hmoves hd)
  rename_i h0
  split at hs
  · cases hs; exact .finish ..
  rename_i inode hi
  split at hs
  · rename_i hp
    cases hs
    refine .rely rfl hv (fun td htd hl hdir => ?_) fun hd => .inl (hmoves hd)
    obtain ⟨d, rfl, _⟩ := above_dir h htd hl (habove td htd hl hdir) hi
    cases hp
  · rename_i parent hp
    split at hs <;> cases hs
    · exact .finish ..
    rename_i hne
    refine .rely rfl hv (fun td htd hl hdir => ?_) fun hd => .inl (hmoves hd)
    exact walk_above h htd hl (habove td htd hl hdir) h0 hi hp hne

variable (hr : Rooted db.entries 0)
include hr

/-- The transaction of a call that has its locks. -/
theorem stepped_locked {found : Located} (hphase : t.phase = .locking [] found)
    (hinto : ∀ id toDir, t.verifies = some (id, toDir) → IsDirId db.inodes toDir)
    (hs : t.step db next busy = some (t', ws)) : Stepped db next busy t t' ws := by
  have hplan := ht.planned
  unfold Thread.step at hs
  rw [hphase] at hs
  cases hcall : t.call with
  | create dirid name attr | mkdir dirid name attr =>
    rw [hcall] at hs
    cases hs
    simp only [Planned, hphase, hcall, nil_append] at hplan
    refine .commit h hr fun ws hop => ?_
    simp only [allocates, hphase, hcall, if_true]
    first
      | exact ((NsDb.create_creates hop).commitOk h hr hplan).imp_right fun hk _ => hk
      | exact ((NsDb.mkdir_creates hop).commitOk h hr hplan).imp_right fun hk _ => hk
  | remove dirid name expected defer =>
    rw [hcall] at hs
    cases found with
    | entry id cookie =>
      simp only [Planned, hphase, hcall, nil_append] at hplan
      dsimp only at hs
      split at hs <;> cases hs
      · rename_i he
        refine .commit h hr fun ws hop => ?_
        simp only [allocates, hphase, hcall]
        exact (NsDb.remove_commitOk h hr hplan.1 hplan.2 he hop).imp_right fun hk _ => hk
      · exact .finish ..
    | _ => cases hs
  | rename fromDir fromName toDir toName replaceExisting defer =>
    rw [hcall] at hs
    cases found with
    | move id cookie targetId =>
      simp only [Planned, hphase, hcall, nil_append] at hplan
      dsimp only at hs
      split at hs <;> cases hs
      · rename_i r hver
        have hverifies : t.verifies = some (id, toDir) := by simp [verifies, hphase, hcall]
        obtain ⟨hv, hrto, hrid⟩ := verify_ok hver (hinto id toDir hverifies) hplan.1 hplan.2
        have hmoves : r.source.isDirectory = true → IsDirId db.inodes id := fun hd => by
          rw [← hrid, isDirId_of_get hv.source]
          exact hd
        split
        · refine .rely rfl hv (fun td _ _ _ => ?_) fun hd => .inr ⟨id, toDir, hverifies, hmoves hd⟩
          rw [hrto, hrid]
          exact .refl hplan.1.1
        · rename_i hleaf; exact .rely rfl hv (fun td _ _ hd => absurd hd hleaf) fun hd => absurd hd hleaf
      · exact .finish ..
    | _ => cases hs

theorem stepped_ready {r : Verified} (hphase : t.phase = .ready r) (hs : t.step db next busy = some (t', ws)) :
    Stepped db next busy t t' ws := by
  unfold Thread.step at hs
  rw [hphase] at hs
  cases hs
  have hv := ht.verified r (by simp [Thread.verified, hphase])
  have hab := fun hd => ht.above r (by simp [Thread.verified, hphase]) hd
  simp only [current, hphase] at hab
  refine .commit h hr fun ws hop => ?_
  rw [← hv.target] at hop
  have hok := NsDb.renameChecked_commitOk h hr hv.ne_names hv.entry hv.source hv.ne_source hv.toDir hab hv.from_held
    hv.to_held hv.source_held (by rw [hv.target]; exact hv.target_held) hop
  simp only [allocates, hphase]
  refine ⟨hok.1, fun hm => hok.2 ?_⟩
  simpa [movesDirectory, hphase] using hm

/-- **The step of a thread.** -/
theorem step_stepped (hinto : ∀ id toDir, t.verifies = some (id, toDir) → IsDirId db.inodes toDir)
    (hs : t.step db next busy = some (t', ws)) : Stepped db next busy t t' ws := by
  cases hphase : t.phase with
  | start => exact stepped_start hphase hs
  | foundSource id cookie =>
    have hplan := ht.planned
    unfold Thread.step at hs
    rw [hphase] at hs
    cases hcall : t.call with
    | rename fromDir fromName toDir toName replaceExisting defer =>
      rw [hcall] at hs
      cases hs
      refine .goto ?_ rfl
      simp only [Planned, hphase, hcall] at hplan
      simp only [Planned, Thread.goto, hcall]
      exact ⟨hplan, fun x hx => mem_append_left _ (mem_lockOrder.2 hx)⟩
    | _ => rw [hcall] at hs; cases hs
  | locking todo found =>
    cases todo with
    | nil => exact stepped_locked h ht hr hphase hinto hs
    | cons id todo =>
      unfold Thread.step at hs
      rw [hphase] at hs
      obtain ⟨hbusy, hs⟩ := of_guard_not hs
      cases hs
      exact .lock ht.planned hphase (by simpa using hbusy)
  | walking r current => exact stepped_walking h ht hphase hs
  | ready r => exact stepped_ready h ht hr hphase hs
  | done => unfold Thread.step at hs; rw [hphase] at hs; cases hs

end

end Thread

/-! ## The invariant of the pool -/

namespace Pool

/-- The tables are consistent and rooted, no inode is locked twice, every thread can rely on what it found, and at most
one rename of a directory is between its verification and its commit. -/
structure Ok (s : Pool) : Prop where
  consistent : s.db.Consistent s.nextId
  rooted : Rooted s.db.entries 0
  threads : ∀ tid t, s.threads.get tid = some t → t.Ok s.db
  exclusive : ∀ tid tid' t t', s.threads.get tid = some t → s.threads.get tid' = some t' → tid ≠ tid' →
    ∀ x ∈ t.held, x ∉ t'.held
  serial : ∀ tid tid' t t', s.threads.get tid = some t → s.threads.get tid' = some t' → t.movesDirectory = true →
    t'.movesDirectory = true → tid = tid'

variable {s : Pool} {tid n : Nat} {t' t : Thread}

theorem busy_eq_false {tid' : Nat} {x : InodeId} (h : s.busy tid x = false)
    (ht' : s.threads.get tid' = some t') (hne : tid' ≠ tid) : x ∉ t'.held := by
  intro hx
  have hmem := mem_entries.2 ht'
  have := any_eq_false.1 h _ hmem
  simp [hne, hx] at this

/-- What the condition on a step gives for a rename that verifies. -/
theorem verifies_of_orderly {id toDir : InodeId} (ht : s.threads.get tid = some t)
    (ho : s.Orderly (.run tid)) (hv : t.verifies = some (id, toDir)) :
    IsDirId s.db.inodes toDir ∧ (IsDirId s.db.inodes id →
      ∀ tid' u, s.threads.get tid' = some u → tid' ≠ tid → u.movesDirectory = false) := by
  simp only [Orderly, orderly, ht, Option.bind_some, hv, Bool.and_eq_true, decide_eq_true_eq, Bool.or_eq_true,
    Bool.not_eq_true', decide_eq_false_iff_not, all_eq_true] at ho
  refine ⟨ho.1, fun hid tid' u hu hne => ?_⟩
  have hall := ho.2.resolve_left (not_not.2 hid) _ (mem_entries.2 hu)
  exact hall.resolve_left hne

theorem Ok.put (h : s.Ok) (hok : t'.Ok s.db)
    (hfree : ∀ tid' u, s.threads.get tid' = some u → tid' ≠ tid → ∀ x ∈ t'.held, x ∉ u.held)
    (hserial : ∀ tid' u, s.threads.get tid' = some u → u.movesDirectory = true → t'.movesDirectory = true → tid' = tid)
    (hn : s.nextId ≤ n) : Ok ⟨s.db, n, s.threads.put tid t'⟩ := by
  refine ⟨?_, h.rooted, ?_, ?_, ?_⟩
  · exact { h.consistent with id_lt := fun i hi => Nat.lt_of_lt_of_le (h.consistent.id_lt i hi) hn }
  · intro tid' u hu
    rcases cases_put hu with ⟨-, rfl⟩ | ⟨-, hu⟩
    · exact hok
    · exact h.threads tid' u hu
  · intro tid₁ tid₂ u₁ u₂ hu₁ hu₂ hne
    rw [get_put] at hu₁ hu₂
    split at hu₁
    · rename_i h1
      cases hu₁
      rw [if_neg fun h2 => hne (h1.trans h2.symm)] at hu₂
      exact hfree tid₂ u₂ hu₂ fun h2 => hne (h1.trans h2.symm)
    · rename_i h1
      split at hu₂
      · cases hu₂; intro x hx hx'; exact hfree tid₁ u₁ hu₁ h1 x hx' hx
      · exact h.exclusive tid₁ tid₂ u₁ u₂ hu₁ hu₂ hne
  · intro tid₁ tid₂ u₁ u₂ hu₁ hu₂ hm₁ hm₂
    rw [get_put] at hu₁ hu₂
    split at hu₁
    · rename_i h1
      cases hu₁
      split at hu₂
      · rename_i h2; exact h1.trans h2.symm
      · exact h1.trans (hserial tid₂ u₂ hu₂ hm₂ hm₁).symm
    · split at hu₂
      · rename_i h2; cases hu₂; exact (hserial tid₁ u₁ hu₁ hm₁ hm₂).trans h2.symm
      · exact h.serial tid₁ tid₂ u₁ u₂ hu₁ hu₂ hm₁ hm₂

theorem Ok.commits {ws : List NsWrite} (h : s.Ok)
    (ht : s.threads.get tid = some t) (hc : NsDb.CommitOk s.db n t.held ws)
    (hkeep : t.movesDirectory = false → NsDb.KeepsDirs s.db t.held ws) :
    Ok ⟨s.db.commit ws, n, s.threads.put tid t.finish⟩ := by
  have hrest : ∀ tid' u, (s.threads.put tid t.finish).get tid' = some u →
      u = t.finish ∧ tid' = tid ∨ tid' ≠ tid ∧ s.threads.get tid' = some u := by
    intro tid' u hu
    rcases cases_put hu with ⟨heq, rfl⟩ | ⟨hne, hu⟩
    · exact .inl ⟨rfl, ‹_›⟩
    · exact .inr ⟨‹_›, hu⟩
  refine ⟨hc.consistent, hc.rooted, ?_, ?_, ?_⟩
  · intro tid' u hu
    rcases hrest tid' u hu with ⟨rfl, _⟩ | ⟨hne, hu⟩
    · exact .finish ..
    refine (h.threads tid' u hu).other h.consistent (h.exclusive tid' tid u t hu ht hne) hc fun hm => hkeep ?_
    -- the committing thread does not move a directory too
    by_contra hmt
    exact hne (h.serial tid' tid u t hu ht hm (by simpa using hmt))
  · intro tid₁ tid₂ u₁ u₂ hu₁ hu₂ hne x hx hx'
    rcases hrest tid₁ u₁ hu₁ with ⟨rfl, _⟩ | ⟨_, hu₁⟩
    · cases hx
    rcases hrest tid₂ u₂ hu₂ with ⟨rfl, _⟩ | ⟨_, hu₂⟩
    · cases hx'
    · exact h.exclusive tid₁ tid₂ u₁ u₂ hu₁ hu₂ hne x hx hx'
  · intro tid₁ tid₂ u₁ u₂ hu₁ hu₂ hm₁ hm₂
    rcases hrest tid₁ u₁ hu₁ with ⟨rfl, _⟩ | ⟨_, hu₁⟩
    · cases hm₁
    rcases hrest tid₂ u₂ hu₂ with ⟨rfl, _⟩ | ⟨_, hu₂⟩
    · cases hm₂
    · exact h.serial tid₁ tid₂ u₁ u₂ hu₁ hu₂ hm₁ hm₂

theorem step_ok {s' : Pool} {a : PoolAction} (h : s.Ok) (ho : s.Orderly a) (hs : s.step a = some s') : s'.Ok := by
  cases a with
  | spawn tid call now creds =>
    obtain ⟨hnew, rfl⟩ := of_guard_not hs
    exact h.put (.of_planned trivial rfl) (fun _ _ _ _ _ hx => by cases hx) (fun _ _ _ _ hm => by cases hm) le_rfl
  | run tid =>
    obtain ⟨t, ht, hs⟩ := Option.bind_eq_some_iff.1 hs
    obtain ⟨⟨t', ws⟩, hstep, hs⟩ := Option.bind_eq_some_iff.1 hs
    cases hs
    have hver : ∀ id toDir, t.verifies = some (id, toDir) → IsDirId s.db.inodes toDir :=
      fun id toDir hv => (verifies_of_orderly ht ho hv).1
    rcases Thread.step_stepped h.consistent (h.threads tid t ht) h.rooted hver hstep with
      ⟨rfl, hok, hheld, hmoves⟩ | ⟨rfl, hc, hkeep⟩
    · refine h.put hok ?_ ?_ (by split <;> omega)
      · intro tid' u hu hne x hx
        rcases hheld x hx with hx | hx
        · exact h.exclusive tid tid' t u ht hu hne.symm x hx
        · exact busy_eq_false hx hu hne
      · intro tid' u hu hmu hm
        rcases hmoves hm with hmt | ⟨id, toDir, hv, hid⟩
        · exact h.serial tid' tid u t hu ht hmu hmt
        by_contra hne
        rw [(verifies_of_orderly ht ho hv).2 hid tid' u hu hne] at hmu
        cases hmu
    · exact h.commits ht hc hkeep

theorem boot_ok (t : Timestamp) (uid gid : Nat) : (boot t uid gid).Ok := by
  have hnone : ∀ tid u, (boot t uid gid).threads.get tid ≠ some u := by
    intro tid u hu
    cases hu
  refine ⟨NsState.boot_consistent t uid gid, ?_, ?_, ?_, ?_⟩
  · intro d k v he; cases he
  · intro tid u hu; exact absurd hu (hnone tid u)
  · intro tid _ u _ hu; exact absurd hu (hnone tid u)
  · intro tid _ u _ hu; exact absurd hu (hnone tid u)

end Pool

/-- **The directory tree under concurrent calls**: in every interleaving of `create`, `mkdir`, `remove` and `rename`
calls in which renames go into directories and renames of directories do not overlap between verification and commit. -/
theorem directories_form_tree {t : Timestamp} {uid gid : Nat} {s : Pool}
    (h : Machine.Reach Pool.step Pool.Orderly (Pool.boot t uid gid) s) : s.db.IsTree := by
  have hok := h.invariant (I := Pool.Ok) (Pool.boot_ok t uid gid) fun _ _ _ hs ho hstep => Pool.step_ok hs ho hstep
  exact hok.consistent.isTree hok.rooted

/-! ## Two runs -/

/-- The root user starts a call as thread `tid`, at time zero, and the thread takes `n` steps. -/
def callSteps (tid : Nat) (call : DirCall) (n : Nat) : List PoolAction :=
  .spawn tid call (fun _ => ⟨0, 0⟩) .root :: replicate n (.run tid)

/-- Two directories made at once, then one moved into the other. -/
def orderlyRun : List PoolAction :=
  callSteps 0 (.mkdir 0 [97] {}) 1 ++ callSteps 1 (.mkdir 0 [98] {}) 3 ++ replicate 2 (.run 0)
    ++ callSteps 2 (.rename 0 [97] 1 [120] true false) 9

theorem orderlyRun_runs :
    (run (guarded Pool.step Pool.Orderly) (Pool.boot ⟨0, 0⟩ 0 0) orderlyRun).isSome := by
  decide +kernel

theorem directories_form_tree_orderly :
    ∃ s, run (guarded Pool.step Pool.Orderly) (Pool.boot ⟨0, 0⟩ 0 0) orderlyRun = some s ∧ s.db.IsTree := by
  obtain ⟨s, hs⟩ := Option.isSome_iff_exists.1 orderlyRun_runs
  exact ⟨s, hs, directories_form_tree (reach_of_run .init hs)⟩

/-- The directories `/a/c` and `/q/b/d` with the ids `1`, `4` and `2`, `3`, `5`. One thread moves `/a` into `/q/b/d` and
another moves `/q/b` into `/a/c`: no inode is locked by both, and each walk ends before the other thread commits. -/
def crossingRenames : List PoolAction :=
  callSteps 0 (.mkdir 0 [97] {}) 3 ++ callSteps 1 (.mkdir 0 [113] {}) 3 ++ callSteps 2 (.mkdir 2 [98] {}) 3
    ++ callSteps 3 (.mkdir 1 [99] {}) 3 ++ callSteps 4 (.mkdir 3 [100] {}) 3
    ++ callSteps 5 (.rename 0 [97] 5 [120] true false) 10 ++ callSteps 6 (.rename 2 [98] 4 [121] true false) 9
    ++ [.run 5, .run 6]

/-- The linked directory `1` hangs below itself. -/
def Pool.cutOff (s : Pool) : Bool :=
  (s.db.inodes.get 1).any (fun inode => inode.isDirectory && inode.nlink != 0) &&
    s.db.entries.entries.all fun e => !([1, 3, 4, 5].contains e.2.1) || [1, 3, 4, 5].contains e.1.1

theorem Pool.not_isTree_of_cutOff {s : Pool} (h : s.cutOff = true) : ¬s.db.IsTree := by
  intro htree
  simp only [cutOff, Bool.and_eq_true, all_eq_true, Bool.or_eq_true, Bool.not_eq_true', contains_eq_mem,
    decide_eq_true_eq, decide_eq_false_iff_not] at h
  obtain ⟨hdir, hclosed⟩ := h
  rcases hi : s.db.inodes.get 1 with _ | _ | d
  · rw [hi] at hdir; cases hdir
  · rw [hi] at hdir; cases hdir
  · rw [hi] at hdir
    have hlink : d.nlink ≠ 0 := by simpa using hdir
    refine (htree.reachable 1 d hi hlink).not_mem (S := fun i => i ∈ [1, 3, 4, 5]) (by decide) ?_ (by decide)
    intro d' k i c he hi'
    exact (hclosed _ (mem_entries.2 he)).resolve_left fun hn => hn hi'

theorem crossingRenames_cutOff :
    (run Pool.step (Pool.boot ⟨0, 0⟩ 0 0) crossingRenames).any Pool.cutOff = true := by
  decide +kernel

/-- **Two renames with disjoint locks make a cycle.** -/
theorem crossingRenames_not_tree :
    ∃ s, run Pool.step (Pool.boot ⟨0, 0⟩ 0 0) crossingRenames = some s ∧ ¬s.db.IsTree := by
  have hcut := crossingRenames_cutOff
  cases hs : run Pool.step (Pool.boot ⟨0, 0⟩ 0 0) crossingRenames with
  | none => rw [hs] at hcut; cases hcut
  | some s => rw [hs] at hcut; exact ⟨s, rfl, Pool.not_isTree_of_cutOff hcut⟩

end ZeroFS
