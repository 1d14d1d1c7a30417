import ZeroFS.Handle.Lifetime

/-!
# The lifetime of an inode

Every step keeps the invariant, and deletes only an inode that is neither open nor protected (`Kept`).
-/

namespace ZeroFS.Handle

open Machine Dedup.Ledger NsDb List Table Option

/-- What a step leaves: an inode is deleted only when nothing needs it, and it does not come back. -/
structure Kept (s s' : Sys) : Prop where
  gone : ∀ i, (s.db.inodes.get i).isSome → s'.db.inodes.get i = none →
    s.openHandleCount i = 0 ∧ s.dedup.ledger.protectsReplayInode i = false
  nextId : s.nextId ≤ s'.nextId
  fresh : ∀ i, i < s.nextId → s.db.inodes.get i = none → s'.db.inodes.get i = none

variable {s s' : Sys} {tid : Nat} {t t' : Thread} {i id : InodeId} {retention : Nat}

/-- What every step does. -/
abbrev Advances (s s' : Sys) : Prop := Inv s' ∧ Kept s s'

/-- Every inode stays but those that nothing needs and that are not there before or not there afterwards. -/
theorem Kept.of (hnext : s.nextId ≤ s'.nextId) (h : ∀ i, (s'.db.inodes.get i).isSome = (s.db.inodes.get i).isSome ∨
    s'.db.inodes.get i = none ∧ s.openHandleCount i = 0 ∧ s.dedup.ledger.protectsReplayInode i = false ∨
    s.db.inodes.get i = none ∧ s.nextId ≤ i) : Kept s s' := by
  refine ⟨fun i hi hn => ?_, hnext, fun i hlt hi => ?_⟩
  · rcases h i with heq | ⟨-, hfree⟩ | ⟨hnone, -⟩
    · simp [hn, hi] at heq
    · exact hfree
    · simp [hnone] at hi
  · rcases h i with heq | ⟨hnone, -⟩ | ⟨-, hle⟩
    · simpa [hi] using heq
    · exact hnone
    · omega

theorem Kept.same (hdb : s'.db = s.db) (hnext : s.nextId ≤ s'.nextId) : Kept s s' :=
  .of hnext fun i => .inl (by rw [hdb])

/-- The bytes that a settlement gives back. -/
def CommitSettlement.owes : CommitSettlement → Nat
  | .shrink bytes => bytes
  | _ => 0

section

variable {ws : List NsWrite} {key : InodeId × Name} {c : Nat} {inode : Inode}

theorem owes_applied (t : Thread) (st : CommitSettlement) : Thread.owes { t with phase := .applied st } = st.owes := by
  cases st <;> rfl

/-! ## Commits -/

/-- A transaction is applied that leaves every inode but those of `Kept.of`. -/
theorem Inv.commit {gone fresh orphan : Option InodeId} {st : CommitSettlement} {delta : Int} {next : Nat} (h : Inv s)
    (ht : s.threads.get tid = some t) (hl : Locked s.db t.held ws gone fresh orphan)
    (hcons : (s.db.commit ws).Consistent next) (hnext : s.nextId ≤ next)
    (hexists : ∀ i, ((s.db.commit ws).inodes.get i).isSome = (s.db.inodes.get i).isSome ∨
      (s.db.commit ws).inodes.get i = none ∧ s.openHandleCount i = 0 ∧ s.dedup.ledger.protectsReplayInode i = false ∨
      s.db.inodes.get i = none ∧ s.nextId ≤ i) (hbytes : (bytes (s.db.commit ws) : Int) + st.owes = bytes s.db)
    (hinodes : (inodes (s.db.commit ws) : Int) = inodes s.db + delta)
    (hst : ∀ op id inode, st = .record op id inode → ∃ d n c, d ∈ t.held ∧
      (s.db.commit ws).entries.get (d, n) = some (id, c)) (horphan : ∀ x, orphan = some x → st = .deferredReclaim x)
    (hcovers : ∀ i, t.covers i → ¬Unlinked (s.db.commit ws) i) (howes : t.owes = 0) :
    Advances s ({ s with db := s.db.commit ws, nextId := next, inodeCount := s.inodeCount + delta }.goto tid t
      (.applied st)) := by
  refine ⟨h.advance ht rfl (.commit hl rfl rfl rfl) (fun x hx => .inl hx) ?_ hcons h.handles h.protected_
    (fun i hi => ?_) (fun i hi => ?_) ?_ ?_, .of hnext hexists⟩
  · cases hs : st with
    | record op id inode => exact hst op id inode hs
    | _ => trivial
  · have hlive := h.live i hi
    rcases hexists i with heq | ⟨-, hz, -⟩ | ⟨hnone, -⟩
    · exact heq.trans hlive
    · exact absurd hz (Nat.ne_of_gt hi)
    · rw [hnone] at hlive; cases hlive
  · rcases hl.orphans i ((hcons.orphan_iff i).2 hi) with ho | ho
    · refine (h.covered i ((h.consistent.orphan_iff i).1 ho)).mono .inl id id rfl ht fun hc => ?_
      exact absurd hi (hcovers i hc)
    refine .inr (.inr (.inr ⟨tid, _, get_put_self .., ?_⟩))
    rw [horphan i ho]
    rfl
  · rw [owes_applied]
    show s.quota + bytes s.db + t.owes = s.quota + bytes (s.db.commit ws) + st.owes
    omega
  · show s.inodeCount + delta + inodes s.db = s.inodeCount + inodes (s.db.commit ws); omega

/-- A transaction that makes no inode is applied. -/
theorem Inv.commits {gone orphan : Option InodeId} {st : CommitSettlement} {delta : Int} (h : Inv s)
    (ht : s.threads.get tid = some t) (hl : Locked s.db t.held ws gone none orphan)
    (hcons : (s.db.commit ws).Consistent s.nextId)
    (hgone : ∀ x, gone = some x → x ≠ 0 ∧ s.openHandleCount x = 0 ∧ s.dedup.ledger.protectsReplayInode x = false ∧
      ∃ inode, s.db.inodes.get x = some inode ∧ st.owes = inode.size ∧ delta = -1)
    (hnone : gone = none → st.owes = 0 ∧ delta = 0) (hst : ∀ op id inode, st ≠ .record op id inode)
    (horphan : ∀ x, orphan = some x → st = .deferredReclaim x)
    (hcovers : ∀ i, t.covers i → ¬Unlinked (s.db.commit ws) i) (howes : t.owes = 0) :
    Advances s ({ s with db := s.db.commit ws, inodeCount := s.inodeCount + delta }.goto tid t (.applied st)) := by
  have hacct : (bytes (s.db.commit ws) : Int) + st.owes = bytes s.db ∧
      (inodes (s.db.commit ws) : Int) = inodes s.db + delta := by
    cases hg : gone with
    | none =>
      obtain ⟨ho, hd⟩ := hnone hg
      obtain ⟨hb, hc⟩ := bytes_congr fun i => hl.sizes i (by rw [hg]; nofun) nofun
      rw [hb, hc, ho, hd]
      exact ⟨Int.add_zero _, (Int.add_zero _).symm⟩
    | some x =>
      obtain ⟨h0, _, _, inode, hx, ho, hd⟩ := hgone x hg
      obtain ⟨hb, hc⟩ := bytes_gone hx h0 (hl.gone x hg)
        fun i hi => hl.sizes i (fun heq => hi (by rw [hg] at heq; exact (some.inj heq).symm)) nofun
      omega
  refine h.commit ht hl hcons le_rfl (fun i => ?_) hacct.1 hacct.2 (fun op id inode hs => absurd hs (hst op id inode))
    horphan hcovers howes
  by_cases hg : gone = some i
  · exact .inr (.inl ⟨hl.gone i hg, (hgone i hg).2.1, (hgone i hg).2.2.1⟩)
  · have := congrArg isSome (hl.sizes i hg nofun); exact .inl (by simpa using this)

theorem lastLink_eq_false {db : NsDb} {next : Nat} {c' : Nat} {d : InodeId} {n : Name}
    (h : db.Consistent next) (hi : db.inodes.get i = some inode) (he : db.entries.get key = some (i, c))
    (he' : db.entries.get (d, n) = some (i, c')) (hne : (d, n) ≠ key) : inode.lastLink = false := by
  obtain ⟨d₀, n₀⟩ := key
  cases inode with
  | leaf l =>
    have hcount := links_unlink he i
    rw [if_pos rfl] at hcount
    have hother : (db.entries.del (d₀, n₀)).get (d, n) = some (i, c') := by
      rw [get_del_ne hne]
      exact he'
    have hpos := links_pos hother
    have hlinks := (h.leaf_ok i l hi).1
    show decide (l.nlink ≤ 1) = false
    exact decide_eq_false (by omega)
  | directory dd =>
    obtain ⟨hp, hn, _⟩ := h.dir_entry hi he
    obtain ⟨hp', hn', _⟩ := h.dir_entry hi he'
    rw [hp] at hp'
    rw [hn] at hn'
    cases hn'
    exact absurd (by rw [hp']) hne

/-- What the settlement of an unlink owes is the size of the deleted inode. -/
theorem unlinkSettlement_owes (x : InodeId) (inode : Inode) (defer : Bool) :
    (unlinkSettlement x inode defer).owes = if inode.lastLink && !defer then inode.size else 0 := by
  cases inode with
  | directory d => cases defer <;> rfl
  | leaf l =>
    have hl : (Inode.leaf l).lastLink = decide (l.nlink ≤ 1) := rfl
    rw [hl]
    show CommitSettlement.owes (if (false || decide (l.nlink ≤ 1)) && defer then _ else if _ && decide (l.nlink ≤ 1)
      then _ else _) = _
    cases decide (l.nlink ≤ 1) with
    | false => cases (Inode.leaf l).isFile <;> rfl
    | true =>
      cases defer with
      | true => rfl
      | false =>
        cases hf : (Inode.leaf l).isFile with
        | true => rfl
        | false => exact (Inode.size_of_not_isFile hf).symm

theorem unlinkSettlement_not_record (x : InodeId) (inode : Inode) (defer : Bool) (op : Dedup.OpId) (id : InodeId)
    (ino : Inode) : unlinkSettlement x inode defer ≠ .record op id ino := by
  unfold unlinkSettlement
  split
  · nofun
  · split <;> nofun

/-- A link of `x` is dropped by a thread that has decided under its locks. -/
theorem Inv.unlinked {x : InodeId} {defer : Bool} (h : Inv s)
    (ht : s.threads.get tid = some t) (hx : s.db.inodes.get x = some inode) (he : s.db.entries.get key = some (x, c))
    (hl : Locked s.db t.held ws (goneBy x inode defer) none (orphanedBy x inode defer))
    (hcons : (s.db.commit ws).Consistent s.nextId) (hfree : defer = false → Free s x key)
    (hcovers : ∀ i, ¬t.covers i) (howes : t.owes = 0) :
    Advances s (s.unlinked tid t ws x inode defer) := by
  refine h.commits ht hl hcons (fun y hy => ?_) (fun hnone => ?_) (unlinkSettlement_not_record x inode defer)
    (fun y hy => ?_) (fun i hc => absurd hc (hcovers i)) howes
  · obtain ⟨hlast, rfl⟩ := of_guard hy
    obtain ⟨hll, hdefer⟩ := Bool.and_eq_true_iff.1 hlast
    obtain ⟨hz, hp⟩ := hfree (by simpa using hdefer)
    refine ⟨h.consistent.ne_root he, hz, ?_, inode, hx, ?_, ?_⟩
    · by_contra hprot
      obtain ⟨d, n, c', hne, he'⟩ := hp (by simpa using hprot)
      rw [lastLink_eq_false h.consistent hx he he' hne] at hll
      cases hll
    · rw [unlinkSettlement_owes, if_pos hlast]
    · exact if_pos hlast
  · unfold goneBy at hnone
    split at hnone
    · cases hnone
    rename_i hlast
    rw [unlinkSettlement_owes, if_neg hlast]
    exact ⟨rfl, if_neg hlast⟩
  · obtain ⟨hlast, rfl⟩ := of_guard hy; exact if_pos hlast

/-! ## The steps of a call -/

end

section Calls

variable (h : Inv s) (ht : s.threads.get tid = some t)
include h ht

theorem Inv.goto {phase : Phase} (hok : ThreadOk s { t with phase := phase })
    (hcovers : ∀ i, t.covers i → Thread.covers { t with phase := phase } i)
    (howes : Thread.owes { t with phase := phase } = t.owes) : Advances s (s.goto tid t phase) :=
  ⟨h.move ht (fun _ hx => .inl hx) hok (fun i hc _ => .inl (hcovers i hc)) howes, .same rfl le_rfl⟩

theorem Inv.returns (hcovers : ∀ i, ¬t.covers i) (howes : t.owes = 0) : Advances s (s.finish tid t) :=
  ⟨h.finish ht (fun i hc _ => absurd hc (hcovers i)) howes, .same rfl le_rfl⟩

theorem begin_ok (hphase : t.phase = .start) : Advances s (s.begin tid t) := by
  obtain ⟨call, now, creds, phase, held⟩ := t
  cases hphase
  have howes : Thread.owes ⟨call, now, creds, .start, held⟩ = 0 := rfl
  unfold Sys.begin
  cases call with
  | create dirid name attr op | openFid fid id how => exact h.goto ht (mem_append_left _ mem_cons_self) nofun rfl
  | link fileid dirid name =>
    refine h.goto ht ⟨?_, ?_⟩ nofun rfl
    · exact mem_append_left _ (mem_lockOrder.2 mem_cons_self)
    · exact mem_append_left _ (mem_lockOrder.2 (mem_cons_of_mem _ mem_cons_self))
  | remove dirid name expected =>
    dsimp only
    split
    · refine h.goto ht ⟨?_, ?_⟩ nofun rfl
      · exact mem_append_left _ (mem_lockOrder.2 mem_cons_self)
      · exact mem_append_left _ (mem_lockOrder.2 (mem_cons_of_mem _ mem_cons_self))
    · exact h.returns ht nofun howes
  | rename fromDir fromName toDir toName replaceExisting =>
    dsimp only
    split
    · split
      · exact h.returns ht nofun howes
      · rename_i hsame; exact h.goto ht (not_or.1 hsame) nofun rfl
    · exact h.returns ht nofun howes
  | reclaimIfUnreferenced id => exact h.goto ht (mem_append_left _ mem_cons_self) (fun _ hc => hc) rfl

theorem lock_ok {todo : List InodeId} {found : Located}
    (hphase : t.phase = .locking (id :: todo) found) (hbusy : s.busy tid id = false) :
    Inv (s.setThread tid { t with phase := .locking todo found, held := id :: t.held }) := by
  have hok := h.threads tid t ht
  obtain ⟨call, now, creds, phase, held⟩ := t
  cases hphase
  have hmem : ∀ x, x ∈ id :: todo ++ held → x ∈ todo ++ id :: held := by
    intro x hx
    simp only [cons_append, mem_cons, mem_append] at hx ⊢
    tauto
  have hcovers : ∀ i, Thread.covers ⟨call, now, creds, .locking (id :: todo) found, held⟩ i →
      Thread.covers ⟨call, now, creds, .locking todo found, id :: held⟩ i := by
    intro i hc
    cases call <;> exact hc
  refine h.move ht (fun x hx => ?_) ?_ (fun i hc _ => .inl (hcovers i hc)) rfl
  · rcases mem_cons.1 hx with rfl | hx
    · exact .inr hbusy
    · exact .inl hx
  cases call with
  | create dirid name attr op => exact hmem _ hok
  | link fileid dirid name => exact ⟨hmem _ hok.1, hmem _ hok.2⟩
  | remove dirid name expected =>
    cases found with
    | entry i c => exact ⟨hmem _ hok.1, hmem _ hok.2⟩
    | _ => trivial
  | rename fromDir fromName toDir toName replaceExisting =>
    cases found with
    | move i c targetId => exact ⟨hok.1, fun x hx => hmem x (hok.2 x hx)⟩
    | _ => trivial
  | openFid fid i how | reclaimIfUnreferenced i => exact hmem _ hok

/-! ## Opening and creating -/

omit h ht in
theorem openHandleCount_newOpenHandle (s : Sys) (fid : Nat) (id j : InodeId) :
    (s.newOpenHandle fid id).openHandleCount j = s.openHandleCount j + if id = j then 1 else 0 := by
  unfold Sys.openHandleCount Sys.newOpenHandle
  rw [get_put]
  split
  · rename_i heq; rw [if_pos heq.symm, heq]; rfl
  · rename_i hne; rw [if_neg (Ne.symm hne)]; rfl

variable (hcovers : ∀ i, ¬t.covers i) (howes : t.owes = 0)
include hcovers howes

variable {fid c : Nat} {dirid : InodeId} {name : Name} {defer : Bool}

/-- A handle is opened under the lock of its inode, and the call returns. -/
theorem newOpenHandle_ok (hid : id ∈ t.held) (hfid : s.fids.get fid = none)
    (hlive : (s.db.inodes.get id).isSome) : Advances s ((s.newOpenHandle fid id).finish tid t) := by
  have hcount : ∀ j, ((s.newOpenHandle fid id).finish tid t).openHandleCount j =
    s.openHandleCount j + if id = j then 1 else 0 :=
    openHandleCount_newOpenHandle s fid id
  refine ⟨?_, .same rfl le_rfl⟩
  refine h.advance ht rfl ⟨fun _ _ _ => rfl, fun _ _ _ _ he _ => he, fun j hj hz => ?_, fun _ hp => .inl hp⟩
    nofun rfl h.consistent (fun j => ?_) h.protected_ (fun j hj => ?_) (fun j hj => ?_) ?_ rfl
  · rw [hcount, hz, if_neg fun heq => hj (by rw [← heq]; exact hid)]
  · have hopened := count_put (p := fun _ j' => j' = j) s.fids fid id
    rw [hfid, elim_none, Nat.add_zero] at hopened
    rw [hcount, h.handles j]
    exact hopened.symm
  · by_cases heq : id = j
    · rw [← heq]; exact hlive
    · rw [hcount, if_neg heq] at hj; exact h.live j hj
  · refine (h.covered j hj).mono .inl (fun hh => ?_) (fun h => h) rfl ht fun hc => absurd hc (hcovers j)
    rw [hcount]
    omega
  · show s.quota + bytes s.db + t.owes = s.quota + bytes s.db + (0 : Nat); rw [howes]

theorem openLocked_ok {how : Opening} (hid : id ∈ t.held) : Advances s (s.openLocked tid t fid id how) := by
  have hret := h.returns ht hcovers howes
  unfold Sys.openLocked
  split
  · exact hret
  rename_i hfid
  split
  · exact hret
  rename_i inode hi
  have hnew := newOpenHandle_ok h ht hcovers howes hid (by simpa using hfid) (by rw [hi]; rfl)
  split
  · split
    · exact hret
    · exact hnew
  · split
    · exact hret
    · exact hnew

theorem createLocked_ok {attr : SetAttributes} {op : Dedup.OpId} (hdir : dirid ∈ t.held) :
    Advances s (s.createLocked tid t dirid name attr op) := by
  -- the number is used up also when the call fails
  have hnext : Inv { s with nextId := s.nextId + 1 } :=
    { h with consistent := { h.consistent with id_lt := fun i hi => Nat.lt_succ_of_lt (h.consistent.id_lt i hi) } }
  have hret : Advances s ({ s with nextId := s.nextId + 1 }.finish tid t) :=
    ⟨(hnext.returns ht hcovers howes).1, .same rfl (Nat.le_succ _)⟩
  unfold Sys.createLocked
  dsimp only
  split
  · exact hret
  rename_i ws hop
  obtain ⟨hl, hsize, c, hentry⟩ := create_locked h.consistent hdir hop
  have hcons := (create_creates hop).consistent h.consistent
  split
  · exact hret
  rename_i inode hinode
  have hfresh := h.consistent.get_next
  have h0 : s.nextId ≠ 0 := by
    intro h0
    obtain ⟨d, hroot⟩ := isDirId_get h.consistent.root_dir
    rw [h0, hroot] at hfresh
    cases hfresh
  have hsizes : ∀ i, i ≠ s.nextId →
      ((s.db.commit ws).inodes.get i).map Inode.size = (s.db.inodes.get i).map Inode.size :=
    fun i hi => hl.sizes i nofun fun heq => hi (some.inj heq).symm
  obtain ⟨hb, hc⟩ := bytes_fresh hfresh h0 hsize hsizes
  refine h.commit ht hl hcons (Nat.le_succ _) (fun i => ?_) ?_ ?_ ?_ nofun (fun i hc => absurd hc (hcovers i)) howes
  · by_cases heq : i = s.nextId
    · exact .inr (.inr ⟨heq ▸ hfresh, heq.ge⟩)
    · have := congrArg isSome (hsizes i heq); exact .inl (by simpa using this)
  · rw [hb]; exact Int.add_zero _
  · rw [hc]; rfl
  · rintro op id inode ⟨⟩; exact ⟨dirid, name, c, hdir, hentry⟩

/-! ## Linking and unlinking -/

omit hcovers in
theorem Inv.commitsNone {ws : List NsWrite} (hl : Locked s.db t.held ws none none none)
    (hcons : (s.db.commit ws).Consistent s.nextId) (hcovers : ∀ i, t.covers i → ¬Unlinked (s.db.commit ws) i) :
    Advances s ({ s with db := s.db.commit ws }.goto tid t (.applied .none)) := by
  have hok : Advances s ({ s with db := s.db.commit ws, inodeCount := s.inodeCount + 0 }.goto tid t (.applied .none)) :=
    h.commits ht hl hcons nofun (fun _ => ⟨rfl, rfl⟩) nofun nofun hcovers howes
  rwa [Int.add_zero] at hok

theorem linkLocked_ok {fileid : InodeId} (hfile : fileid ∈ t.held) (hdir : dirid ∈ t.held) :
    Advances s (s.linkLocked tid t fileid dirid name) := by
  unfold Sys.linkLocked
  split
  · exact h.returns ht hcovers howes
  rename_i ws hop
  exact h.commitsNone ht howes (link_locked h.consistent hfile hdir hop) (link_consistent h.consistent hop)
    fun i hc => absurd hc (hcovers i)

theorem removeLocked_ok {expected : Option Bool} (hdir : dirid ∈ t.held) (hid : id ∈ t.held)
    (he : s.db.entries.get (dirid, name) = some (id, c)) (hfree : defer = false → Free s id (dirid, name)) :
    Advances s (s.removeLocked tid t dirid name expected id defer) := by
  unfold Sys.removeLocked
  split
  · rename_i ws inode hop hi
    obtain ⟨inode', hi', hl⟩ := remove_locked h.consistent hdir hid he hop
    rw [hi] at hi'
    cases hi'
    exact h.unlinked ht hi he hl (remove_consistent h.consistent hop) hfree hcovers howes
  · exact h.returns ht hcovers howes

theorem renameLocked_ok {fromDir toDir : InodeId} {fromName toName : Name} {targetId : Option InodeId}
    (hne : toDir ≠ id ∧ ¬(fromDir = toDir ∧ fromName = toName))
    (hheld : ∀ x ∈ [fromDir, id, toDir] ++ targetId.toList, x ∈ t.held)
    (he : s.db.entries.get (fromDir, fromName) = some (id, c))
    (htarget : (s.db.entries.get (toDir, toName)).map (·.1) = targetId)
    (hinto : (s.db.inodes.get toDir).all Inode.isDirectory = true)
    (hfree : defer = false → ∀ x, targetId = some x → Free s x (toDir, toName)) :
    Advances s (s.renameLocked tid t fromDir fromName toDir toName id c defer) := by
  have hret := h.returns ht hcovers howes
  have hheldTarget : ∀ x ∈ (s.db.entries.get (toDir, toName)).map (·.1), x ∈ t.held := by
    intro x hx
    rw [htarget] at hx
    exact hheld x (mem_append_right _ (mem_toList.2 hx))
  unfold Sys.renameLocked
  split
  · exact hret
  rename_i source hs
  dsimp only
  split
  · exact hret
  rename_i ws hop
  have hto : IsDirId s.db.inodes toDir := by
    obtain ⟨inode, hi⟩ := renameChecked_toDir hop
    rw [hi] at hinto
    exact (isDirId_of_get hi).2 hinto
  have hcons := renameChecked_consistent h.consistent hne.2 he hs hne.1 hto hop
  have hl := renameChecked_locked h.consistent he hs hto (hheld fromDir (by simp)) (hheld toDir (by simp))
    (hheld id (by simp))
    hheldTarget hop
  split
  · rename_i hget
    rw [hget] at hl
    exact h.commitsNone ht howes hl hcons fun i hc => absurd hc (hcovers i)
  rename_i x cx hget
  rw [hget] at hl htarget
  change if x = id then ws = [] else _ at hl
  split
  · rename_i hx
    rw [if_pos hx] at hl
    subst hl
    exact h.commitsNone ht howes (.nil _ _) hcons fun i hc => absurd hc (hcovers i)
  rename_i hx
  rw [if_neg hx] at hl
  obtain ⟨inode', hi', hl⟩ := hl
  split
  · exact hret
  rename_i inode hi
  rw [hi] at hi'
  cases hi'
  exact h.unlinked ht hi hget hl hcons (fun hd => hfree hd x htarget.symm) hcovers howes

end Calls

/-! ## Reclaiming -/

variable {db : NsDb} {next nextId : Nat} {inode inode' : Inode} {dedup : Dedup.Sys Inode}

theorem reclaimable_iff (h : db.Consistent next) (hi : db.inodes.get i = some inode) :
    reclaimable inode = true ↔ inode.nlink = 0 := by
  cases inode with
  | leaf l => exact decide_eq_true_iff
  | directory d =>
    unfold reclaimable
    rw [Bool.and_eq_true, decide_eq_true_iff, decide_eq_true_iff]
    exact ⟨fun hd => hd.1, fun hl => ⟨hl, entryCount_eq_zero h hi hl⟩⟩

theorem Unlinked.ne_root (h : db.Consistent next) (hi : Unlinked db i) : i ≠ 0 := by
  rintro rfl
  obtain ⟨d, hroot⟩ := isDirId_get h.root_dir
  obtain ⟨inode, hget, hl⟩ := hi
  rw [hroot] at hget
  cases hget
  rcases h.dir_placed 0 d hroot with ⟨_, _, h0⟩ | ⟨hpos, _⟩
  · exact h0 rfl
  · exact Nat.ne_of_gt hpos hl

theorem reclaimLocked_ok (h : Inv s) (ht : s.threads.get tid = some t) (hid : id ∈ t.held)
    (hz : s.openHandleCount id = 0)
    (hp : s.dedup.ledger.protectsReplayInode id = true → ∃ d n c, s.db.entries.get (d, n) = some (id, c))
    (hcovers : ∀ i, t.covers i → i = id) (howes : t.owes = 0) :
    Advances s (s.reclaimLocked tid t id) := by
  have hcons : (s.db.commit (s.db.reclaimOrphanInode id)).Consistent s.nextId :=
    reclaimOrphanInode_consistent h.consistent
  rcases reclaimOrphanInode_locked h.consistent hid with ⟨inode, hi, hl0, hl⟩ | ⟨hlinked, hnil⟩
  · have hgone := hl.gone id rfl
    unfold Sys.reclaimLocked
    rw [hi]
    dsimp only
    rw [if_pos ((reclaimable_iff h.consistent hi).2 hl0)]
    refine h.commits ht hl hcons (fun x hx => ?_) nofun (fun op id' ino => ?_) nofun (fun i hc => ?_) howes
    · cases hx
      have hunprot : s.dedup.ledger.protectsReplayInode id = false := by
        by_contra hprot
        obtain ⟨d, n, c, he⟩ := hp (by simpa using hprot)
        exact h.consistent.nlink_ne_zero he hi hl0
      refine ⟨Unlinked.ne_root h.consistent ⟨inode, hi, hl0⟩, hz, hunprot, inode, hi, ?_, rfl⟩
      split
      · rfl
      · rename_i hfile; exact (Inode.size_of_not_isFile (Bool.eq_false_iff.2 hfile)).symm
    · split <;> nofun
    · rw [hcovers i hc]
      rintro ⟨inode', hi', _⟩
      rw [hgone] at hi'
      cases hi'
  · have hlink : ∀ i, t.covers i → ¬Unlinked (s.db.commit []) i := by
      intro i hc hu
      obtain ⟨inode, hi, hl0⟩ := hu
      rw [hcovers i hc] at hi
      exact hlinked inode hi hl0
    have hnone := h.commitsNone ht howes (.nil _ _) h.consistent hlink
    unfold Sys.reclaimLocked
    rw [hnil]
    split
    · rename_i inode hi
      rw [if_neg fun hr => hlinked inode hi ((reclaimable_iff h.consistent hi).1 hr)]
      exact hnone
    · exact hnone

theorem unopened_ok (h : Inv s) (ht : s.threads.get tid = some t) (hphase : t.phase = .unopened)
    (hcall : t.call = .reclaimIfUnreferenced id) (hs : s.runThread retention tid t = some s') : Advances s s' := by
  have hok := h.threads tid t ht
  obtain ⟨call, now, creds, phase, held⟩ := t
  cases hphase
  cases hcall
  obtain ⟨hid, hz⟩ := hok
  unfold Sys.runThread reclaimWhenUnprotected at hs
  dsimp only at hs
  by_cases hp : s.dedup.ledger.protectsReplayInode id = true
  · rw [if_pos hp] at hs
    cases hs
    refine ⟨?_, .same rfl le_rfl⟩
    refine h.advance ht rfl (.same rfl (fun _ hz => hz) fun _ hp => hp) nofun rfl h.consistent h.handles
      ⟨h.protected_.refs, h.protected_.pos⟩ h.live (fun i hi => ?_) rfl rfl
    refine (h.covered i hi).mono .inl (fun h => h) (fun hl => ⟨hl.1, mem_insert_of_mem hl.2⟩) rfl ht
      fun hc => .inr (.inr (.inr (.inl ?_)))
    cases hc
    exact ⟨hp, mem_insert_self⟩
  · rw [if_neg hp] at hs
    cases hs
    exact h.goto ht ⟨hid, hz, fun hp' => absurd hp' hp⟩ (fun _ hc => hc) rfl

/-! ## Settlements -/

/-- An orphan whose protection has ended is in the queue. -/
theorem covered_withDedup {d : Dedup.Sys Inode} (hlisted : ∀ i ∈ s.dedup.ledger.reclaimOnUnprotect,
      s.dedup.ledger.protectsReplayInode i = true →
        (d.ledger.protectsReplayInode i = true ∧ i ∈ d.ledger.reclaimOnUnprotect) ∨ i ∈ d.ledger.reclaims)
    (h : Covered s i) : Covered (s.withDedup d) i := by
  rcases h with hq | hh | ⟨hp, hm⟩ | hc
  · exact .inl (mem_append_left _ hq)
  · exact .inr (.inl hh)
  · rcases hlisted i hm hp with hp | hr
    · exact .inr (.inr (.inl hp))
    · exact .inl (mem_append_right _ hr)
  · exact .inr (.inr (.inr hc))

theorem settle_ok {settlement : CommitSettlement} (h : Inv s) (ht : s.threads.get tid = some t)
    (hphase : t.phase = .applied settlement) :
    Advances s (s.settle retention tid t settlement) := by
  have hok := h.threads tid t ht
  obtain ⟨call, now, creds, phase, held⟩ := t
  cases hphase
  cases settlement with
  | none => exact h.returns ht nofun rfl
  | record op id inode =>
    obtain ⟨d, n, c, hd, he⟩ := hok
    have hpub := Lapse.record s.dedup.ledger op (.create id inode) none false s.dedup.now retention s.dedup.nextSerial
    refine ⟨?_, .same rfl le_rfl⟩
    refine h.advance ht rfl ⟨fun _ _ _ => rfl, fun _ _ _ _ he _ => he, fun _ _ hz => hz, fun i hp => ?_⟩ nofun rfl
      h.consistent h.handles ⟨(hpub.ok h.protected_).refs, (hpub.ok h.protected_).pos⟩ h.live (fun i hi => ?_) rfl rfl
    · by_cases heq : i = id
      · exact .inr ⟨d, n, c, hd, by rw [heq]; exact he⟩
      · exact .inl (hpub.fewer i (fun h => heq (some.inj h).symm) hp)
    · exact (covered_withDedup hpub.listed (h.covered i hi)).mono .inl (fun h => h) (fun h => h) rfl ht nofun
  | shrink bytes =>
    refine ⟨?_, .same rfl le_rfl⟩
    refine h.advance ht rfl (.same rfl (fun _ hz => hz) fun _ hp => hp)
      nofun rfl h.consistent h.handles h.protected_ h.live (fun i hi => ?_) ?_ rfl
    · exact (h.covered i hi).mono .inl id id rfl ht nofun
    · show s.quota - bytes + Handle.bytes s.db + bytes = s.quota + Handle.bytes s.db + (0 : Nat)
      omega
  | deferredReclaim id =>
    refine ⟨?_, .same rfl le_rfl⟩
    refine h.advance ht rfl (.same rfl (fun _ hz => hz) fun _ hp => hp)
      nofun rfl h.consistent h.handles h.protected_ h.live (fun i hi => ?_) rfl rfl
    refine (h.covered i hi).mono (.inl <| mem_append_left _ ·) (fun h => h) (fun h => h) rfl ht fun hc => .inr (.inl ?_)
    cases hc
    exact mem_append_right _ mem_cons_self

/-! ## Steps -/

theorem free_of_not_defer {key : InodeId × Name} (h : s.shouldDeferUnlinkedInode i = false) : Free s i key := by
  unfold Sys.shouldDeferUnlinkedInode at h
  rw [Bool.or_eq_false_iff] at h
  exact ⟨Nat.eq_zero_of_not_pos (of_decide_eq_false h.1), fun hp => by rw [h.2] at hp; cases hp⟩

/-- What a call does once it has all its locks. -/
theorem locked_ok {found : Located} (h : Inv s) (ht : s.threads.get tid = some t) (hphase : t.phase = .locking [] found)
    (hs : s.locked tid t found = some s') : Advances s s' := by
  have hok := h.threads tid t ht
  obtain ⟨call, now, creds, phase, held⟩ := t
  cases hphase
  unfold Sys.locked at hs
  cases call with
  | create dirid name attr op => cases hs; exact createLocked_ok h ht nofun rfl hok
  | link fileid dirid name => cases hs; exact linkLocked_ok h ht nofun rfl hok.1 hok.2
  | remove dirid name expected =>
    cases found with
    | entry id c =>
      dsimp only at hs
      split at hs
      · rename_i he; cases hs; exact h.goto ht ⟨hok, he, free_of_not_defer⟩ nofun rfl
      · cases hs; exact h.returns ht nofun rfl
    | _ => cases hs
  | rename fromDir fromName toDir toName replaceExisting =>
    cases found with
    | move id c targetId =>
      dsimp only at hs
      split at hs
      · rename_i hfound
        cases hs
        refine h.goto ht ⟨hok.1, hok.2, hfound.1, hfound.2.1, fun hd x hx => ?_⟩ nofun rfl
        rw [hx, any_some] at hd
        exact free_of_not_defer hd
      · cases hs; exact h.returns ht nofun rfl
    | _ => cases hs
  | openFid fid id how => cases hs; exact openLocked_ok h ht nofun rfl hok
  | reclaimIfUnreferenced id =>
    dsimp only at hs
    split at hs
    · rename_i hopen
      cases hs
      refine ⟨h.finish ht (fun i hc _ => ?_) rfl, .same rfl le_rfl⟩
      cases hc
      exact .inr (.inl hopen)
    · rename_i hopen
      cases hs
      exact h.goto ht ⟨hok, Nat.eq_zero_of_not_pos hopen⟩ (fun _ hc => hc) rfl

theorem runThread_ok (h : Inv s) (ht : s.threads.get tid = some t) (hinto : s.IntoDirectory (.run tid))
    (hs : s.runThread retention tid t = some s') : Advances s s' := by
  have hok := h.threads tid t ht
  unfold Sys.IntoDirectory Sys.intoDirectory at hinto
  dsimp only at hinto
  rw [ht] at hinto
  obtain ⟨call, now, creds, phase, held⟩ := t
  cases phase with
  | start => cases hs; exact begin_ok h ht rfl
  | foundSource id c =>
    cases call with
    | rename fromDir fromName toDir toName replaceExisting =>
      cases hs
      refine h.goto ht ⟨hok, fun x hx => ?_⟩ nofun rfl
      exact mem_append_left _ (mem_lockOrder.2 hx)
    | _ => cases hs
  | locking todo found =>
    cases todo with
    | nil => exact locked_ok h ht rfl hs
    | cons id todo =>
      obtain ⟨hbusy, rfl⟩ := of_guard_not hs
      exact ⟨lock_ok h ht rfl (Bool.eq_false_iff.2 hbusy), .same rfl le_rfl⟩
  | planned found defer =>
    cases found with
    | nothing => cases hs
    | entry id c =>
      cases call with
      | remove dirid name expected =>
        cases hs
        exact removeLocked_ok h ht nofun rfl hok.1.1 hok.1.2 hok.2.1 hok.2.2
      | _ => cases hs
    | move id c targetId =>
      cases call with
      | rename fromDir fromName toDir toName replaceExisting =>
        cases hs
        obtain ⟨hne, hheld, he, htarget, hfree⟩ := hok
        exact renameLocked_ok h ht nofun rfl hne hheld he htarget hinto hfree
      | _ => cases hs
  | unopened =>
    cases call with
    | reclaimIfUnreferenced id => exact unopened_ok h ht rfl rfl hs
    | _ => cases hs
  | unprotected =>
    cases call with
    | reclaimIfUnreferenced id =>
      cases hs
      obtain ⟨hid, hz, hp⟩ := hok
      exact reclaimLocked_ok h ht hid hz hp (fun i hc => hc.symm) rfl
    | _ => cases hs
  | applied settlement => cases hs; exact settle_ok h ht rfl
  | done => cases hs

theorem spawn_eq (hs : s.spawn tid t = some s') :
    s' = s.setThread tid t ∧ ∀ old, s.threads.get tid = some old → old.phase = .done := by
  unfold Sys.spawn at hs
  split at hs
  · rename_i hnone; cases hs; exact ⟨rfl, fun _ heq => by cases hnone.symm.trans heq⟩
  rename_i old hold
  split at hs
  · rename_i hdone; cases hs; exact ⟨rfl, fun _ heq => some.inj (hold.symm.trans heq) ▸ hdone⟩
  · cases hs

/-- A call starts; the drainer takes an orphan from its queue to the thread that covers it. -/
theorem spawn_ok {queue : List InodeId} (h : Inv s) (hqueue : ∀ i ∈ s.reclaimQueue, i ∈ queue ∨ t.covers i)
    (hheld : t.held = []) (hok : ThreadOk s t) (howes : t.owes = 0)
    (hs : { s with reclaimQueue := queue }.spawn tid t = some s') : Advances s s' := by
  obtain ⟨rfl, hdone⟩ := spawn_eq hs
  have hold : ∀ old, s.threads.get tid = some old → (∀ i, ¬old.covers i) ∧ old.owes = 0 := by
    rintro ⟨call, now, creds, phase, held⟩ hold
    cases hdone _ hold
    exact ⟨nofun, rfl⟩
  have hframe : ∀ held, Frame s ({ s with reclaimQueue := queue }.setThread tid t) held :=
    fun _ => .same rfl (fun _ hz => hz) fun _ hp => hp
  generalize ho : s.threads.get tid = o at hold
  refine ⟨h.advance ho rfl (hframe _) (fun x hx => ?_) (hok.frame (hframe []) fun _ _ => not_mem_nil)
    h.consistent h.handles h.protected_ h.live (fun i hi => ?_) ?_ rfl, .same rfl le_rfl⟩
  · rw [hheld] at hx; cases hx
  · refine (h.covered i hi).mono (fun hq => ?_) id id rfl ho fun hc => ?_
    · exact (hqueue i hq).imp id fun hc => .inr (.inr ⟨tid, t, get_put_self .., hc⟩)
    · cases o with
      | none => cases hc
      | some u => exact absurd hc ((hold u rfl).1 i)
  · show s.quota + bytes s.db + o.elim 0 Thread.owes = s.quota + bytes s.db + t.owes
    cases o with
    | none => rw [howes]; rfl
    | some u => rw [howes, elim_some, (hold u rfl).2]

theorem refuse_ok (h : Inv s) (hs : s.step retention (.refuse tid) = some s') : Advances s s' := by
  obtain ⟨t, ht, hs⟩ := bind_eq_some_iff.1 hs
  obtain ⟨call, now, creds, phase, held⟩ := t
  cases call with
  | reclaimIfUnreferenced id => cases hs
  | _ =>
    cases phase with
    | applied settlement => cases hs
    | _ => cases hs; exact h.returns ht nofun rfl

theorem decOpenHandle_get (m : Table InodeId Nat) (id j : InodeId) :
    ((decOpenHandle m id).2.get j).getD 0 = (m.get j).getD 0 - (if id = j then 1 else 0) ∧
      (decOpenHandle m id).1 = (m.get id).getD 0 - 1 := by
  unfold decOpenHandle
  cases hm : m.get id with
  | none =>
    refine ⟨?_, rfl⟩
    by_cases heq : id = j
    · subst heq; simp [hm]
    · simp [heq]
  | some n =>
    dsimp only
    split
    · rename_i hz
      refine ⟨?_, hz.symm⟩
      by_cases heq : id = j
      · subst heq; simp [hm, hz]
      · simp [get_del, heq, Ne.symm heq]
    · refine ⟨?_, rfl⟩
      by_cases heq : id = j
      · subst heq; simp [hm]
      · simp [get_put, heq, Ne.symm heq]

theorem clunk_ok {fid : Nat} (h : Inv s) (hs : s.clunk fid = some s') : Advances s s' := by
  obtain ⟨id, hfid, hs⟩ := map_eq_some_iff.1 hs
  cases hs
  have hcount : ∀ j, ((decOpenHandle s.openHandles id).2.get j).getD 0 =
    s.openHandleCount j - if id = j then 1 else 0 :=
    fun j => (decOpenHandle_get s.openHandles id j).1
  have hlast : (decOpenHandle s.openHandles id).1 = s.openHandleCount id - 1 :=
    (decOpenHandle_get s.openHandles id id).2
  refine ⟨h.aside rfl ?_ h.consistent (fun j => ?_) h.protected_ (fun j hj => ?_) (fun j hj => ?_) rfl rfl,
    .same rfl le_rfl⟩
  · refine .same rfl (fun j hz => ?_) fun _ hp => hp
    show ((decOpenHandle s.openHandles id).2.get j).getD 0 = 0
    rw [hcount, hz, Nat.zero_sub]
  · have hdel := count_del (p := fun _ j' => j' = j) s.fids fid
    rw [hfid, elim_some] at hdel
    show ((decOpenHandle s.openHandles id).2.get j).getD 0 = (s.fids.del fid).count fun _ j' => j' = j
    rw [hcount, h.handles j]
    unfold opened
    omega
  · have hpos : 0 < ((decOpenHandle s.openHandles id).2.get j).getD 0 := hj
    rw [hcount] at hpos
    exact h.live j (by omega)
  rcases h.covered j hj with hq | hh | hp | hc
  · left
    show j ∈ if (decOpenHandle s.openHandles id).1 = 0 then s.reclaimQueue ++ [id] else s.reclaimQueue
    split
    · exact mem_append_left _ hq
    · exact hq
  · -- the last handle of `j` is closed, or one is left
    by_cases hz : s.openHandleCount j - (if id = j then 1 else 0) = 0
    · left
      have heq : id = j := by
        by_contra hne
        rw [if_neg hne] at hz
        omega
      subst heq
      show id ∈ if (decOpenHandle s.openHandles id).1 = 0 then s.reclaimQueue ++ [id] else s.reclaimQueue
      rw [if_pos rfl] at hz
      rw [hlast, if_pos hz]
      exact mem_append_right _ mem_cons_self
    · refine .inr (.inl ?_)
      show 0 < ((decOpenHandle s.openHandles id).2.get j).getD 0
      rw [hcount]
      exact Nat.pos_of_ne_zero hz
  · exact .inr (.inr (.inl hp))
  · exact .inr (.inr (.inr hc))

theorem ledger_ok {a : Dedup.Action Inode} (h : Inv s) (hs : s.step retention (.ledger a) = some s') :
    Advances s s' := by
  unfold Sys.step at hs
  dsimp only at hs
  split at hs
  · rename_i ha
    obtain ⟨d, hd, hs⟩ := map_eq_some_iff.1 hs
    cases hs
    have hlapse := Dedup.step_lapse hd
    refine ⟨h.aside rfl (.same rfl (fun _ hz => hz) fun i => hlapse.fewer i (by rw [ha]; nofun)) h.consistent h.handles
      ⟨(hlapse.ok h.protected_).refs, (hlapse.ok h.protected_).pos⟩ h.live (fun i hi => ?_) rfl rfl, .same rfl le_rfl⟩
    exact covered_withDedup hlapse.listed (h.covered i hi)
  · cases hs

theorem SamePlace.nlink (h : SamePlace inode inode') : inode'.nlink = inode.nlink := by
  cases inode with
  | leaf l =>
    cases inode' with
    | leaf l' => exact h.2.2
    | directory d' => exact h.elim
  | directory d =>
    cases inode' with
    | leaf l' => exact h.elim
    | directory d' => exact h.2.2.1

theorem bytes_put {db' : NsDb} (hi : db.inodes.get id = some inode) (hdb : db'.inodes = db.inodes.put id inode') :
    bytes db' + inode.size = bytes db + inode'.size ∧ inodes db' = inodes db := by
  have hsum := sum_put (fun _ (inode : Inode) => inode.size) db.inodes id inode'
  have hcount := count_put (p := fun (id : InodeId) (_ : Inode) => id ≠ 0) db.inodes id inode'
  rw [hi, elim_some] at hsum hcount
  unfold bytes inodes
  rw [hdb]
  exact ⟨hsum, Nat.add_right_cancel hcount⟩

theorem update_ok {txn : Except FsError (List NsWrite)} (h : Inv s)
    (hup : ∀ ws, txn = .ok ws → Updates s.db id ws) (hs : s.update id txn = some s') :
    Advances s s' := by
  unfold Sys.update at hs
  split at hs
  · cases txn with
    | error e => cases hs; exact ⟨h, .same rfl le_rfl⟩
    | ok ws =>
      cases hs
      have hcons := (hup ws rfl).consistent h.consistent
      obtain ⟨hentries, hinodes⟩ := (hup ws rfl).saves
      -- every inode keeps its links, and only the size of `id` moves
      have hget : ∀ i inode', (s.db.commit ws).inodes.get i = some inode' →
          ∃ inode, s.db.inodes.get i = some inode ∧ inode'.nlink = inode.nlink := by
        intro i inode' hi'
        rcases hinodes with hsame | ⟨inode, new, hi, hplace, hput⟩
        · rw [hsame] at hi'; exact ⟨inode', hi', rfl⟩
        rw [hput] at hi'
        rcases cases_put hi' with ⟨heq, rfl⟩ | ⟨-, hi'⟩
        · rw [heq]; exact ⟨inode, hi, SamePlace.nlink hplace⟩
        · exact ⟨inode', hi', rfl⟩
      have hsome : ∀ i, ((s.db.commit ws).inodes.get i).isSome = (s.db.inodes.get i).isSome := by
        intro i
        rcases hinodes with hsame | ⟨inode, new, hi, _, hput⟩
        · rw [hsame]
        rw [hput, get_put]
        split
        · rename_i heq; rw [heq, hi]; rfl
        · rfl
      have hbytes : (bytes (s.db.commit ws) : Int) + ((s.db.inodes.get id).elim 0 Inode.size : Nat) =
          bytes s.db + (((s.db.commit ws).inodes.get id).elim 0 Inode.size : Nat) ∧
          inodes (s.db.commit ws) = inodes s.db := by
        rcases hinodes with hsame | ⟨inode, new, hi, _, hput⟩
        · unfold bytes inodes; rw [hsame]; exact ⟨rfl, rfl⟩
        · obtain ⟨hb, hc⟩ := bytes_put hi hput
          refine ⟨?_, hc⟩
          rw [hi, hput, get_put_self, elim_some, elim_some]
          exact_mod_cast hb
      refine ⟨h.aside rfl ⟨fun d n _ => ?_, fun d n i c he _ => ?_, fun _ _ hz => hz, fun _ hp => .inl hp⟩
        hcons h.handles h.protected_ (fun i hi => ?_) (fun i hi => ?_) ?_ ?_, .of le_rfl fun i => .inl (hsome i)⟩
      · rw [hentries]
      · rw [hentries]; exact he
      · exact (hsome i).trans (h.live i hi)
      · obtain ⟨inode', hi', hl⟩ := hi
        obtain ⟨inode, hi, hlink⟩ := hget i inode' hi'
        exact h.covered i ⟨inode, hi, hlink.symm.trans hl⟩
      · show s.quota + ((((s.db.commit ws).inodes.get id).elim 0 Inode.size : Nat) : Int) - _ + bytes s.db =
          s.quota + bytes (s.db.commit ws)
        omega
      · rw [hbytes.2]
  · cases hs

/-- **One step keeps the invariant, and deletes only an inode that is neither open nor protected.** -/
theorem step_ok {a : Action} (h : Inv s) (hinto : s.IntoDirectory a) (hs : s.step retention a = some s') :
    Advances s s' := by
  cases a with
  | spawn tid call now creds =>
    have hspawn : s.spawn tid ⟨call, now, creds, .start, []⟩ = some s' := by
      cases call with
      | reclaimIfUnreferenced id => cases hs
      | _ => exact hs
    have hok : ThreadOk s ⟨call, now, creds, .start, []⟩ := by
      cases call <;> trivial
    exact spawn_ok h (fun _ => .inl) rfl hok rfl hspawn
  | drain tid now creds =>
    unfold Sys.step at hs
    dsimp only at hs
    split at hs
    · cases hs
    rename_i id rest hq
    have hok : ThreadOk s ⟨.reclaimIfUnreferenced id, now, creds, .start, []⟩ := trivial
    refine spawn_ok h (fun i hi => ?_) rfl hok rfl hs
    rw [hq] at hi
    exact (mem_cons.1 hi).symm.imp_right Eq.symm
  | run tid => obtain ⟨t, ht, hs⟩ := bind_eq_some_iff.1 hs; exact runThread_ok h ht hinto hs
  | refuse tid => exact refuse_ok h hs
  | clunk fid => exact clunk_ok h hs
  | ledger a => exact ledger_ok h hs
  | write id offset len checkPermissions now creds => exact update_ok h (fun ws hop => write_updates hop) hs
  | setattr id attr opened now creds => exact update_ok h (fun ws hop => setattr_updates hop) hs

theorem boot_inv (hdb : db.Consistent nextId) (hprot : Protected dedup.ledger) :
    Inv (Sys.boot db nextId dedup) := by
  refine ⟨hdb, fun _ => rfl, hprot, fun _ hi => absurd hi (Nat.lt_irrefl 0), ?_, ?_, fun i hi => .inl ?_, ?_, rfl⟩
  · intro _ _ _ _ ht; cases ht
  · intro _ _ ht; cases ht
  · exact AList.mem_keys.2 (AList.lookup_isSome.1 ((hdb.orphan_iff i).2 hi))
  · rfl

theorem reach_inv (hdb : db.Consistent nextId) (hprot : Protected dedup.ledger)
    (hs : Reach (fun s => s.step retention) Sys.IntoDirectory (Sys.boot db nextId dedup) s) : Inv s :=
  hs.invariant (I := Inv) (boot_inv hdb hprot) fun _ _ _ h hinto hstep => (step_ok h hinto hstep).1

/-- **Interleaved calls keep the namespace coherent** as long as none moves an entry below a file, count the fids of an
inode and lock none twice. -/
theorem interleaved_coherent (hdb : db.Consistent nextId) (hprot : Protected dedup.ledger)
    (hs : Reach (fun s => s.step retention) Sys.IntoDirectory (Sys.boot db nextId dedup) s) :
    s.db.Coherent ∧ (∀ i, s.openHandleCount i = opened s i) ∧
      ∀ tid tid' t t', s.threads.get tid = some t → s.threads.get tid' = some t' → tid ≠ tid' →
      t.held.Disjoint t'.held := by
  have hinv := reach_inv hdb hprot hs
  exact ⟨hinv.consistent.coherent, hinv.handles, hinv.exclusive⟩

end ZeroFS.Handle
