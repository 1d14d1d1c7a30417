import ZeroFS.Handle.Model
import ZeroFS.Lib.Updates
import ZeroFS.Namespace.Locked

/-!
# What keeps an unlinked inode

Whether an inode may be deleted is decided under its lock, but handles close and replay results expire without one, and
a result is published while its creator still holds the directory's lock. `ThreadOk` says what a thread may rely on
between its decision and its commit, `Frame` what the steps of the others keep of it, and `Covered` that somebody comes
back to every orphan.
-/

namespace ZeroFS.Handle

open Machine Dedup.Ledger NsDb Table

/-! ## The invariant -/

/-- The inode is an orphan. -/
def Unlinked (db : NsDb) (i : InodeId) : Prop := ∃ inode, db.inodes.get i = some inode ∧ inode.nlink = 0

/-- The inode is not open, and it is not protected unless an entry other than `key` names it. -/
def Free (s : Sys) (i : InodeId) (key : InodeId × Name) : Prop :=
  s.openHandleCount i = 0 ∧
    (s.dedup.ledger.protectsReplayInode i = true → ∃ d n c, (d, n) ≠ key ∧ s.db.entries.get (d, n) = some (i, c))

/-- What a thread relies on: the locks that it has taken or is going to take, and what it has found under them. -/
def ThreadOk (s : Sys) (t : Thread) : Prop :=
  match t.phase, t.call with
  | .foundSource id _, .rename fromDir fromName toDir toName _ => toDir ≠ id ∧ ¬(fromDir = toDir ∧ fromName = toName)
  | .locking todo _, .create dirid _ _ _ => dirid ∈ todo ++ t.held
  | .locking todo _, .link fileid dirid _ => fileid ∈ todo ++ t.held ∧ dirid ∈ todo ++ t.held
  | .locking todo (.entry id _), .remove dirid _ _ => dirid ∈ todo ++ t.held ∧ id ∈ todo ++ t.held
  | .locking todo (.move id _ targetId), .rename fromDir fromName toDir toName _ =>
    (toDir ≠ id ∧ ¬(fromDir = toDir ∧ fromName = toName)) ∧
      ∀ x ∈ [fromDir, id, toDir] ++ targetId.toList, x ∈ todo ++ t.held
  | .locking todo _, .openFid _ id _ => id ∈ todo ++ t.held
  | .locking todo _, .reclaimIfUnreferenced id => id ∈ todo ++ t.held
  | .planned (.entry id cookie) defer, .remove dirid name _ =>
    (dirid ∈ t.held ∧ id ∈ t.held) ∧ s.db.entries.get (dirid, name) = some (id, cookie) ∧
      (defer = false → Free s id (dirid, name))
  | .planned (.move id cookie targetId) defer, .rename fromDir fromName toDir toName _ =>
    (toDir ≠ id ∧ ¬(fromDir = toDir ∧ fromName = toName)) ∧
      (∀ x ∈ [fromDir, id, toDir] ++ targetId.toList, x ∈ t.held) ∧
      s.db.entries.get (fromDir, fromName) = some (id, cookie) ∧
      (s.db.entries.get (toDir, toName)).map (·.1) = targetId ∧
      (defer = false → ∀ x, targetId = some x → Free s x (toDir, toName))
  | .unopened, .reclaimIfUnreferenced id => id ∈ t.held ∧ s.openHandleCount id = 0
  | .unprotected, .reclaimIfUnreferenced id => id ∈ t.held ∧ s.openHandleCount id = 0 ∧
      (s.dedup.ledger.protectsReplayInode id = true → ∃ d n c, s.db.entries.get (d, n) = some (id, c))
  | .applied (.record _ id _), _ => ∃ d n c, d ∈ t.held ∧ s.db.entries.get (d, n) = some (id, c)
  | .done, _ => t.held = []
  | _, _ => True

/-- The thread is going to look at the orphan, or to send it to the drainer. -/
def Thread.covers (t : Thread) (i : InodeId) : Prop :=
  match t.phase, t.call with
  | .start, .reclaimIfUnreferenced id => id = i
  | .locking _ _, .reclaimIfUnreferenced id => id = i
  | .unopened, .reclaimIfUnreferenced id => id = i
  | .unprotected, .reclaimIfUnreferenced id => id = i
  | .applied (.deferredReclaim id), _ => id = i
  | _, _ => False

/-- Bytes that the quota still accounts to a deleted file. -/
def Thread.owes (t : Thread) : Nat :=
  match t.phase with
  | .applied (.shrink bytes) => bytes
  | _ => 0

/-- Somebody comes back to the orphan: it is queued, open, registered until its protection ends, or a thread is at
it. -/
def Covered (s : Sys) (i : InodeId) : Prop :=
  i ∈ s.reclaimQueue ∨ 0 < s.openHandleCount i ∨
    (s.dedup.ledger.protectsReplayInode i = true ∧ i ∈ s.dedup.ledger.reclaimOnUnprotect) ∨
    ∃ tid t, s.threads.get tid = some t ∧ t.covers i

def opened (s : Sys) (i : InodeId) : Nat := s.fids.count fun _ j => j = i

/-- What every interleaving keeps. -/
structure Inv (s : Sys) : Prop where
  consistent : s.db.Consistent s.nextId
  handles : ∀ i, s.openHandleCount i = opened s i
  protected_ : Protected s.dedup.ledger
  live : ∀ i, 0 < s.openHandleCount i → (s.db.inodes.get i).isSome
  exclusive : ∀ tid tid' t t', s.threads.get tid = some t → s.threads.get tid' = some t' → tid ≠ tid' →
    ∀ x ∈ t.held, x ∉ t'.held
  threads : ∀ tid t, s.threads.get tid = some t → ThreadOk s t
  covered : ∀ i, Unlinked s.db i → Covered s i
  quota : s.quota = (bytes s.db + s.threads.sum fun _ t => t.owes : Nat)
  inodeCount : s.inodeCount = inodes s.db

/-! ## Frames -/

/-- What a step of a thread with the locks `held` leaves to the others. -/
structure Frame (s s' : Sys) (held : List InodeId) : Prop where
  entries : ∀ d n, d ∉ held → s'.db.entries.get (d, n) = s.db.entries.get (d, n)
  named : ∀ d n i c, s.db.entries.get (d, n) = some (i, c) → i ∉ held → s'.db.entries.get (d, n) = some (i, c)
  handles : ∀ i, i ∉ held → s.openHandleCount i = 0 → s'.openHandleCount i = 0
  protects : ∀ i, s'.dedup.ledger.protectsReplayInode i = true →
    s.dedup.ledger.protectsReplayInode i = true ∨ ∃ d n c, d ∈ held ∧ s'.db.entries.get (d, n) = some (i, c)

variable {s s' : Sys} {tid : Nat} {t t' : Thread} {held : List InodeId} {i : InodeId}

variable {x : InodeId} {db db' : NsDb} {o : Option Thread}

theorem Frame.same (hdb : s'.db = s.db) (hhandles : ∀ i, s.openHandleCount i = 0 → s'.openHandleCount i = 0)
    (hprotects : ∀ i, s'.dedup.ledger.protectsReplayInode i = true → s.dedup.ledger.protectsReplayInode i = true) :
    Frame s s' held :=
  ⟨fun _ _ _ => by rw [hdb], fun _ _ _ _ he _ => by rw [hdb]; exact he,
    fun i _ => hhandles i, fun i hp => .inl (hprotects i hp)⟩

/-- A transaction under its locks, and nothing else. -/
theorem Frame.commit {ws : List NsWrite} {gone fresh orphan : Option InodeId}
    (h : Locked s.db held ws gone fresh orphan) (hdb : s'.db = s.db.commit ws)
    (hhandles : s'.openHandles = s.openHandles) (hdedup : s'.dedup = s.dedup) : Frame s s' held := by
  refine ⟨fun d n hd => ?_, fun d n i c he hi => ?_, fun i _ hz => ?_, fun i hp => ?_⟩
  · rw [hdb]; exact h.entries d n hd
  · rw [hdb]; exact h.named d n i c he hi
  · unfold Sys.openHandleCount; rw [hhandles]; exact hz
  · rw [hdedup] at hp; exact .inl hp

theorem Free.frame {key : InodeId × Name} (h : Free s i key) (hf : Frame s s' held) (hi : i ∉ held)
    (hk : key.1 ∉ held) : Free s' i key := by
  refine ⟨hf.handles i hi h.1, fun hp => ?_⟩
  rcases hf.protects i hp with hp | ⟨d, n, c, hd, he⟩
  · obtain ⟨d, n, c, hne, he⟩ := h.2 hp; exact ⟨d, n, c, hne, hf.named d n i c he hi⟩
  refine ⟨d, n, c, ?_, he⟩
  rintro rfl
  exact hk hd

/-- What the other threads rely on survives. -/
theorem ThreadOk.frame (h : ThreadOk s t) (hf : Frame s s' held) (hdisj : ∀ x ∈ t.held, x ∉ held) : ThreadOk s' t := by
  obtain ⟨call, now, creds, phase, mine⟩ := t
  cases phase with
  | planned found defer =>
    cases found with
    | nothing => cases call <;> trivial
    | entry id cookie =>
      cases call with
      | remove dirid name expected =>
        obtain ⟨⟨hd, hi⟩, he, hfree⟩ := h
        refine ⟨⟨hd, hi⟩, ?_, fun hdefer => (hfree hdefer).frame hf (hdisj _ hi) (hdisj _ hd)⟩
        rw [hf.entries _ _ (hdisj _ hd)]
        exact he
      | _ => trivial
    | move id cookie targetId =>
      cases call with
      | rename fromDir fromName toDir toName replaceExisting =>
        obtain ⟨hne, hheld, he, ht, hfree⟩ := h
        have hfrom : fromDir ∈ mine := hheld fromDir (by simp)
        have hto : toDir ∈ mine := hheld toDir (by simp)
        refine ⟨hne, hheld, ?_, ?_, fun hdefer x hx => ?_⟩
        · rw [hf.entries _ _ (hdisj _ hfrom)]; exact he
        · rw [hf.entries _ _ (hdisj _ hto)]; exact ht
        · refine (hfree hdefer x hx).frame hf (hdisj x (hheld x ?_)) (hdisj _ hto); rw [hx]; simp
      | _ => trivial
  | unopened =>
    cases call with
    | reclaimIfUnreferenced id => exact ⟨h.1, hf.handles id (hdisj id h.1) h.2⟩
    | _ => trivial
  | unprotected =>
    cases call with
    | reclaimIfUnreferenced id =>
      obtain ⟨hi, hz, hp⟩ := h
      refine ⟨hi, hf.handles id (hdisj id hi) hz, fun hp' => ?_⟩
      rcases hf.protects id hp' with hp' | ⟨d, n, c, _, he⟩
      · obtain ⟨d, n, c, he⟩ := hp hp'; exact ⟨d, n, c, hf.named d n id c he (hdisj id hi)⟩
      · exact ⟨d, n, c, he⟩
    | _ => trivial
  | applied settlement =>
    cases settlement with
    | record op id inode =>
      obtain ⟨d, n, c, hd, he⟩ := h
      refine ⟨d, n, c, hd, ?_⟩
      rw [hf.entries _ _ (hdisj d hd)]
      exact he
    | _ => trivial
  | start => exact h
  | foundSource sourceId cookie => cases call <;> exact h
  | locking todo found => cases call <;> cases found <;> exact h
  | done => exact h

theorem busy_eq_false {tid' : Nat} (h : s.busy tid x = false) (ht : s.threads.get tid' = some t') (hne : tid' ≠ tid) :
    x ∉ t'.held := by
  simp only [Sys.busy, List.any_eq_false, Bool.and_eq_true, decide_eq_true_eq, List.contains_eq_mem, not_and] at h
  exact h ⟨tid', t'⟩ (mem_entries.2 ht) hne

/-! ## Accounting -/

theorem bytes_congr (h : ∀ i, (db'.inodes.get i).map Inode.size = (db.inodes.get i).map Inode.size) :
    bytes db' = bytes db ∧ inodes db' = inodes db := by
  have hcases : ∀ i, (db'.inodes.get i = none ∧ db.inodes.get i = none) ∨
      ∃ ino' ino, db'.inodes.get i = some ino' ∧ db.inodes.get i = some ino ∧ ino'.size = ino.size := by
    intro i
    have hi := h i
    cases h1 : db'.inodes.get i with
    | none => rw [h1] at hi; exact .inl ⟨rfl, Option.map_eq_none_iff.1 hi.symm⟩
    | some ino' =>
      rw [h1] at hi
      obtain ⟨ino, h2, hsize⟩ := Option.map_eq_some_iff.1 hi.symm
      exact .inr ⟨ino', ino, rfl, h2, hsize.symm⟩
  unfold bytes inodes count
  constructor
  · refine sum_congr_get fun i => ?_
    rcases hcases i with ⟨h1, h2⟩ | ⟨ino', ino, h1, h2, hsize⟩
    · rw [h1, h2]
    · rw [h1, h2]; exact hsize
  · refine sum_congr_get fun i => ?_
    rcases hcases i with ⟨h1, h2⟩ | ⟨ino', ino, h1, h2, _⟩
    · rw [h1, h2]
    · rw [h1, h2]; rfl

theorem bytes_gone {inode : Inode} (hx : db.inodes.get x = some inode) (h0 : x ≠ 0)
    (hgone : db'.inodes.get x = none)
    (h : ∀ i, i ≠ x → (db'.inodes.get i).map Inode.size = (db.inodes.get i).map Inode.size) :
    bytes db' + inode.size = bytes db ∧ inodes db' + 1 = inodes db := by
  have hdel : ∀ i, (db'.inodes.get i).map Inode.size = ((db.inodes.del x).get i).map Inode.size := by
    intro i
    rw [get_del]
    split
    · rename_i heq; rw [heq, hgone]
    · rename_i hne; exact h i hne
  obtain ⟨hb, hc⟩ : bytes db' = bytes { db with inodes := db.inodes.del x } ∧
    inodes db' = inodes { db with inodes := db.inodes.del x } :=
    bytes_congr hdel
  have hsum := sum_del (fun _ (inode : Inode) => inode.size) db.inodes x
  have hcount := count_del (p := fun (id : InodeId) (_ : Inode) => id ≠ 0) db.inodes x
  rw [hx, Option.elim_some] at hsum hcount
  rw [if_pos h0] at hcount
  rw [hb, hc]
  exact ⟨hsum, hcount⟩

theorem bytes_fresh (hx : db.inodes.get x = none) (h0 : x ≠ 0)
    (hfresh : (db'.inodes.get x).map Inode.size = some 0)
    (h : ∀ i, i ≠ x → (db'.inodes.get i).map Inode.size = (db.inodes.get i).map Inode.size) :
    bytes db' = bytes db ∧ inodes db' = inodes db + 1 := by
  obtain ⟨inode, hget, hsize⟩ := Option.map_eq_some_iff.1 hfresh
  obtain ⟨hb, hc⟩ := bytes_gone hget h0 hx fun i hi => (h i hi).symm
  rw [hsize] at hb
  exact ⟨hb.symm, hc.symm⟩

/-! ## Moves of one thread -/

theorem Covered.mono (h : Covered s i) (hqueue : i ∈ s.reclaimQueue → Covered s' i)
    (hopen : 0 < s.openHandleCount i → 0 < s'.openHandleCount i)
    (hlisted : s.dedup.ledger.protectsReplayInode i = true ∧ i ∈ s.dedup.ledger.reclaimOnUnprotect →
      s'.dedup.ledger.protectsReplayInode i = true ∧ i ∈ s'.dedup.ledger.reclaimOnUnprotect)
    (hthreads : s'.threads = s.threads.put tid t') (ht : s.threads.get tid = o)
    (hcovers : o.elim False (·.covers i) → t'.covers i ∨ Covered s' i) : Covered s' i := by
  rcases h with hq | hh | hp | ⟨tid', u, hu, hc⟩
  · exact hqueue hq
  · exact .inr (.inl (hopen hh))
  · exact .inr (.inr (.inl (hlisted hp)))
  by_cases heq : tid' = tid
  · subst heq
    rcases hcovers (by rw [← ht, hu]; exact hc) with hc | hc
    · exact .inr (.inr (.inr ⟨tid', t', by rw [hthreads, get_put_self], hc⟩))
    · exact hc
  · exact .inr (.inr (.inr ⟨tid', u, by rw [hthreads, get_put_ne heq, hu], hc⟩))

/-- A thread starts, or takes a step, and goes to `t'`; the rest of the system moves along. -/
theorem Inv.advance (h : Inv s) (ht : s.threads.get tid = o) (hthreads : s'.threads = s.threads.put tid t')
    (hframe : Frame s s' (o.elim [] Thread.held))
    (hheld : ∀ x ∈ t'.held, x ∈ o.elim [] Thread.held ∨ s.busy tid x = false) (hok : ThreadOk s' t')
    (hcons : s'.db.Consistent s'.nextId) (hhandles : ∀ i, s'.openHandleCount i = opened s' i)
    (hprot : Protected s'.dedup.ledger) (hlive : ∀ i, 0 < s'.openHandleCount i → (s'.db.inodes.get i).isSome)
    (hcovered : ∀ i, Unlinked s'.db i → Covered s' i)
    (hquota : s'.quota + bytes s.db + o.elim 0 Thread.owes = s.quota + bytes s'.db + t'.owes)
    (hcount : s'.inodeCount + inodes s.db = s.inodeCount + inodes s'.db) : Inv s' := by
  have hrest : ∀ tid' u, s'.threads.get tid' = some u → (tid' = tid ∧ u = t') ∨
      (tid' ≠ tid ∧ s.threads.get tid' = some u) := by
    intro tid' u hu
    rw [hthreads] at hu
    exact cases_put hu
  have hold : ∀ tid' u, tid' ≠ tid → s.threads.get tid' = some u → ∀ x ∈ o.elim [] Thread.held, x ∉ u.held := by
    intro tid' u hne hu x hx
    cases o with
    | none => cases hx
    | some t => exact h.exclusive tid tid' t u ht hu (Ne.symm hne) x hx
  have hfree : ∀ tid' u, tid' ≠ tid → s.threads.get tid' = some u → ∀ x ∈ t'.held, x ∉ u.held := by
    intro tid' u hne hu x hx
    rcases hheld x hx with hx | hx
    · exact hold tid' u hne hu x hx
    · exact busy_eq_false hx hu hne
  refine ⟨hcons, hhandles, hprot, hlive, ?_, ?_, hcovered, ?_, ?_⟩
  · intro tid₁ tid₂ u₁ u₂ hu₁ hu₂ hne x hx hx'
    rcases hrest tid₁ u₁ hu₁ with ⟨rfl, rfl⟩ | ⟨hne₁, hold₁⟩
    · rcases hrest tid₂ u₂ hu₂ with ⟨rfl, _⟩ | ⟨hne₂, hold₂⟩
      · exact hne rfl
      · exact hfree tid₂ u₂ hne₂ hold₂ x hx hx'
    · rcases hrest tid₂ u₂ hu₂ with ⟨rfl, rfl⟩ | ⟨_, hold₂⟩
      · exact hfree tid₁ u₁ hne₁ hold₁ x hx' hx
      · exact h.exclusive tid₁ tid₂ u₁ u₂ hold₁ hold₂ hne x hx hx'
  · intro tid' u hu
    rcases hrest tid' u hu with ⟨_, rfl⟩ | ⟨hne, hu⟩
    · exact hok
    · exact (h.threads tid' u hu).frame hframe fun x hx hx' => hold tid' u hne hu x hx' hx
  · have hsum := sum_put (fun _ (t : Thread) => t.owes) s.threads tid t'
    rw [ht] at hsum
    change _ + o.elim 0 Thread.owes = _ at hsum
    have hq := h.quota
    rw [hthreads]
    push_cast at hq ⊢
    omega
  · have hc := h.inodeCount; omega

/-- The threads stay where they are. -/
theorem Inv.aside (h : Inv s) (hthreads : s'.threads = s.threads) (hframe : Frame s s' [])
    (hcons : s'.db.Consistent s'.nextId) (hhandles : ∀ i, s'.openHandleCount i = opened s' i)
    (hprot : Protected s'.dedup.ledger) (hlive : ∀ i, 0 < s'.openHandleCount i → (s'.db.inodes.get i).isSome)
    (hcovered : ∀ i, Unlinked s'.db i → Covered s' i) (hquota : s'.quota + bytes s.db = s.quota + bytes s'.db)
    (hcount : s'.inodeCount + inodes s.db = s.inodeCount + inodes s'.db) : Inv s' := by
  refine ⟨hcons, hhandles, hprot, hlive, ?_, ?_, hcovered, ?_, ?_⟩
  · rw [hthreads]; exact h.exclusive
  · rw [hthreads]
    exact fun tid t ht => (h.threads tid t ht).frame hframe fun _ _ => List.not_mem_nil
  · have hq := h.quota
    rw [hthreads]
    push_cast at hq ⊢
    omega
  · have hc := h.inodeCount; omega

theorem Inv.move (h : Inv s) (ht : s.threads.get tid = some t)
    (hheld : ∀ x ∈ t'.held, x ∈ t.held ∨ s.busy tid x = false) (hok : ThreadOk s t')
    (hcovers : ∀ i, t.covers i → Unlinked s.db i → t'.covers i ∨ Covered (s.setThread tid t') i)
    (howes : t'.owes = t.owes) : Inv (s.setThread tid t') := by
  have hframe : Frame s (s.setThread tid t') t.held := .same rfl (fun _ hz => hz) fun _ hp => hp
  have hok' : ThreadOk (s.setThread tid t') t' := by
    have hsame : Frame s (s.setThread tid t') [] := .same rfl (fun _ hz => hz) fun _ hp => hp
    exact hok.frame hsame fun _ _ => List.not_mem_nil
  refine h.advance ht rfl hframe hheld hok' h.consistent h.handles h.protected_ h.live (fun i hi => ?_) ?_ rfl
  · exact (h.covered i hi).mono .inl id id rfl ht fun hc => hcovers i hc hi
  · rw [howes]; rfl

/-- A call returns that is not needed for an orphan. -/
theorem Inv.finish (h : Inv s) (ht : s.threads.get tid = some t)
    (hcovers : ∀ i, t.covers i → Unlinked s.db i → Covered (s.finish tid t) i) (howes : t.owes = 0) :
    Inv (s.finish tid t) :=
  h.move ht nofun rfl (fun i hc hi => .inr (hcovers i hc hi)) howes.symm

end ZeroFS.Handle
