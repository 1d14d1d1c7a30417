import ZeroFS.Inode
import ZeroFS.Lib.Table
import Mathlib.Tactic.SplitIfs

/-!
# Byte-range locks

`FileLockManager` keeps the locks of an inode as a list of ranges, where length zero means up to the end. `LockTable`
says what this is for: one mode for each byte and owner. Every call on the ranges is the same call on the table
(`call_represents`).
-/

namespace ZeroFS.Locks

/-! ## Ranges -/

inductive LockType
  | readLock
  | writeLock
  | unlock
  deriving DecidableEq

structure FileLock where
  lockType : LockType
  start : Nat
  length : Nat
  procId : Nat
  clientId : List UInt8
  fid : Nat
  inodeId : InodeId

structure HeldLock where
  sessionId : Nat
  lock : FileLock

def lockRangeEnd (start length : Nat) : Nat := if length = 0 then u64Max else min (start + length) u64Max

def subtractLockRange (heldStart heldLength removeStart removeLength : Nat) : List (Nat × Nat) :=
  let heldEnd := lockRangeEnd heldStart heldLength
  let removeEnd := lockRangeEnd removeStart removeLength
  if removeEnd ≤ heldStart ∨ heldEnd ≤ removeStart then [(heldStart, heldLength)]
  else
    (if heldStart < removeStart then
      let leftEnd := min removeStart heldEnd
      if heldStart < leftEnd then [(heldStart, leftEnd - heldStart)] else []
    else []) ++
    if removeEnd < heldEnd then
      let rightStart := max removeEnd heldStart
      -- a survivor that reaches the end keeps doing so
      if rightStart < heldEnd then [(rightStart, if heldEnd = u64Max then 0 else heldEnd - rightStart)] else []
    else []

def locksConflict (requested held : FileLock) : Bool :=
  requested.start < lockRangeEnd held.start held.length && held.start < lockRangeEnd requested.start requested.length &&
    !(requested.lockType = .readLock && held.lockType = .readLock)

def ownedBy (sessionId fid : Nat) (held : HeldLock) : Bool := held.sessionId = sessionId && held.lock.fid = fid

/-- The locks without the range, and whether that changed anything. -/
def subtractMatchingRange (locks : List HeldLock) (start length : Nat) (hit : HeldLock → Bool) : List HeldLock × Bool :=
  let overlaps := fun held : HeldLock =>
    hit held && held.lock.start < lockRangeEnd start length && start < lockRangeEnd held.lock.start held.lock.length
  (locks.flatMap fun held =>
    if overlaps held then (subtractLockRange held.lock.start held.lock.length start length).map fun range =>
      { held with lock := { held.lock with start := range.1, length := range.2 } }
    else [held], locks.any overlaps)

/-! ## The manager -/

abbrev FileLockManager := Table InodeId (List HeldLock)

namespace FileLockManager

variable (m : FileLockManager)

/-- The locks of an inode; one without locks has no row. -/
def locks (inodeId : InodeId) : List HeldLock := (m.get inodeId).getD []

def tryAddLock (sessionId : Nat) (lock : FileLock) : Bool × FileLockManager :=
  if (m.locks lock.inodeId).any fun held => held.sessionId ≠ sessionId && locksConflict lock held.lock then (false, m)
  else
    let kept := (subtractMatchingRange (m.locks lock.inodeId) lock.start lock.length (ownedBy sessionId lock.fid)).1
    (true, m.put lock.inodeId (kept ++ [⟨sessionId, lock⟩]))

def unlockRange (inodeId : InodeId) (fid start length sessionId : Nat) : Bool × FileLockManager :=
  match m.get inodeId with
  | none => (false, m)
  | some locks =>
    let (kept, changed) := subtractMatchingRange locks start length (ownedBy sessionId fid)
    (changed, if kept.isEmpty then m.del inodeId else m.put inodeId kept)

def checkWouldBlock (inodeId : InodeId) (testLock : FileLock) (sessionId : Nat) : Option FileLock :=
  ((m.locks inodeId).find? fun held => held.sessionId ≠ sessionId && locksConflict testLock held.lock).map (·.lock)

def retain (keep : HeldLock → Bool) : FileLockManager :=
  m.filterMapVals fun _ locks => if (locks.filter keep).isEmpty then none else some (locks.filter keep)

def releaseSessionLocks (sessionId : Nat) : FileLockManager := m.retain (·.sessionId ≠ sessionId)

def releaseFidLocks (sessionId fid : Nat) : Bool × FileLockManager :=
  (m.entries.any fun row => row.2.any (ownedBy sessionId fid), m.retain (!ownedBy sessionId fid ·))

/-- `Tlock`: whether it is granted. -/
def lock (sessionId : Nat) (lock : FileLock) : Bool × FileLockManager :=
  if lock.lockType = .unlock then (true, (m.unlockRange lock.inodeId lock.fid lock.start lock.length sessionId).2)
  else m.tryAddLock sessionId lock

end FileLockManager

inductive LockCall
  | lock (sessionId : Nat) (request : FileLock)
  | releaseFid (sessionId fid : Nat)
  | releaseSession (sessionId : Nat)

/-- The offset is below `2^64 - 1`. -/
def LockCall.InRange : LockCall → Prop
  | .lock _ request => request.start < u64Max
  | _ => True

def FileLockManager.call (m : FileLockManager) : LockCall → FileLockManager
  | .lock sessionId lock => (m.lock sessionId lock).2
  | .releaseFid sessionId fid => (m.releaseFidLocks sessionId fid).2
  | .releaseSession sessionId => m.releaseSessionLocks sessionId

/-! ## The table -/

/-- The mode in which an owner, a session and a fid, holds a byte. -/
abbrev LockTable := InodeId → Nat → Nat × Nat → Option LockType

def FileLock.Covers (lock : FileLock) (p : Nat) : Prop := lock.start ≤ p ∧ p < lockRangeEnd lock.start lock.length

instance (lock : FileLock) (p : Nat) : Decidable (lock.Covers p) := inferInstanceAs (Decidable (_ ∧ _))

/-- Another session holds a byte of the range in a mode that excludes the lock. -/
def LockTable.Refuses (t : LockTable) (sessionId : Nat) (lock : FileLock) : Prop :=
  ∃ p o mode, lock.Covers p ∧ t lock.inodeId p o = some mode ∧ o.1 ≠ sessionId ∧
    ¬(lock.lockType = .readLock ∧ mode = .readLock)

open Classical in
/-- A refused lock changes nothing; any other call sets or clears the bytes of its range for its owner. -/
noncomputable def LockTable.call (t : LockTable) : LockCall → LockTable
  | .lock sessionId lock =>
    if lock.lockType ≠ .unlock ∧ t.Refuses sessionId lock then t
    else fun i p o =>
      if i = lock.inodeId ∧ o = (sessionId, lock.fid) ∧ lock.Covers p
        then (if lock.lockType = .unlock then none else some lock.lockType)
      else t i p o
  | .releaseFid sessionId fid => fun i p o => if o = (sessionId, fid) then none else t i p o
  | .releaseSession sessionId => fun i p o => if o.1 = sessionId then none else t i p o

def HeldLock.Grants (held : HeldLock) (p : Nat) (o : Nat × Nat) (mode : LockType) : Prop :=
  (held.sessionId, held.lock.fid) = o ∧ held.lock.Covers p ∧ held.lock.lockType = mode

/-- The ranges stand for the table. -/
structure Represents (m : FileLockManager) (t : LockTable) : Prop where
  mode : ∀ i p o mode, t i p o = some mode ↔ ∃ held ∈ m.locks i, held.Grants p o mode
  start : ∀ i, ∀ held ∈ m.locks i, held.lock.start < u64Max

/-! ## Cutting ranges -/

variable {m : FileLockManager} {t : LockTable} {i : InodeId} {p start length sessionId fid : Nat} {o : Nat × Nat}
  {mode : LockType} {locks : List HeldLock} {held : HeldLock} {lock : FileLock}

theorem lockRangeEnd_le (start length : Nat) : lockRangeEnd start length ≤ u64Max := by
  unfold lockRangeEnd
  split <;> omega

/-- **The fragments cover what the held range covers and the removed one does not.** -/
theorem mem_subtractLockRange (heldStart heldLength removeStart removeLength p : Nat) :
    (∃ r ∈ subtractLockRange heldStart heldLength removeStart removeLength, r.1 ≤ p ∧ p < lockRangeEnd r.1 r.2) ↔
      (heldStart ≤ p ∧ p < lockRangeEnd heldStart heldLength) ∧
      ¬(removeStart ≤ p ∧ p < lockRangeEnd removeStart removeLength) := by
  have hheld := lockRangeEnd_le heldStart heldLength
  unfold subtractLockRange
  dsimp only
  split
  · rename_i hdisjoint; simp only [List.mem_singleton, exists_eq_left]; omega
  · rename_i hoverlap
    generalize lockRangeEnd heldStart heldLength = heldEnd at *
    generalize lockRangeEnd removeStart removeLength = removeEnd at *
    split_ifs <;> simp [lockRangeEnd] <;> (try split_ifs) <;> omega

theorem subtractLockRange_start {heldStart heldLength removeStart removeLength : Nat} (hstart : heldStart < u64Max) :
    ∀ r ∈ subtractLockRange heldStart heldLength removeStart removeLength, r.1 < u64Max := by
  have hheld := lockRangeEnd_le heldStart heldLength
  unfold subtractLockRange
  dsimp only
  split_ifs <;> simp <;> omega

theorem mem_subtractMatchingRange :
    (∃ held ∈ (subtractMatchingRange locks lock.start lock.length (ownedBy sessionId lock.fid)).1,
      held.Grants p o mode) ↔ ∃ held ∈ locks, held.Grants p o mode ∧ ¬(o = (sessionId, lock.fid) ∧ lock.Covers p) := by
  simp only [subtractMatchingRange, List.mem_flatMap]
  constructor
  · rintro ⟨cut, ⟨held, hheld, hcut⟩, howner, hcovers, rfl⟩
    split at hcut
    · obtain ⟨r, hr, rfl⟩ := List.mem_map.1 hcut
      obtain ⟨hin, hout⟩ := (mem_subtractLockRange ..).1 ⟨r, hr, hcovers⟩
      exact ⟨held, hheld, ⟨howner, hin, rfl⟩, fun h => hout h.2⟩
    rename_i hno
    rw [List.mem_singleton] at hcut
    subst hcut
    refine ⟨cut, hheld, ⟨howner, hcovers, rfl⟩, fun ⟨ho, hp⟩ => hno ?_⟩
    unfold FileLock.Covers at hcovers hp
    simp only [ownedBy, ← howner, Prod.mk.injEq] at ho ⊢
    simp only [ho, decide_true, Bool.true_and, Bool.and_eq_true, decide_eq_true_eq]
    omega
  · rintro ⟨held, hheld, ⟨howner, hcovers, rfl⟩, hout⟩
    by_cases hhit : (ownedBy sessionId lock.fid held && held.lock.start < lockRangeEnd lock.start lock.length &&
        lock.start < lockRangeEnd held.lock.start held.lock.length) = true
    · have ho : o = (sessionId, lock.fid) := by
        simp only [ownedBy, Bool.and_eq_true, decide_eq_true_eq] at hhit
        rw [← howner, hhit.1.1.1, hhit.1.1.2]
      obtain ⟨r, hr, hp⟩ := (mem_subtractLockRange ..).2 ⟨hcovers, fun hp => hout ⟨ho, hp⟩⟩
      exact ⟨{ held with lock := { held.lock with start := r.1, length := r.2 } },
        ⟨held, hheld, by rw [if_pos hhit]; exact List.mem_map.2 ⟨r, hr, rfl⟩⟩, howner, hp, rfl⟩
    · exact ⟨held, ⟨held, hheld, by rw [if_neg hhit]; exact List.mem_singleton_self _⟩, howner, hcovers, rfl⟩

theorem subtractMatchingRange_start {hit : HeldLock → Bool} (h : ∀ held ∈ locks, held.lock.start < u64Max) :
    ∀ held ∈ (subtractMatchingRange locks start length hit).1, held.lock.start < u64Max := by
  intro cut hcut
  obtain ⟨held, hheld, hcut⟩ := List.mem_flatMap.1 hcut
  split at hcut
  · obtain ⟨r, hr, rfl⟩ := List.mem_map.1 hcut; exact subtractLockRange_start (h held hheld) r hr
  · rw [List.mem_singleton.1 hcut]; exact h held hheld

/-! ## The calls -/

theorem locks_put (i j : InodeId) : FileLockManager.locks (m.put j locks) i = if i = j then locks else m.locks i := by
  unfold FileLockManager.locks
  rw [Table.get_put]
  split <;> rfl

theorem locks_unlockRange (i j : InodeId) : (m.unlockRange j fid start length sessionId).2.locks i =
    if i = j then (subtractMatchingRange (m.locks j) start length (ownedBy sessionId fid)).1 else m.locks i := by
  unfold FileLockManager.unlockRange FileLockManager.locks
  rcases hj : m.get j with _ | locks
  · by_cases hi : i = j
    · simp [hi, hj, subtractMatchingRange]
    · simp [hi]
  · by_cases hi : i = j <;>
      by_cases hempty : (subtractMatchingRange locks start length (ownedBy sessionId fid)).1.isEmpty = true
    all_goals simp_all [Table.get_put, Table.get_del]

theorem locks_retain (keep : HeldLock → Bool) (i : InodeId) : (m.retain keep).locks i = (m.locks i).filter keep := by
  unfold FileLockManager.retain FileLockManager.locks
  rw [Table.get_filterMapVals]
  rcases m.get i with _ | locks
  · rfl
  simp only [Option.bind_some, Option.getD_some]
  split
  · rename_i hempty; exact (List.isEmpty_iff.1 hempty).symm
  · rfl

/-- **A lock is refused for the bytes of other sessions.** -/
theorem refuses_iff (h : Represents m t) (hstart : lock.start < u64Max) :
    ((m.locks lock.inodeId).any fun held => held.sessionId ≠ sessionId && locksConflict lock held.lock) = true ↔
    t.Refuses sessionId lock := by
  simp only [List.any_eq_true, Bool.and_eq_true, decide_eq_true_eq, locksConflict, Bool.not_eq_true',
    Bool.and_eq_false_iff, decide_eq_false_iff_not, LockTable.Refuses, h.mode]
  constructor
  · rintro ⟨held, hheld, hother, ⟨hleft, hright⟩, hmode⟩
    refine ⟨max lock.start held.lock.start, _, _, ?_, ⟨held, hheld, rfl, ?_, rfl⟩, hother, by tauto⟩
    · unfold FileLock.Covers lockRangeEnd at *; split_ifs at * <;> omega
    · unfold FileLock.Covers lockRangeEnd at *; split_ifs at * <;> omega
  · rintro ⟨p, o, mode, hcovers, ⟨held, hheld, rfl, hheldCovers, rfl⟩, hother, hmode⟩
    unfold FileLock.Covers at hcovers hheldCovers
    exact ⟨held, hheld, hother, ⟨by omega, by omega⟩, by tauto⟩

/-- The owner's bytes of the range are set or cleared. -/
theorem Represents.set (h : Represents m t) (hc : lock.start < u64Max) {m' : FileLockManager}
    (hm : ∀ i, m'.locks i = if i = lock.inodeId
      then (subtractMatchingRange (m.locks lock.inodeId) lock.start lock.length (ownedBy sessionId lock.fid)).1 ++
      (if lock.lockType = .unlock then [] else [⟨sessionId, lock⟩]) else m.locks i) :
    Represents m' fun i p o =>
      if i = lock.inodeId ∧ o = (sessionId, lock.fid) ∧ lock.Covers p
      then (if lock.lockType = .unlock then none else some lock.lockType) else t i p o := by
  refine ⟨fun i p o mode => ?_, fun i held hheld => ?_⟩
  · by_cases hi : i = lock.inodeId
    · subst hi
      simp only [hm, if_true, true_and, List.mem_append, or_and_right, exists_or, mem_subtractMatchingRange]
      by_cases ho : o = (sessionId, lock.fid) ∧ lock.Covers p
      · by_cases hun : lock.lockType = .unlock <;> simp [ho, hun, HeldLock.Grants]
      · have hother : ¬HeldLock.Grants ⟨sessionId, lock⟩ p o mode := fun hg => ho ⟨hg.1.symm, hg.2.1⟩
        by_cases hun : lock.lockType = .unlock <;> simp [ho, hun, hother, h.mode]
    · simp [hm, hi, h.mode]
  · rw [hm] at hheld
    split at hheld
    · rcases List.mem_append.1 hheld with hheld | hheld
      · exact subtractMatchingRange_start (h.start _) held hheld
      split at hheld
      · cases hheld
      · rw [List.mem_singleton.1 hheld]; exact hc
    · exact h.start i held hheld

theorem Represents.retain (h : Represents m t) {gone : Nat × Nat → Prop} [DecidablePred gone] {keep : HeldLock → Bool}
    (hkeep : ∀ held, keep held = !decide (gone (held.sessionId, held.lock.fid))) :
    Represents (m.retain keep) fun i p o => if gone o then none else t i p o := by
  refine ⟨fun i p o mode => ?_, fun i held hheld => ?_⟩
  · simp only [locks_retain, List.mem_filter, hkeep]
    by_cases ho : gone o
    · simp only [ho, if_true, reduceCtorEq, false_iff, not_exists, not_and]
      rintro held ⟨-, hstays⟩ ⟨rfl, -, -⟩
      simp [ho] at hstays
    · simp only [ho, if_false, h.mode]
      refine exists_congr fun held => ⟨fun ⟨hheld, hg⟩ => ⟨⟨hheld, ?_⟩, hg⟩, fun ⟨⟨hheld, _⟩, hg⟩ => ⟨hheld, hg⟩⟩
      simp [hg.1, ho]
  · rw [locks_retain] at hheld; exact h.start i held (List.mem_filter.1 hheld).1

/-- **The call on the ranges is the call on the table.** -/
theorem call_represents (h : Represents m t) {c : LockCall} (hc : c.InRange) : Represents (m.call c) (t.call c) := by
  cases c with
  | lock sessionId lock =>
    simp only [FileLockManager.call, FileLockManager.lock, LockTable.call]
    by_cases hun : lock.lockType = .unlock
    · rw [if_pos hun, if_neg fun hand => hand.1 hun]
      exact h.set hc fun i => by rw [locks_unlockRange, if_pos hun, List.append_nil]
    rw [if_neg hun, FileLockManager.tryAddLock]
    by_cases hno : t.Refuses sessionId lock
    · rw [if_pos ((refuses_iff h hc).2 hno), if_pos ⟨hun, hno⟩]; exact h
    · rw [if_neg (hno ∘ (refuses_iff h hc).1), if_neg fun hand => hno hand.2]
      exact h.set hc fun i => by rw [locks_put, if_neg hun]
  | releaseFid sessionId fid => exact h.retain fun held => by simp [ownedBy]
  | releaseSession sessionId => exact h.retain fun held => by simp

/-- What two sessions hold of one byte are read locks. -/
def LockTable.Compatible (t : LockTable) : Prop :=
  ∀ i p o o' mode mode', t i p o = some mode → t i p o' = some mode' → o.1 ≠ o'.1 → mode = .readLock ∧ mode' = .readLock

theorem LockTable.Compatible.call (h : t.Compatible) (c : LockCall) : (t.call c).Compatible := by
  -- a call that only clears
  have hclear : ∀ {t' : LockTable}, (∀ i p o, t' i p o = none ∨ t' i p o = t i p o) → t'.Compatible := by
    intro t' ht i p o o' mode mode' ho ho'
    rcases ht i p o with hnone | hsame <;> rcases ht i p o' with hnone' | hsame'
    all_goals simp_all only [reduceCtorEq]
    exact h i p o o' mode mode' ho ho'
  cases c with
  | lock sessionId lock =>
    simp only [LockTable.call]
    split
    · exact h
    rename_i hrefused
    by_cases hun : lock.lockType = .unlock
    · exact hclear fun i p o => by simp only [hun, if_true]; split <;> simp
    have hfree : ∀ p o mode, lock.Covers p → t lock.inodeId p o = some mode → o.1 ≠ sessionId →
      lock.lockType = .readLock ∧ mode = .readLock :=
      fun p o mode hp hmode hother => not_not.1 fun hboth => hrefused ⟨hun, p, o, mode, hp, hmode, hother, hboth⟩
    intro i p o o' mode mode' ho ho' hne
    simp only [if_neg hun] at ho ho'
    split at ho <;> split at ho'
    · simp_all
    · rename_i hown _
      obtain ⟨rfl, rfl, hp⟩ := hown
      cases ho
      exact hfree p o' mode' hp ho' (Ne.symm hne)
    · rename_i _ hown
      obtain ⟨rfl, rfl, hp⟩ := hown
      cases ho'
      exact (hfree p o mode hp ho hne).symm
    · exact h i p o o' mode mode' ho ho' hne
  | releaseFid sessionId fid => exact hclear fun i p o => by simp only [LockTable.call]; split <;> simp
  | releaseSession sessionId => exact hclear fun i p o => by simp only [LockTable.call]; split <;> simp

theorem run_represents (h : Represents m t) (hfree : t.Compatible) {calls : List LockCall}
    (hcalls : ∀ c ∈ calls, c.InRange) :
    Represents (calls.foldl FileLockManager.call m) (calls.foldl LockTable.call t) ∧
    (calls.foldl LockTable.call t).Compatible := by
  induction calls generalizing m t with
  | nil => exact ⟨h, hfree⟩
  | cons c calls ih =>
    exact ih (call_represents h (hcalls c List.mem_cons_self)) (hfree.call c)
      fun c' hc' => hcalls c' (List.mem_cons_of_mem _ hc')

theorem tryAddLock_refused (m : FileLockManager) (sessionId : Nat) (lock : FileLock) :
    (m.tryAddLock sessionId lock).1 = false ↔
    ((m.locks lock.inodeId).any fun held => held.sessionId ≠ sessionId && locksConflict lock held.lock) = true := by
  unfold FileLockManager.tryAddLock
  split <;> simp_all

/-- **Byte-range locks.** After any calls the ranges stand for the table that the same calls build, in which no two
sessions exclude each other. A lock is refused for the bytes other sessions hold, it then changes nothing, and the test
call says the same. -/
theorem byte_range_locks (calls : List LockCall) (hcalls : ∀ c ∈ calls, c.InRange) :
    let m := calls.foldl FileLockManager.call Table.empty
    let t := calls.foldl LockTable.call fun _ _ _ => none
    Represents m t ∧ t.Compatible ∧ ∀ sessionId lock,
      (lock.start < u64Max → ((m.tryAddLock sessionId lock).1 = false ↔ t.Refuses sessionId lock)) ∧
      ((m.tryAddLock sessionId lock).1 = false → (m.tryAddLock sessionId lock).2 = m) ∧
      ((m.checkWouldBlock lock.inodeId lock sessionId).isSome = true ↔ (m.tryAddLock sessionId lock).1 = false) := by
  intro m t
  have hstart : Represents Table.empty fun _ _ _ => none := by constructor <;> simp [FileLockManager.locks]
  obtain ⟨hrep, hcompat⟩ := run_represents hstart (by simp [LockTable.Compatible]) hcalls
  refine ⟨hrep, hcompat, fun sessionId lock => ⟨fun hc => ?_, fun href => ?_, ?_⟩⟩
  · rw [tryAddLock_refused, refuses_iff hrep hc]
  · rw [FileLockManager.tryAddLock, if_pos ((tryAddLock_refused ..).1 href)]
  · rw [tryAddLock_refused, FileLockManager.checkWouldBlock, Option.isSome_map, List.find?_isSome, List.any_eq_true]

/-- A session locks bytes 0 to 9 and unlocks 3 and 4: another is refused byte 2 and may lock byte 3. -/
theorem byte_range_locks_split :
    let calls : List LockCall := [.lock 1 ⟨.writeLock, 0, 10, 0, [], 7, 5⟩, .lock 1 ⟨.unlock, 3, 2, 0, [], 7, 5⟩]
    let t := calls.foldl LockTable.call fun _ _ _ => none
    t.Refuses 2 ⟨.readLock, 2, 1, 0, [], 8, 5⟩ ∧ ¬t.Refuses 2 ⟨.readLock, 3, 1, 0, [], 8, 5⟩ := by
  intro calls t
  obtain ⟨-, -, htry⟩ := byte_range_locks calls (by simp [calls, LockCall.InRange, u64Max])
  exact ⟨((htry 2 _).1 (by decide)).1 (by decide), mt ((htry 2 _).1 (by decide)).2 (by decide)⟩

end ZeroFS.Locks
