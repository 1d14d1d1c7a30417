import ZeroFS.Lib.Machine
import ZeroFS.Lib.Table
import ZeroFS.Inode

/-!
# The idempotency ledger

`dedup.rs` keeps one state for each operation id: an apply slot with its owners, or the completed result. Every
operation is one step under the ledger's lock; the clock is read there, or before it where the source does so (`read`).
The numbers `serial` and claim and the lists `settled` and `retractions` are ghosts.
-/

namespace ZeroFS.Dedup

/-- All zero means that no id was supplied. -/
abbrev OpId := BitVec 128

def hasOpId (op : OpId) : Bool := op != 0

/-- A result with attributes in `A`. -/
inductive DedupResult (A : Type)
  | applied
  | create (inode : InodeId) (attrs : A)
  | mkdir (inode : InodeId) (attrs : A)
  | mknod (inode : InodeId) (attrs : A)
  | symlink (inode : InodeId) (attrs : A)
  | link (inode : InodeId) (attrs : A)
  | setattr (attrs : A)
  | write (attrs : A)
  | fallocate (attrs : A)
  | error (errno : Nat)
  | remove
  | rename
  deriving DecidableEq

/-- The inode that is protected while the result can be replayed. -/
def DedupResult.replayInode {A : Type} : DedupResult A → Option InodeId
  | create inode _ => some inode
  | _ => none

structure WriteRequestReplay where
  fingerprint : BitVec 256
  count : Nat
  deriving DecidableEq

inductive WriteReplay
  | matched (count : Nat)
  | fingerprintMismatch
  | legacy
  deriving DecidableEq

structure TimedResult (A : Type) where
  value : DedupResult A
  expiresAt : Nat
  replayPins : Nat
  writeRequest : Option WriteRequestReplay
  materializationPending : Bool
  retracted : Bool
  serial : Nat

/-- An operation that is being applied, or its result. -/
inductive OpState (A : Type)
  | applying (claim owners : Nat)
  | complete (r : TimedResult A)

/-- Until when an inode is protected, and by how many results. -/
structure InodeProtection where
  until_ : Nat
  refs : Nat

structure PromotionRetryGrace where
  allowedOriginEpoch : Nat
  deadline : Nat

structure ScheduledExpiry where
  op : OpId
  expiresAt : Nat
  deriving DecidableEq

/-- The ledger behind its lock, the expiry events it has scheduled and the orphans it has handed to the drainer. -/
structure Ledger (A : Type) where
  entries : Table OpId (OpState A) := Table.empty
  inflightIds : Nat := 0
  replayPinnedResults : Nat := 0
  protectedInodes : Table InodeId InodeProtection := Table.empty
  reclaimOnUnprotect : List InodeId := []
  promotionRetryGrace : Option PromotionRetryGrace := none
  scheduled : List ScheduledExpiry := []
  reclaims : List InodeId := []

inductive Admission
  | admitted (claim : Option Nat)
  | inFlight
  | unseenRetry
  deriving DecidableEq

namespace Ledger

variable {A : Type} (l : Ledger A)

/-- The apply slot of `op` has this claim and number of owners. -/
abbrev Slot (op : OpId) (claim owners : Nat) : Prop := l.entries.get op = some (.applying claim owners)

/-- The completed result of `op` is `r`. -/
abbrev Result (op : OpId) (r : TimedResult A) : Prop := l.entries.get op = some (.complete r)

def releaseApplyingOwner (op : OpId) (claim : Nat) : Ledger A :=
  match l.entries.get op with
  | some (.applying c owners) =>
    if c = claim then
      if owners - 1 = 0 then { l with entries := l.entries.del op, inflightIds := l.inflightIds - 1 }
      else { l with entries := l.entries.put op (.applying c (owners - 1)) }
    else l
  | _ => l

def protectResultInode (result : DedupResult A) (expiresAt : Nat) : Ledger A :=
  match result.replayInode with
  | none => l
  | some id =>
    let p := (l.protectedInodes.get id).getD ⟨expiresAt, 0⟩
    { l with protectedInodes := l.protectedInodes.put id ⟨max p.until_ expiresAt, p.refs + 1⟩ }

/-- Give back one protection of an inode. An orphan that lost its last one is handed to the drainer. -/
def unprotect (result : DedupResult A) : Ledger A :=
  match result.replayInode with
  | none => l
  | some id =>
    match l.protectedInodes.get id with
    | none => l
    | some p =>
      if p.refs - 1 = 0 then
        { l with
          protectedInodes := l.protectedInodes.del id
          reclaimOnUnprotect := l.reclaimOnUnprotect.filter (· ≠ id)
          reclaims := if id ∈ l.reclaimOnUnprotect then l.reclaims ++ [id] else l.reclaims }
      else { l with protectedInodes := l.protectedInodes.put id ⟨p.until_, p.refs - 1⟩ }

def removeResult (op : OpId) (r : TimedResult A) : Ledger A := { l with entries := l.entries.del op }.unprotect r.value

def removeTargetIfExpiredAndUnpinned (op : OpId) (now : Nat) : Ledger A :=
  match l.entries.get op with
  | some (.complete r) =>
    if r.expiresAt ≤ now ∧ r.replayPins = 0 ∧ r.materializationPending = false then l.removeResult op r else l
  | _ => l

def reapExpired (e : ScheduledExpiry) : Ledger A :=
  match l.entries.get e.op with
  | some (.complete r) =>
    if r.expiresAt = e.expiresAt ∧ r.replayPins = 0 ∧ r.materializationPending = false then l.removeResult e.op r else l
  | _ => l

def reapExpiredBatch (batch : List ScheduledExpiry) : Ledger A := batch.foldl reapExpired l

/-- An unseen retry of `originEpoch` is admitted after a promotion. -/
def graceAdmits (originEpoch now : Nat) : Bool :=
  l.promotionRetryGrace.any fun g => originEpoch ≠ 0 ∧ originEpoch = g.allowedOriginEpoch ∧ now < g.deadline

def pin (op : OpId) (r : TimedResult A) : Ledger A :=
  { l with
    entries := l.entries.put op (.complete { r with replayPins := r.replayPins + 1 })
    replayPinnedResults := if r.replayPins = 0 then l.replayPinnedResults + 1 else l.replayPinnedResults }

/-- `claim` is the identity of the slot that a fresh attempt gets. -/
def admitNonzero (op : OpId) (retryOrigin : Option Nat) (now claim : Nat) : Admission × Ledger A :=
  let l := l.removeTargetIfExpiredAndUnpinned op now
  match l.entries.get op with
  | some (.complete r) =>
    if r.retracted then (.unseenRetry, l)
    else if r.expiresAt ≤ now then (.unseenRetry, l)
    else (.admitted none, l.pin op r)
  | some (.applying _ _) => (.inFlight, l)
  | none =>
    if retryOrigin.all fun epoch => l.graceAdmits epoch now then
      (.admitted (some claim),
        { l with entries := l.entries.put op (.applying claim 1), inflightIds := l.inflightIds + 1 })
    else (.unseenRetry, l)

/-- The stored result that `get` answers with. -/
def get (op : OpId) (now : Nat) : Option (TimedResult A) × Ledger A :=
  if hasOpId op then
    let l := l.removeTargetIfExpiredAndUnpinned op now
    match l.entries.get op with
    | some (.complete r) => (some r, l)
    | _ => (none, l)
  else (none, l)

/-- The verdict on a write request, and the stored result that it judges. -/
def replayWriteEntry (op : OpId) (fingerprint : BitVec 256) (now : Nat) :
    Option (WriteReplay × TimedResult A) × Ledger A :=
  if hasOpId op then
    let l := l.removeTargetIfExpiredAndUnpinned op now
    match l.entries.get op with
    | some (.complete r) =>
      if r.retracted then (none, l)
      else
        match r.value with
        | .write _ =>
          let replay := match r.writeRequest with
            | some request => if request.fingerprint = fingerprint then .matched request.count else .fingerprintMismatch
            | none => .legacy
          (some (replay, r), l)
        | _ => (none, l)
    | _ => (none, l)
  else (none, l)

def stageWriteRequest (op : OpId) : Option Nat × Ledger A :=
  match l.entries.get op with
  | some (.applying claim owners) => (some claim, { l with entries := l.entries.put op (.applying claim (owners + 1)) })
  | _ => (none, l)

/-- Publish a result; the first one wins. `serial` is the number of the publication. -/
def recordEntryWithWriteRequest (op : OpId) (result : DedupResult A) (writeRequest : Option WriteRequestReplay)
    (materializationPending : Bool) (now retention serial : Nat) : Ledger A :=
  if hasOpId op then
    let l := l.removeTargetIfExpiredAndUnpinned op now
    match l.entries.get op with
    | some (.complete r) =>
      { l with entries := l.entries.put op (.complete { r with writeRequest := r.writeRequest.or writeRequest }) }
    | previous =>
      let expiresAt := now + retention
      let l := l.protectResultInode result expiresAt
      { l with
        entries :=
          l.entries.put op (.complete ⟨result, expiresAt, 0, writeRequest, materializationPending, false, serial⟩)
        scheduled := l.scheduled ++ [⟨op, expiresAt⟩]
        inflightIds := if previous.isSome then l.inflightIds - 1 else l.inflightIds }
  else l

def finishAcceptedWrite (op : OpId) (materialized : Bool) (now : Nat) : Ledger A :=
  match l.entries.get op with
  | some (.complete r) =>
    if hasOpId op && r.materializationPending then
      if materialized then
        let r := { r with materializationPending := false }
        if r.expiresAt ≤ now ∧ r.replayPins = 0 then l.removeResult op r
        else { l with entries := l.entries.put op (.complete r) }
      else
        let r := { r with materializationPending := false, retracted := true, expiresAt := now }
        if r.replayPins = 0 then l.removeResult op r else { l with entries := l.entries.put op (.complete r) }
    else l
  | _ => l

def unpin (op : OpId) (now : Nat) : Ledger A :=
  match l.entries.get op with
  | some (.complete r) =>
    if r.replayPins ≠ 0 then
      let r := { r with replayPins := r.replayPins - 1 }
      let l := { l with
        entries := l.entries.put op (.complete r)
        replayPinnedResults := if r.replayPins = 0 then l.replayPinnedResults - 1 else l.replayPinnedResults }
      if r.replayPins = 0 ∧ r.expiresAt ≤ now then l.removeResult op r else l
    else l
  | _ => l

def armPromotionRetryGraceUntil (allowedOriginEpoch deadline now retention : Nat) : Ledger A :=
  if allowedOriginEpoch = 0 ∨ deadline ≤ now then { l with promotionRetryGrace := none }
  else { l with promotionRetryGrace := some ⟨allowedOriginEpoch, min deadline (now + retention)⟩ }

def protectsReplayInode (id : InodeId) : Bool := (l.protectedInodes.get id).isSome

def reclaimWhenUnprotected (id : InodeId) : Bool × Ledger A :=
  if l.protectsReplayInode id then (true, { l with reclaimOnUnprotect := l.reclaimOnUnprotect.insert id })
    else (false, l)

end Ledger

/-! ## The ledger and its users -/

/-- An apply reservation, or with no claim a pin of a completed result. -/
structure Guard where
  op : OpId
  claim : Option Nat
  deriving DecidableEq

structure PendingWriteRequest where
  op : OpId
  request : WriteRequestReplay
  claim : Option Nat
  deriving DecidableEq

/-- The ledger and the guards and requests of its callers. -/
structure Sys (A : Type) where
  ledger : Ledger A := {}
  now : Nat := 0
  guards : Table Nat Guard := Table.empty
  pendings : Table Nat PendingWriteRequest := Table.empty
  acceptedWrites : Table Nat OpId := Table.empty
  nextClaim : Nat := 0
  nextSerial : Nat := 0
  settled : List Nat := []
  retractions : List Nat := []

/-- `attempt` is one pass of the loop of `begin_attempt_from_origin`; an attempt that finds the slot taken waits and
makes another one. Dropping an accepted write is finishing it unmaterialised. -/
inductive Action (A : Type)
  | attempt (g : Nat) (op : OpId) (isRetry : Bool) (originEpoch : Nat)
  | reserveInitial (g : Nat) (op : OpId)
  | stageWriteRequest (p : Nat) (op : OpId) (request : WriteRequestReplay)
  | recordEntry (op : OpId) (result : DedupResult A) (writeRequest : Option WriteRequestReplay)
  | recordEntryWithPendingWrite (p : Nat) (result : DedupResult A)
  | beginAcceptedWrite (w : Nat) (op : OpId) (result : DedupResult A) (request : WriteRequestReplay)
  | finishAcceptedWrite (w : Nat) (materialized : Bool) (read : Nat)
  | dropGuard (g : Nat) (read : Nat)
  | dropPending (p : Nat)
  | reap (batch : List ScheduledExpiry)
  | get (op : OpId)
  | replayWriteEntry (op : OpId) (fingerprint : BitVec 256)
  | armPromotionRetryGraceUntil (allowedOriginEpoch deadline read : Nat)
  | clearPromotionRetryGrace
  | reclaimWhenUnprotected (id : InodeId)
  | tick (nanos : Nat)

namespace Sys

variable {A : Type} (s : Sys A)

def admitCaller (g : Nat) (op : OpId) (retryOrigin : Option Nat) : Option (Sys A) :=
  if (s.guards.get g).isSome then none
  else if hasOpId op then
    match s.ledger.admitNonzero op retryOrigin s.now s.nextClaim with
    | (.admitted claim, l) =>
      some { s with ledger := l, guards := s.guards.put g ⟨op, claim⟩, nextClaim := s.nextClaim + 1 }
    | (_, l) => some { s with ledger := l }
  else some s

/-- The claim that a publication for `op` settles. -/
def settles (op : OpId) : List Nat :=
  match s.ledger.entries.get op with
  | some (.applying claim _) => if hasOpId op then [claim] else []
  | _ => []

def record (retention : Nat) (op : OpId) (result : DedupResult A) (writeRequest : Option WriteRequestReplay)
    (materializationPending : Bool) : Sys A :=
  { s with
    ledger :=
      s.ledger.recordEntryWithWriteRequest op result writeRequest materializationPending s.now retention s.nextSerial
    nextSerial := s.nextSerial + 1
    settled := s.settled ++ s.settles op }

/-- The result that finishing `op` unmaterialised retracts. -/
def retracts (op : OpId) (materialized : Bool) : List Nat :=
  match s.ledger.entries.get op with
  | some (.complete r) => if hasOpId op && r.materializationPending && !materialized then [r.serial] else []
  | _ => []

def finish (op : OpId) (materialized : Bool) (read : Nat) : Sys A :=
  { s with
    ledger := s.ledger.finishAcceptedWrite op materialized read
    retractions := s.retractions ++ s.retracts op materialized }

def dropPending (p : Nat) (w : PendingWriteRequest) : Sys A :=
  { s with
    pendings := s.pendings.del p
    ledger := match w.claim with
      | some claim => s.ledger.releaseApplyingOwner w.op claim
      | none => s.ledger }

def dropGuard (g : Nat) (w : Guard) (read : Nat) : Sys A :=
  { s with
    guards := s.guards.del g
    ledger := match w.claim with
      | some claim => s.ledger.releaseApplyingOwner w.op claim
      | none => s.ledger.unpin w.op read }

/-- `retention` is how long a result is kept. The reaper's queue yields an event when its deadline has passed. -/
def step (retention : Nat) : Action A → Option (Sys A)
  | .attempt g op isRetry originEpoch => s.admitCaller g op (if isRetry then some originEpoch else none)
  | .reserveInitial g op => s.admitCaller g op none
  | .stageWriteRequest p op request =>
    if (s.pendings.get p).isSome then none
    else
      let (claim, l) := s.ledger.stageWriteRequest op
      some { s with ledger := l, pendings := s.pendings.put p ⟨op, request, claim⟩ }
  | .recordEntry op result writeRequest => some (s.record retention op result writeRequest false)
  | .recordEntryWithPendingWrite p result =>
    (s.pendings.get p).map fun w => (s.record retention w.op result (some w.request) false).dropPending p w
  | .beginAcceptedWrite w op result request =>
    if (s.acceptedWrites.get w).isSome then none
    else some { s.record retention op result (some request) true with acceptedWrites := s.acceptedWrites.put w op }
  | .finishAcceptedWrite w materialized read =>
    if read ≤ s.now then
      (s.acceptedWrites.get w).map fun op =>
        { s.finish op materialized read with acceptedWrites := s.acceptedWrites.del w }
    else none
  | .dropGuard g read => if read ≤ s.now then (s.guards.get g).map fun w => s.dropGuard g w read else none
  | .dropPending p => (s.pendings.get p).map fun w => s.dropPending p w
  | .reap batch =>
    if ∀ e ∈ batch, e ∈ s.ledger.scheduled ∧ e.expiresAt ≤ s.now then
      some { s with ledger := s.ledger.reapExpiredBatch batch }
    else none
  | .get op => some { s with ledger := (s.ledger.get op s.now).2 }
  | .replayWriteEntry op fingerprint => some { s with ledger := (s.ledger.replayWriteEntry op fingerprint s.now).2 }
  | .armPromotionRetryGraceUntil epoch deadline read =>
    if read ≤ s.now then some { s with ledger := s.ledger.armPromotionRetryGraceUntil epoch deadline read retention }
      else none
  | .clearPromotionRetryGrace => some { s with ledger := { s.ledger with promotionRetryGrace := none } }
  | .reclaimWhenUnprotected id => some { s with ledger := (s.ledger.reclaimWhenUnprotected id).2 }
  | .tick nanos => some { s with now := s.now + nanos }

end Sys

end ZeroFS.Dedup
