import ZeroFS.Lib.Machine
import ZeroFS.Lib.Register
import ZeroFS.Lib.Table
import ZeroFS.Types

/-!
# The ownership record

`.zerofs_ha_ownership` is one object that nodes replace by conditional writes (`replication/leader_record.rs`):
`Active/absent -> Claiming -> Opening -> Active`. A write is sent, the store performs it later, perhaps more than once
or never, and the sender sees its result or an error; after an error it reads the record again and takes its own desired
value for success. Each attempt to claim is a client; every step may be taken at any time.
-/

namespace ZeroFS.Ownership

open Register

/-! ## Records -/

/-- Unicode `White_Space`, as `str::trim` has it. -/
def isWhiteSpace (c : Char) : Bool :=
  (9 ≤ c.toNat && c.toNat ≤ 13) || (0x2000 ≤ c.toNat && c.toNat ≤ 0x200A) ||
    [0x20, 0x85, 0xA0, 0x1680, 0x2028, 0x2029, 0x202F, 0x205F, 0x3000].contains c.toNat

def blank (nodeId : String) : Bool := nodeId.toList.all isWhiteSpace

/-- Incarnation zero is the nil UUID. -/
structure Owner where
  nodeId : String
  incarnation : Nat
  deriving DecidableEq

def Owner.validate (o : Owner) : Bool := !blank o.nodeId && o.incarnation != 0

structure HistoricalOwner where
  nodeId : String
  incarnation : Option Nat
  deriving DecidableEq

def HistoricalOwner.validate (o : HistoricalOwner) : Bool := !blank o.nodeId && o.incarnation.all (· != 0)

structure LeaderMarker where
  epoch : Nat
  nodeId : String

structure LastActive where
  generation : Nat
  owner : HistoricalOwner
  writerEpoch : Nat
  deriving DecidableEq

namespace LastActive

def fromLeaderMarker (m : LeaderMarker) : LastActive := ⟨m.epoch, ⟨m.nodeId, none⟩, m.epoch⟩

def fromActive (generation : Nat) (owner : Owner) (writerEpoch : Nat) : LastActive :=
  ⟨generation, ⟨owner.nodeId, some owner.incarnation⟩, writerEpoch⟩

def validate (l : LastActive) (currentGeneration writerEpochFloor : Nat) : Bool :=
  l.owner.validate && l.generation < currentGeneration && l.writerEpoch ≤ writerEpochFloor

end LastActive

structure Handoff where
  owner : Owner
  writerEpochFloor : Nat
  revision : Nat
  lastActive : Option LastActive
  deriving DecidableEq

namespace Handoff

def validate (h : Handoff) (generation : Nat) : Bool :=
  h.owner.validate && 0 < h.revision && h.lastActive.all fun l => l.validate generation h.writerEpochFloor

def isSameAttemptAs (h current : Handoff) : Bool :=
  h.owner = current.owner && h.writerEpochFloor = current.writerEpochFloor && h.lastActive = current.lastActive &&
    h.revision ≤ current.revision

end Handoff

inductive RecordState
  | claiming (h : Handoff)
  | opening (h : Handoff)
  | active (owner : Owner) (writerEpoch : Nat)
  deriving DecidableEq

structure OwnershipRecord where
  generation : Nat
  state : RecordState
  deriving DecidableEq

def checkedSucc (n : Nat) : Option Nat := if n < u64Max then some (n + 1) else none

namespace OwnershipRecord

variable (r : OwnershipRecord)

def validate : Bool :=
  0 < r.generation &&
    match r.state with
    | .claiming h | .opening h => h.validate r.generation
    | .active owner writerEpoch => owner.validate && 0 < writerEpoch

def owner : Owner :=
  match r.state with
  | .claiming h | .opening h => h.owner
  | .active owner _ => owner

def renewedHandoff : Option OwnershipRecord :=
  match r.state with
  | .claiming h => (checkedSucc h.revision).map fun n => ⟨r.generation, .claiming { h with revision := n }⟩
  | .opening h => (checkedSucc h.revision).map fun n => ⟨r.generation, .opening { h with revision := n }⟩
  | .active _ _ => none

def inHandoff : Bool :=
  match r.state with
  | .active _ _ => false
  | _ => true

/-- Generation, writer epoch floor and last active writer for a claim on top of the record. -/
def claimBase : Nat × Nat × Option LastActive :=
  match r.state with
  | .active owner writerEpoch => (r.generation, writerEpoch, some (.fromActive r.generation owner writerEpoch))
  | .claiming h | .opening h => (r.generation, h.writerEpochFloor, h.lastActive)

/-- `reconcile_own_handoff_revision`: the record is a later revision of the same attempt in the same phase. -/
def sameAttempt (current : OwnershipRecord) : Bool :=
  current.generation = r.generation &&
    match r.state, current.state with
    | .claiming expected, .claiming current => expected.isSameAttemptAs current
    | .opening expected, .opening current => expected.isSameAttemptAs current
    | _, _ => false

end OwnershipRecord

abbrev RecordSnapshot := OwnershipRecord × Nat

/-! ## Clients -/

inductive Kind
  | renew
  | beginOpen
  | activate (writerEpoch : Nat)
  deriving DecidableEq

/-- Who holds the lease's lock, and how far its write is. -/
inductive Task
  | free
  | sent (kind : Kind) (put : Nat) (desired : OwnershipRecord)
  /-- The write answered with an error, which may say for certain that the condition failed. -/
  | failed (kind : Kind) (desired : OwnershipRecord) (definite : Bool)
  /-- `begin_open` and `activate` keep the lock and try again. -/
  | retry (kind : Kind)

structure HandoffState where
  record : OwnershipRecord
  version : Nat
  ownershipLost : Bool := false
  renewalFailure : Bool := false

/-- A claim token, or once `opening` an opening token. -/
structure HandoffLease where
  state : HandoffState
  generation : Nat
  opening : Bool := false
  renewing : Bool := true
  task : Task := .free

/-- What a node does about the record. -/
inductive Client
  /-- A handoff is in progress: wait and look again. -/
  | observing (nodeId : String) (observed : RecordSnapshot)
  | ready (nodeId : String) (current : Option RecordSnapshot)
  | claiming (put : Nat) (desired : OwnershipRecord)
  | claimFailed (desired : OwnershipRecord)
  | lease (l : HandoffLease)
  | active (record : OwnershipRecord)
  | gone

structure Put where
  desired : OwnershipRecord
  mode : PutMode
  /-- The version that it made, once it has taken effect. -/
  result : Option Nat

/-- The register with its history, and the nodes. -/
structure Sys where
  log : List OwnershipRecord
  marker : Option LeaderMarker
  puts : List Put
  clients : Table Nat Client
  nextIncarnation : Nat

inductive Action
  | claim (c : Nat) (nodeId : String) (force recoveryOnly : Bool)
  | recheck (c : Nat)
  | sendClaim (c : Nat)
  /-- The store performs a write that was sent at some time before. -/
  | execute (p : Nat)
  | ok (c : Nat)
  | err (c : Nat) (definite : Bool)
  /-- The read after an error; it may fail itself. -/
  | reread (c : Nat) (readable : Bool)
  | renew (c : Nat)
  | beginOpen (c : Nat)
  | activate (c : Nat) (writerEpoch : Nat)
  | validateOpening (c : Nat)
  | drop (c : Nat)

namespace Sys

variable (s : Sys)

def setClient (c : Nat) (x : Client) : Sys := { s with clients := s.clients.put c x }

/-- `none` is a record that does not parse. -/
def readSnapshot : Option (Option RecordSnapshot) :=
  match current s.log with
  | none => some none
  | some snapshot => if snapshot.1.validate then some (some snapshot) else none

def validateActive (ownership : OwnershipRecord) : Bool :=
  match s.readSnapshot with
  | some (some snapshot) => snapshot.1 = ownership
  | _ => false

def claim (c : Nat) (nodeId : String) (force recoveryOnly : Bool) : Option Sys :=
  if (s.clients.get c).isSome then none
  else
    s.readSnapshot.map fun current =>
      let handoff := current.any fun snapshot => snapshot.1.inHandoff
      if recoveryOnly && !handoff then s.setClient c .gone
      else
        match current with
        | some observed =>
          if !force && handoff then s.setClient c (.observing nodeId observed)
            else s.setClient c (.ready nodeId current)
        | none => s.setClient c (.ready nodeId none)

def recheck (c : Nat) : Option Sys :=
  match s.clients.get c with
  | some (.observing nodeId observed) =>
    match s.readSnapshot with
    | some (some snapshot) =>
      if snapshot = observed then some (s.setClient c (.ready nodeId (some observed))) else some (s.setClient c .gone)
    | _ => some (s.setClient c .gone)
  | _ => none

/-- The base of a claim without a record. -/
def bootstrapBase : Nat × Nat × Option LastActive :=
  match s.marker with
  | some m => (m.epoch, m.epoch, some (.fromLeaderMarker m))
  | none => (0, 0, none)

def baseOf (current : Option RecordSnapshot) : Nat × Nat × Option LastActive :=
  match current with
  | some snapshot => snapshot.1.claimBase
  | none => s.bootstrapBase

/-- The claim's record, unless the generations are exhausted or the record would not be valid. -/
def claimRecord (nodeId : String) (current : Option RecordSnapshot) : Option OwnershipRecord :=
  (checkedSucc (s.baseOf current).1).bind fun generation =>
    let desired : OwnershipRecord :=
      ⟨generation, .claiming ⟨⟨nodeId, s.nextIncarnation⟩, (s.baseOf current).2.1, 1, (s.baseOf current).2.2⟩⟩
    if desired.validate then some desired else none

/-- A claim replaces the record that it has read, or creates the first one. -/
def claimMode : Option RecordSnapshot → PutMode
  | some snapshot => .update snapshot.2
  | none => .create

def send (desired : OwnershipRecord) (mode : PutMode) : Sys := { s with puts := s.puts ++ [⟨desired, mode, none⟩] }

def sendClaim (c : Nat) : Option Sys :=
  match s.clients.get c with
  | some (.ready nodeId current) =>
    match s.claimRecord nodeId current with
    | none => some (s.setClient c .gone)
    | some desired =>
      some { (s.send desired (claimMode current)).setClient c (.claiming s.puts.length desired) with
        nextIncarnation := s.nextIncarnation + 1 }
  | _ => none

def execute (p : Nat) : Option Sys :=
  (s.puts[p]?).map fun put =>
    if accepts s.log put.mode then
      { s with log := s.log ++ [put.desired], puts := s.puts.set p { put with result := some s.log.length } }
    else s

/-- The write is known to have taken effect as `version`. -/
def applied (c : Nat) (l : HandoffLease) (kind : Kind) (desired : OwnershipRecord) (version : Nat) : Sys :=
  let state := { l.state with record := desired, version := version }
  match kind with
  | .renew => s.setClient c (.lease { l with state := state, task := .free })
  | .beginOpen => s.setClient c (.lease { l with state := state, opening := true, task := .free })
  | .activate _ => s.setClient c (.active desired)

def again (c : Nat) (l : HandoffLease) (kind : Kind) : Sys :=
  match kind with
  | .renew => s.setClient c (.lease { l with task := .free })
  | _ => s.setClient c (.lease { l with task := .retry kind })

/-- The condition of the write failed; `actual` is what is there instead. -/
def changed (c : Nat) (l : HandoffLease) (kind : Kind) (actual : Option RecordSnapshot) : Sys :=
  match actual.filter fun snapshot => l.state.record.sameAttempt snapshot.1 with
  | some snapshot => s.again c { l with state := { l.state with record := snapshot.1, version := snapshot.2 } } kind
  | none =>
    match kind with
    | .renew =>
      s.setClient c
        (.lease { l with state := { l.state with ownershipLost := true }, renewing := false, task := .free })
    | _ => s.setClient c .gone

/-- A claim that is in place starts its lease. -/
def startLease (c : Nat) (desired : OwnershipRecord) (version : Nat) : Sys :=
  s.setClient c (.lease { state := { record := desired, version := version }, generation := desired.generation })

def ok (c : Nat) : Option Sys :=
  match s.clients.get c with
  | some (.claiming p desired) => do
    let put ← s.puts[p]?
    let version ← put.result
    return s.startLease c desired version
  | some (.lease l) =>
    match l.task with
    | .sent kind p desired => do
      let put ← s.puts[p]?
      let version ← put.result
      return s.applied c l kind desired version
    | _ => none
  | _ => none

/-- An error arrives, or the response is lost. -/
def err (c : Nat) (definite : Bool) : Option Sys :=
  match s.clients.get c with
  | some (.claiming _ desired) => some (s.setClient c (.claimFailed desired))
  | some (.lease l) =>
    match l.task with
    | .sent kind _ desired => some (s.setClient c (.lease { l with task := .failed kind desired definite }))
    | _ => none
  | _ => none

def reread (c : Nat) (readable : Bool) : Option Sys :=
  match s.clients.get c with
  | some (.claimFailed desired) =>
    match s.readSnapshot with
    | some (some snapshot) =>
      if readable && snapshot.1 = desired then some (s.startLease c desired snapshot.2) else some (s.setClient c .gone)
    | _ => some (s.setClient c .gone)
  | some (.lease l) =>
    match l.task with
    | .failed kind desired definite =>
      match s.readSnapshot with
      | none => some (s.again c l kind)
      | some actual =>
        if readable then
          match actual.filter fun snapshot => snapshot.1 = desired with
          | some snapshot => some (s.applied c l kind desired snapshot.2)
          | none => if definite then some (s.changed c l kind actual) else some (s.again c l kind)
        else some (s.again c l kind)
    | _ => none
  | _ => none

/-- Send the lease's next write, or try again later when the record would not be valid. -/
def transition (c : Nat) (l : HandoffLease) (kind : Kind) (desired : OwnershipRecord) : Sys :=
  if desired.validate then
    (s.send desired (.update l.state.version)).setClient c (.lease { l with task := .sent kind s.puts.length desired })
  else s.again c l kind

def renew (c : Nat) : Option Sys :=
  match s.clients.get c with
  | some (.lease l) =>
    match l.task with
    | .free =>
      if !l.renewing then none
      else if l.state.ownershipLost || l.state.renewalFailure
        then some (s.setClient c (.lease { l with renewing := false }))
      else
        match l.state.record.renewedHandoff with
        | none =>
          some (s.setClient c (.lease { l with state := { l.state with renewalFailure := true }, renewing := false }))
        | some desired => some (s.transition c l .renew desired)
    | _ => none
  | _ => none

def beginOpen (c : Nat) : Option Sys :=
  match s.clients.get c with
  | some (.lease l) =>
    if l.opening then none
    else
      let round : Sys :=
        if l.state.ownershipLost || l.state.renewalFailure then s.setClient c .gone
        else
          match l.state.record.renewedHandoff with
          | some ⟨_, .claiming h⟩ => s.transition c l .beginOpen ⟨l.generation, .opening h⟩
          | _ => s.setClient c .gone
      match l.task with
      | .free => some round
      | .retry .beginOpen => some round
      | _ => none
  | _ => none

def activate (c : Nat) (writerEpoch : Nat) : Option Sys :=
  match s.clients.get c with
  | some (.lease l) =>
    if !l.opening then none
    else
      let round : Sys :=
        if l.state.ownershipLost || l.state.renewalFailure then s.setClient c .gone
        else
          match l.state.record.state with
          | .opening h =>
            if h.writerEpochFloor < writerEpoch then
              s.transition c { l with renewing := false } (.activate writerEpoch)
                ⟨l.generation, .active h.owner writerEpoch⟩
            else s.setClient c .gone
          | _ => s.setClient c .gone
      match l.task with
      | .free => some round
      | .retry (.activate epoch) => if epoch = writerEpoch then some round else none
      | _ => none
  | _ => none

def validateOpening (c : Nat) : Option Sys :=
  match s.clients.get c with
  | some (.lease l) =>
    match l.task with
    | .free =>
      if !l.opening then none
      else if l.state.ownershipLost || l.state.renewalFailure then some s
      else
        match s.readSnapshot with
        | none => some s
        | some actual =>
          match actual.filter fun snapshot => l.state.record.sameAttempt snapshot.1 with
          | some snapshot =>
            some (s.setClient c
              (.lease { l with state := { l.state with record := snapshot.1, version := snapshot.2 } }))
          | none => some (s.setClient c (.lease { l with state := { l.state with ownershipLost := true } }))
    | _ => none
  | _ => none

def drop (c : Nat) : Option Sys := (s.clients.get c).map fun _ => s.setClient c .gone

def step (s : Sys) : Action → Option Sys
  | .claim c nodeId force recoveryOnly => s.claim c nodeId force recoveryOnly
  | .recheck c => s.recheck c
  | .sendClaim c => s.sendClaim c
  | .execute p => s.execute p
  | .ok c => s.ok c
  | .err c definite => s.err c definite
  | .reread c readable => s.reread c readable
  | .renew c => s.renew c
  | .beginOpen c => s.beginOpen c
  | .activate c writerEpoch => s.activate c writerEpoch
  | .validateOpening c => s.validateOpening c
  | .drop c => s.drop c

/-- No client yet; the record may be there from before. -/
def boot (record : Option OwnershipRecord) (marker : Option LeaderMarker) : Sys where
  log := record.toList
  marker := marker
  puts := []
  clients := Table.empty
  nextIncarnation := (record.elim 0 fun r => r.owner.incarnation) + 1

end Sys

end ZeroFS.Ownership
