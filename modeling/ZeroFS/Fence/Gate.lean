import Mathlib.Data.List.Dedup
import ZeroFS.Inode
import ZeroFS.Lib.Frontier
import ZeroFS.Volatile.File

/-!
# The preparation gate and metadata fences

A volatile write registers at the gate, stages one entry in the lane of each of its inodes, publishes its preparation
for a sequence and is acknowledged; the lanes apply it and retire its entries. A metadata fence closes the keys of its
scope, waits for overlapping registrations, for the mutations published so far and for the lanes of its inodes, and
reopens its keys when it is dropped. Staging is one step, under the enqueue lock; a registered write may be aborted at
any time. The bytes of a write, its replays and its reads are those of `ZeroFS.Volatile.File`, which has one inode and
no fences: a `Lane` here is the runtime of a `FileState` there, without its data (`Lane.StandsFor`).
-/

namespace ZeroFS.Fence

open List

/-! ## Errors -/

inductive MutationError
  | tooLarge
  | backpressure
  | staleIncarnation
  | closed
  | poisoned
  deriving DecidableEq

def mutationFsError : MutationError → FsError
  | .tooLarge => .noSpace
  | .backpressure => .retryLater
  | .staleIncarnation => .staleHandle
  | .closed | .poisoned => .ioError

inductive WriteAdmissionError
  | unavailable
  | backpressured
  | fingerprintMismatch
  | mutation (error : MutationError)

def writeAdmissionFsError : WriteAdmissionError → FsError
  | .unavailable => .ioError
  | .backpressured => .retryLater
  | .fingerprintMismatch => .invalidArgument
  | .mutation error => mutationFsError error

/-! ## The gate -/

/-- Membership of a directory and the attributes of its inode do not conflict. -/
inductive ConflictKey
  | inode (id : InodeId)
  | directory (id : InodeId)
  deriving DecidableEq

def ConflictKey.id : ConflictKey → InodeId
  | .inode id | .directory id => id

abbrev ConflictScope := List ConflictKey

def ConflictScope.new (keys : List ConflictKey) : ConflictScope := keys.dedup

def overlaps (left right : ConflictScope) : Bool := left.any fun key => decide (key ∈ right)

/-- The registered writes, and the keys that are closed. -/
structure PreparationGate where
  active : Table Nat ConflictScope := Table.empty
  nextId : Nat := 1
  publishedThrough : Nat := 0
  /-- How many fences close a key. -/
  closing : Table ConflictKey Nat := Table.empty
  terminal : Option MutationError := none

namespace PreparationGate

variable (g : PreparationGate)

def closingCount (key : ConflictKey) : Nat := (g.closing.get key).getD 0

def beginClose (scope : ConflictScope) : Except MutationError PreparationGate :=
  match g.terminal with
  | some error => .error error
  | none =>
    .ok { g with closing := scope.foldl (fun closing key => closing.put key ((closing.get key).getD 0 + 1)) g.closing }

def reopenScope (scope : ConflictScope) : PreparationGate :=
  { g with closing := scope.foldl (fun closing key =>
      match closing.get key with
      | none => closing
      | some count => if count - 1 = 0 then closing.del key else closing.put key (count - 1)) g.closing }

/-- `wait_closed` finds no registration that overlaps the scope. -/
def isClosed (scope : ConflictScope) : Bool :=
  g.terminal.isNone && g.active.entries.all fun row => !overlaps row.2 scope

def register (scope : ConflictScope) : Except MutationError (Nat × PreparationGate) :=
  match g.terminal with
  | some error => .error error
  | none =>
    if scope.any fun key => decide (0 < g.closingCount key) then .error .closed
    else .ok (g.nextId, { g with active := g.active.put g.nextId scope, nextId := g.nextId + 1 })

def unregister (id : Nat) : PreparationGate := { g with active := g.active.del id }

def publish (id : Nat) : PreparationGate × Option Nat :=
  match g.terminal with
  | some _ => (g.unregister id, none)
  | none => ({ g.unregister id with publishedThrough := g.publishedThrough + 1 }, some (g.publishedThrough + 1))

end PreparationGate

/-! ## Lanes -/

/-- The runtime of one inode, and the jobs that its lane still has to run. Entries and jobs name a sequence of the lane
and a write. -/
structure Lane where
  next : Nat := 0
  done : Frontier := {}
  entries : List (Nat × Nat) := []
  jobs : List (Nat × Nat) := []

namespace Lane

variable (l : Lane)

def stage (write : Nat) : Lane :=
  { l with next := l.next + 1, entries := l.entries ++ [(l.next + 1, write)], jobs := l.jobs ++ [(l.next + 1, write)] }

/-- The head job is done: entries up to the frontier are retired. -/
def complete (sequence : Nat) : Lane :=
  { l with
    done := l.done.insert sequence
    entries := l.entries.filter fun e => decide ((l.done.insert sequence).through < e.1)
    jobs := l.jobs.tail }

end Lane

/-- The runtime of an inode; a new one if there is none. -/
def laneAt (lanes : Table InodeId Lane) (id : InodeId) : Lane := (lanes.get id).getD {}

def stageAll (p : Nat) (members : List InodeId) (lanes : Table InodeId Lane) : Table InodeId Lane :=
  members.foldl (fun lanes id => lanes.put id ((laneAt lanes id).stage p)) lanes

/-! ## Lanes of files -/

/-- A lane that runs one job for each entry, in order, stands for the runtime of a file. -/
structure Lane.StandsFor (l : Lane) (s : Volatile.FileState) : Prop where
  entries : l.entries = (range' (l.done.through + 1) s.entries.length).zip s.entries
  next : l.next = l.done.through + s.entries.length
  jobs : l.jobs = l.entries
  pending : l.done.pending = []

namespace Lane.StandsFor

variable {l : Lane} {s : Volatile.FileState} {i n : Nat} {w : Volatile.Writer}

/-- An entry is staged as in the file. -/
theorem stage (h : l.StandsFor s) : (l.stage i).StandsFor (s.stageWriter i w s.entries) where
  entries := by
    show l.entries ++ [(l.next + 1, i)] = (range' (l.done.through + 1) (s.entries ++ [i]).length).zip (s.entries ++ [i])
    rw [length_append, length_singleton, range'_1_concat, zip_append length_range', ← h.entries, h.next,
      Nat.add_right_comm]
    rfl
  next := by
    show l.next + 1 = l.done.through + (s.entries ++ [i]).length
    rw [h.next, length_append]
    rfl
  jobs := by rw [Lane.stage, h.jobs]
  pending := h.pending

/-- The entry of the head job is retired as in the file. -/
theorem complete (h : l.StandsFor s) (hjob : l.jobs.head? = some (n, i)) (phase : Volatile.WritePhase) :
    (l.complete n).StandsFor (s.retireWriter i w phase) := by
  have hjobs := h.jobs.trans h.entries
  cases hs : s.entries with
  | nil => rw [hjobs, hs] at hjob; cases hjob
  | cons j rest =>
    have hrest : (s.retireWriter j w phase).entries = rest := congrArg tail hs
    have hentries : l.entries = (l.done.through + 1, j) :: (range' (l.done.through + 2) rest.length).zip rest := by
      rw [h.entries, hs]
      rfl
    rw [h.jobs, hentries] at hjob
    cases hjob
    have hdone : l.done.insert (l.done.through + 1) = ⟨l.done.through + 1, []⟩ := by
      simp [Frontier.insert, Frontier.absorb, h.pending]
    -- the entries behind the head are behind the new frontier too
    have hkept : (l.complete (l.done.through + 1)).entries = (range' (l.done.through + 2) rest.length).zip rest := by
      rw [Lane.complete, hdone, hentries, filter_cons_of_neg (by simp)]
      exact filter_eq_self.2 fun e he => decide_eq_true (mem_range'_1.1 (of_mem_zip he).1).1
    refine ⟨?_, ?_, ?_, congrArg Frontier.pending hdone⟩
    · rw [hkept, hrest, Lane.complete, hdone]
    · simp only [Lane.complete, hdone, hrest, h.next, hs, length_cons]; omega
    · rw [hkept, Lane.complete, h.jobs, hentries]; rfl

end Lane.StandsFor

/-! ## Writes and fences -/

/-- How far a write has come. -/
inductive Phase
  | called
  | pending
  | registered
  | staged
  | published
  /-- The write is acknowledged, and its lanes have the batch. -/
  | accepted
  /-- The canonical store has the batch. -/
  | applied
  | recorded
  /-- Aborted; its lanes drop what was staged. -/
  | cancelled
  /-- Waits for the outcome of the owner of its identity. -/
  | joined (owner : Nat)
  | refused
  deriving DecidableEq

structure Write where
  members : List InodeId
  identity : Nat
  phase : Phase := .called
  guard : Nat := 0
  sequence : Nat := 0
  /-- What calls that joined this one get. -/
  outcome : Option (Except FsError Unit) := none
  answer : Option (Except FsError Unit) := none

namespace Write

variable (w : Write)

def scope : ConflictScope := ConflictScope.new (w.members.map .inode)

@[simp]
def isActive : Bool := w.phase = .registered || w.phase = .staged

@[simp]
def isPublished : Bool := w.phase = .published || w.phase = .accepted || w.phase = .applied || w.phase = .recorded

/-- The dispatch has its result, so that lanes may complete. -/
def isSettled : Bool := w.phase = .recorded || w.phase = .cancelled

def refuse (error : FsError) : Write :=
  { w with phase := .refused, answer := some (.error error), outcome := some (.error .ioError) }

/-- The guard is dropped: callers that joined get `joined`. -/
def cancel (error joined : FsError) : Write :=
  { w with phase := .cancelled, answer := some (.error error), outcome := some (.error joined) }

end Write

/-- What a fence waits for. -/
inductive FencePhase
  | closing
  /-- `wait_closed` has returned. -/
  | quiet
  /-- Waits for this mutation sequence. -/
  | waiting (cutoff : Nat)
  /-- Inodes whose lanes are still to be waited for. -/
  | draining (todo : List InodeId)
  | reaching (id : InodeId) (target : Nat) (todo : List InodeId)
  | ready
  /-- Dropped, failed or cancelled. -/
  | gone
  deriving DecidableEq

structure MetadataFence where
  scope : ConflictScope
  phase : FencePhase := .closing

namespace MetadataFence

variable (f : MetadataFence)

@[simp]
def isLive : Bool := f.phase ≠ .gone

def closes (key : ConflictKey) : Bool := f.isLive && decide (key ∈ f.scope)

/-- The inodes that the scope names. -/
def inodes : List InodeId := (f.scope.map (·.id)).dedup

end MetadataFence

/-! ## The system -/

/-- The gate, the lanes, and all writes and fences. -/
structure State where
  gate : PreparationGate := {}
  progress : Frontier := {}
  /-- The progress is poisoned. -/
  poisoned : Bool := false
  /-- A runtime has failed, and with it the budget of all. -/
  frozen : Bool := false
  lanes : Table InodeId Lane := Table.empty
  /-- The owners of identities in the request cache. -/
  cache : Table Nat Nat := Table.empty
  writes : List Write := []
  fences : List MetadataFence := []
  /-- The writes in the order in which they were staged. -/
  order : List Nat := []

inductive Action
  | call (members : List InodeId) (identity : Nat)
  | pressure (p : Nat)
  | lookup (p : Nat)
  | register (p : Nat)
  | abort (p : Nat) (error joined : FsError) (keep : Bool)
  | stage (p : Nat)
  | stageFail (p : Nat) (staged : Nat)
  | publish (p : Nat)
  | accept (p : Nat)
  | apply (p : Nat)
  | record (p : Nat)
  | complete (id : InodeId)
  | finish (p : Nat)
  | forget (identity : Nat)
  | poison (gate progress overlay : Bool)
  | fence (keys : List ConflictKey)
  | await (f : Nat)
  | capture (f : Nat)
  | drain (f : Nat)
  | target (f : Nat)
  | reach (f : Nat)
  | drop (f : Nat)

namespace State

variable (s : State)

/-- The `p`-th write is `w`. -/
abbrev At (p : Nat) (w : Write) : Prop := s.writes[p]? = some w

def setWrite (p : Nat) (w : Write) : State := { s with writes := s.writes.set p w }

def setFence (f : Nat) (fence : MetadataFence) : State := { s with fences := s.fences.set f fence }

def onWrite (p : Nat) (phase : Phase) (k : Write → Option State) : Option State :=
  (s.writes[p]?).bind fun w => if w.phase = phase then k w else none

def onFence (f : Nat) (phase : FencePhase) (k : MetadataFence → Option State) : Option State :=
  (s.fences[f]?).bind fun fence => if fence.phase = phase then k fence else none

def lane (id : InodeId) : Lane := laneAt s.lanes id

def stageWrite (p : Nat) (w : Write) : State :=
  { s.setWrite p { w with phase := .staged } with lanes := stageAll p w.members s.lanes, order := s.order ++ [p] }

def completeHead (id : InodeId) (sequence : Nat) : State :=
  { s with lanes := s.lanes.put id ((s.lane id).complete sequence) }

/-- Every lane of the write is at its job. -/
def atHeads (p : Nat) (w : Write) : Bool :=
  w.members.all fun id => ((s.lane id).jobs.head?).any fun job => decide (job.2 = p)

def step (a : Action) : Option State :=
  match a with
  | .call members identity => some { s with writes := s.writes ++ [{ members := members, identity := identity }] }
  | .pressure p => s.onWrite p .called fun w => some (s.setWrite p (w.refuse (writeAdmissionFsError .backpressured)))
  | .lookup p => s.onWrite p .called fun w =>
    match s.cache.get w.identity with
    | none => some { s.setWrite p { w with phase := .pending, outcome := none } with cache := s.cache.put w.identity p }
    | some q =>
      if (s.writes[q]?).any fun v => decide (v.members = w.members)
        then some (s.setWrite p { w with phase := .joined q })
      else some (s.setWrite p (w.refuse (writeAdmissionFsError .fingerprintMismatch)))
  | .register p => s.onWrite p .pending fun w =>
    match s.gate.register w.scope with
    | .error error =>
      some { s.setWrite p (w.refuse (writeAdmissionFsError (.mutation error))) with cache := s.cache.del w.identity }
    | .ok (id, gate) => some { s.setWrite p { w with phase := .registered, guard := id } with gate := gate }
  | .abort p error joined keep => s.onWrite p .registered fun w =>
    some { s.setWrite p (w.cancel error joined) with
      gate := s.gate.unregister w.guard, cache := if keep then s.cache else s.cache.del w.identity }
  | .stage p => s.onWrite p .registered fun w =>
    if s.frozen ∨ w.members = [] ∨ ¬w.members.Nodup then none
    else some (s.stageWrite p w)
  | .stageFail p staged => s.onWrite p .registered fun w =>
    some { s.setWrite p (w.cancel .ioError .ioError) with
      lanes := stageAll p (w.members.take staged) s.lanes, order := s.order ++ [p], gate := s.gate.unregister w.guard
      cache := s.cache.del w.identity }
  | .publish p => s.onWrite p .staged fun w =>
    match s.gate.publish w.guard with
    | (gate, some sequence) =>
      some { s.setWrite p { w with phase := .published, sequence := sequence } with gate := gate }
    | (gate, none) =>
      some { s.setWrite p (w.cancel .ioError .ioError) with gate := gate, cache := s.cache.del w.identity }
  | .accept p =>
    s.onWrite p .published fun w => some (s.setWrite p { w with phase := .accepted, answer := some (.ok ()) })
  | .apply p => s.onWrite p .accepted fun w =>
    if s.poisoned ∨ s.atHeads p w = false then none else some (s.setWrite p { w with phase := .applied })
  | .record p => s.onWrite p .applied fun w =>
    if s.poisoned then none
    else some { s.setWrite p { w with phase := .recorded, outcome := some (.ok ()) } with
      progress := s.progress.record w.sequence }
  | .complete id =>
    match (s.lane id).jobs with
    | [] => none
    | (sequence, p) :: _ =>
      if s.frozen = false ∧ (s.writes[p]?).any (·.isSettled) = true then some (s.completeHead id sequence) else none
  | .finish p => (s.writes[p]?).bind fun w =>
    match w.phase with
    | .joined q =>
      ((s.writes[q]?).bind (·.outcome)).map
        fun outcome => s.setWrite p { w with phase := .refused, answer := some outcome }
    | _ => none
  | .forget identity =>
    if ((s.cache.get identity).bind fun p => s.writes[p]?).any (·.outcome.isSome)
      then some { s with cache := s.cache.del identity }
    else none
  | .poison gate progress overlay =>
    some { s with
      gate := if gate ∧ s.gate.terminal.isNone then { s.gate with terminal := some .poisoned } else s.gate
      poisoned := s.poisoned || progress
      frozen := s.frozen || overlay }
  | .fence keys =>
    match s.gate.beginClose (ConflictScope.new keys) with
    | .error _ => none
    | .ok gate => some { s with gate := gate, fences := s.fences ++ [{ scope := ConflictScope.new keys }] }
  | .await f => s.onFence f .closing fun fence =>
    if s.gate.isClosed fence.scope then some (s.setFence f { fence with phase := .quiet }) else none
  | .capture f =>
    s.onFence f .quiet fun fence => some (s.setFence f { fence with phase := .waiting s.gate.publishedThrough })
  | .drain f => (s.fences[f]?).bind fun fence =>
    match fence.phase with
    | .waiting cutoff =>
      if cutoff = 0 ∨ (s.poisoned = false ∧ cutoff ≤ s.progress.through) then
        some (s.setFence f { fence with phase := .draining fence.inodes })
      else none
    | _ => none
  | .target f => (s.fences[f]?).bind fun fence =>
    match fence.phase with
    | .draining [] => some (s.setFence f { fence with phase := .ready })
    | .draining (id :: todo) => some (s.setFence f { fence with phase := .reaching id (s.lane id).next todo })
    | _ => none
  | .reach f => (s.fences[f]?).bind fun fence =>
    match fence.phase with
    | .reaching id target todo =>
      if s.frozen = false ∧ target ≤ (s.lane id).done.through
        then some (s.setFence f { fence with phase := .draining todo }) else none
    | _ => none
  | .drop f => (s.fences[f]?).bind fun fence =>
    if fence.isLive then some { s.setFence f { fence with phase := .gone } with gate := s.gate.reopenScope fence.scope }
      else none

end State

end ZeroFS.Fence
