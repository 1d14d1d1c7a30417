import ZeroFS.Coordination.Admission

/-!
# Pacing of SSD reservations

Above the high watermark `SsdAdmission` grants only against the credit that remote cleanup has earned. `grant_waiters`
takes the bytes of a token back that nobody received, but not its credit (`credit_lost`).
-/

namespace ZeroFS.Ssd

open Machine Fifo
open Ram (projectedExceeds)

structure SsdReservationRequest where
  ssdReservationBytes : Nat
  physicalReservationBytes : Nat
  operations : Nat
  deriving DecidableEq

structure PhysicalSpaceSample where
  generation : Nat
  availableBytes : Nat

inductive ReservationError
  | closed
  | poisoned (message : String)
  | unavailable
  | tooLarge (requested capacity : Nat)
  | tooManyOperations (requested capacity : Nat)
  | tooLargePhysical (requested available minFree : Nat)

inductive SsdAdmissionMode
  | burst
  | paced
  deriving DecidableEq

/-! ## The credit -/

structure PacingLedger where
  mode : SsdAdmissionMode := .burst
  creditBytes : Nat := 0
  creditOps : Nat := 0

namespace PacingLedger

variable (p : PacingLedger)

def maybeResume (usedSsdBytes resumeBytes : Nat) : PacingLedger := if usedSsdBytes ≤ resumeBytes then {} else p

def addCredit (bytes operations : Nat) : PacingLedger :=
  if p.mode = .paced
    then { p with
    creditBytes := min (p.creditBytes + bytes) u64Max, creditOps := min (p.creditOps + operations) u64Max }
  else p

def canGrant (bytes operations : Nat) : Bool := p.mode = .burst || bytes ≤ p.creditBytes && operations ≤ p.creditOps

def consumeGrant (bytes operations : Nat) : PacingLedger :=
  if p.mode = .paced then { p with creditBytes := p.creditBytes - bytes, creditOps := p.creditOps - operations } else p

end PacingLedger

/-! ## The ledger -/

structure SsdState where
  usedSsdBytes : Nat
  usedOperations : Nat
  outstandingPhysicalClaims : Nat
  availableBytes : Nat
  sampleGeneration : Nat
  pacing : PacingLedger := {}
  /-- What was in use when pacing began, and what remote completions have earned and released since. -/
  entry : Nat := 0
  earned : Nat := 0
  released : Nat := 0

structure Config where
  capacityBytes : Nat
  maxOperations : Nat
  highBytes : Nat
  resumeBytes : Nat
  minFreeBytes : Nat

def physicalHeadroom (available claims requested minFree : Nat) : Bool :=
  ((checkedSub available claims).bind (checkedSub · requested)).any (minFree ≤ ·)

namespace SsdState

variable (l : SsdState) (cfg : Config) (r : SsdReservationRequest)

def enterPaced : SsdState :=
  if l.pacing.mode = .paced then l
  else { l with
    pacing := { l.pacing with mode := .paced }, entry := l.usedSsdBytes + l.pacing.creditBytes, earned := 0,
    released := 0 }

/-- `observe_locked`; a stale sample is passed over. -/
def observe (sample : PhysicalSpaceSample) : SsdState :=
  if sample.generation < l.sampleGeneration then l
  else { l with sampleGeneration := sample.generation, availableBytes := sample.availableBytes }

def refresh : SsdState :=
  if physicalHeadroom l.availableBytes l.outstandingPhysicalClaims 0 cfg.minFreeBytes then
    { l with pacing := l.pacing.maybeResume l.usedSsdBytes cfg.resumeBytes }
  else l

def fits : Bool :=
  (!projectedExceeds l.usedSsdBytes r.ssdReservationBytes cfg.capacityBytes &&
    !projectedExceeds l.usedOperations r.operations cfg.maxOperations &&
    physicalHeadroom l.availableBytes l.outstandingPhysicalClaims r.physicalReservationBytes cfg.minFreeBytes) &&
  match l.pacing.mode with
  | .burst => !projectedExceeds l.usedSsdBytes r.ssdReservationBytes cfg.highBytes ||
      l.usedSsdBytes = 0 && !projectedExceeds 0 r.ssdReservationBytes cfg.capacityBytes
  | .paced => l.pacing.canGrant r.ssdReservationBytes r.operations

/-- The checked additions of `charge` cannot fail for a request that fits. -/
def charge : SsdState :=
  let l' := { l with
    usedSsdBytes := l.usedSsdBytes + r.ssdReservationBytes
    usedOperations := l.usedOperations + r.operations
    outstandingPhysicalClaims := l.outstandingPhysicalClaims + r.physicalReservationBytes
    pacing := l.pacing.consumeGrant r.ssdReservationBytes r.operations }
  if cfg.highBytes < l'.usedSsdBytes then l'.enterPaced else l'

/-- A request that does not fit. -/
def blocked : SsdState :=
  if projectedExceeds l.usedSsdBytes r.ssdReservationBytes cfg.highBytes then l.enterPaced else l

/-- The charge without the request, unless that underflows. -/
def uncharge : Option SsdState :=
  match checkedSub l.usedSsdBytes r.ssdReservationBytes, checkedSub l.usedOperations r.operations,
    checkedSub l.outstandingPhysicalClaims r.physicalReservationBytes with
  | some bytes, some operations, some physical =>
    some { l with usedSsdBytes := bytes, usedOperations := operations, outstandingPhysicalClaims := physical }
  | _, _, _ => none

end SsdState

def underflow : ReservationError := .poisoned "SSD reservation accounting underflow"

/-! ## The gate -/

section

variable (cfg : Config)

/-- `reserve` refreshes the mode before it looks at the queue, `try_reserve` does not. -/
def ssdPolicy (refreshes : Bool) : Policy SsdState SsdReservationRequest ReservationError where
  accept terminal l r :=
    if cfg.capacityBytes < r.ssdReservationBytes then .error (.tooLarge r.ssdReservationBytes cfg.capacityBytes)
    else if cfg.maxOperations < r.operations then .error (.tooManyOperations r.operations cfg.maxOperations)
    else match terminal with
    | some error => .error error
    | none =>
      if physicalHeadroom l.availableBytes 0 r.physicalReservationBytes cfg.minFreeBytes
        then .ok (if refreshes then l.refresh cfg else l)
      else .error (.tooLargePhysical r.physicalReservationBytes l.availableBytes cfg.minFreeBytes)
  fits l r := l.fits cfg r
  charge l r := l.charge cfg r
  -- the credit stays consumed
  refund l r := ((l.uncharge r).getD l).refresh cfg
  blocked l r := l.blocked cfg r
  refresh l := l.refresh cfg
  release _ l r :=
    match l.uncharge r with
    | some l' => ({ l' with pacing := l'.pacing.addCredit r.ssdReservationBytes r.operations }.refresh cfg, none)
    | none => (l, some underflow)
  handsOver := true

abbrev SsdAdmission := Gate SsdState SsdReservationRequest ReservationError

/-- Exact charges of the records found in the journal. -/
def recover (pending : List SsdReservationRequest) (sample : PhysicalSpaceSample) : SsdAdmission :=
  let l : SsdState := {
    usedSsdBytes := (pending.map (·.ssdReservationBytes)).sum
    usedOperations := (pending.map (·.operations)).sum
    outstandingPhysicalClaims := (pending.map (·.physicalReservationBytes)).sum
    availableBytes := sample.availableBytes
    sampleGeneration := sample.generation }
  { ledger := if cfg.highBytes < l.usedSsdBytes then l.enterPaced else l }

namespace SsdAdmission

variable (s : SsdAdmission)

def applyReleaseCredit (bytes operations : Nat) : SsdAdmission :=
  if s.terminal.isSome then s
  else { s with
    ledger :=
      { s.ledger with pacing := s.ledger.pacing.addCredit bytes operations, earned := s.ledger.earned + bytes }.refresh
        cfg
    due := s.due + 1 }

/-- The charge of a record that has been drained. -/
def releaseRemote (r : SsdReservationRequest) (sample : PhysicalSpaceSample) : SsdAdmission :=
  let l := s.ledger.observe sample
  if s.terminal.isSome then { s with ledger := l }
  else match l.uncharge r with
  | some l' =>
    { s with ledger := { l' with released := l'.released + r.ssdReservationBytes }.refresh cfg, due := s.due + 1 }
  | none => Gate.terminate { s with ledger := l } underflow

/-- The token of a record that has been journaled: its charge stays, with the physical bytes it takes now. -/
def commitLocal (r : SsdReservationRequest) (currentPhysicalBytes : Nat) (sample : PhysicalSpaceSample) :
    SsdAdmission :=
  let l := s.ledger.observe sample
  let s' := { s with ledger := l, permits := s.permits.erase r }
  if s.terminal.isSome then s'
  else match (checkedSub l.outstandingPhysicalClaims r.physicalReservationBytes).bind
    (checkedAdd · currentPhysicalBytes) with
  | some outstanding => { s' with ledger := { l with outstandingPhysicalClaims := outstanding }.refresh cfg }
  | none => s'.terminate (.poisoned "SSD physical-claim adjustment overflow or underflow")

end SsdAdmission

inductive Action
  | gate (a : Fifo.Action SsdReservationRequest ReservationError)
  | tryReserve (r : SsdReservationRequest)
  /-- A sample, of `reserve` or of `observe_sample`. -/
  | observe (sample : PhysicalSpaceSample) (grants : Bool)
  /-- Tokens are split for the parts of an upload, or merged. -/
  | exchange (out tokens : List SsdReservationRequest)
  | commitLocal (r : SsdReservationRequest) (currentPhysicalBytes : Nat) (sample : PhysicalSpaceSample)
  | releaseRemote (r : SsdReservationRequest) (sample : PhysicalSpaceSample)
  | applyReleaseCredit (bytes operations : Nat)

def step (s : SsdAdmission) : Action → Option SsdAdmission
  | .gate a => Fifo.step (ssdPolicy cfg true) s a
  | .tryReserve r => some (s.tryAcquire (ssdPolicy cfg false) .unavailable r).2
  | .observe sample grants =>
    let l := s.ledger.observe sample
    some (if grants && s.terminal.isNone then { s with ledger := l.refresh cfg, due := s.due + 1 }
      else { s with ledger := l })
  | .exchange out tokens =>
    if out.Subperm s.permits ∧ (out.map (·.ssdReservationBytes)).sum = (tokens.map (·.ssdReservationBytes)).sum then
      some { s with permits := s.permits.diff out ++ tokens }
    else none
  | .commitLocal r bytes sample => if r ∈ s.permits then some (s.commitLocal cfg r bytes sample) else none
  | .releaseRemote r sample => some (s.releaseRemote cfg r sample)
  | .applyReleaseCredit bytes operations => some (s.applyReleaseCredit cfg bytes operations)

end

/-- Every waiter in the queue still receives, and no addition to the credit saturates. -/
def received (s : SsdAdmission) : Action → Bool
  | .gate .grant => s.waiters.all fun w => !s.gone.contains w.id
  | .gate (.drop r) => s.ledger.pacing.creditBytes + r.ssdReservationBytes ≤ u64Max
  | .applyReleaseCredit bytes _ => s.ledger.pacing.creditBytes + bytes ≤ u64Max
  | _ => true

abbrev Received (s : SsdAdmission) (a : Action) : Prop := received s a = true

/-! ## Conservation -/

/-- While the ledger is paced, bytes in use and credit only change by what remote completions earn and release. -/
def SsdState.Conserved (l : SsdState) : Prop :=
  l.pacing.mode = .paced → l.usedSsdBytes + l.pacing.creditBytes + l.released = l.entry + l.earned

variable {cfg : Config} {l l' : SsdState} {r : SsdReservationRequest} {s s' : SsdAdmission}

namespace SsdState

theorem Conserved.enterPaced (h : l.Conserved) : l.enterPaced.Conserved := by
  unfold SsdState.enterPaced
  split
  · exact h
  · intro _; simp

theorem Conserved.refresh (h : l.Conserved) : (l.refresh cfg).Conserved := by
  unfold SsdState.refresh PacingLedger.maybeResume
  split
  · split
    · exact nofun
    · exact h
  · exact h

theorem Conserved.observe (h : l.Conserved) (sample : PhysicalSpaceSample) : (l.observe sample).Conserved := by
  unfold SsdState.observe
  split <;> exact h

theorem Conserved.blocked (h : l.Conserved) : (l.blocked cfg r).Conserved := by
  unfold SsdState.blocked
  split
  · exact h.enterPaced
  · exact h

/-- A paced grant takes its bytes from the credit. -/
theorem Conserved.charge (h : l.Conserved) (hfits : l.fits cfg r = true) : (l.charge cfg r).Conserved := by
  unfold SsdState.charge
  have hcharged : Conserved { l with
      usedSsdBytes := l.usedSsdBytes + r.ssdReservationBytes
      usedOperations := l.usedOperations + r.operations
      outstandingPhysicalClaims := l.outstandingPhysicalClaims + r.physicalReservationBytes
      pacing := l.pacing.consumeGrant r.ssdReservationBytes r.operations } := by
    cases hmode : l.pacing.mode with
    | burst => simp [Conserved, PacingLedger.consumeGrant, hmode]
    | paced =>
      have hcredit : r.ssdReservationBytes ≤ l.pacing.creditBytes := by
        simp [fits, hmode, PacingLedger.canGrant] at hfits
        omega
      have := h hmode
      simp only [Conserved, PacingLedger.consumeGrant, hmode, if_true, true_implies]
      omega
  dsimp only
  split
  · exact hcharged.enterPaced
  · exact hcharged

theorem uncharge_eq_some (h : l.uncharge r = some l') : r.ssdReservationBytes ≤ l.usedSsdBytes ∧
    ∃ operations physical, l' =
    { l with
      usedSsdBytes := l.usedSsdBytes - r.ssdReservationBytes, usedOperations := operations,
      outstandingPhysicalClaims := physical } := by
  unfold uncharge at h
  split at h <;> cases h
  rename_i bytes operations physical hbytes _ _
  obtain ⟨hle, rfl⟩ := checkedSub_eq_some.1 hbytes
  exact ⟨hle, operations, physical, rfl⟩

/-- Credit is added to the ledger of a paced state; the bytes in use have become less by `bytes`, or as much was
earned. -/
theorem Conserved.addCredit (h : l.Conserved) {bytes operations : Nat} (hsat : l.pacing.creditBytes + bytes ≤ u64Max)
    (hpacing : l'.pacing = l.pacing.addCredit bytes operations)
    (hsum : l'.usedSsdBytes + l'.released + l.entry + l.earned + bytes =
      l.usedSsdBytes + l.released + l'.entry + l'.earned) : l'.Conserved := by
  intro hmode
  rw [hpacing, PacingLedger.addCredit] at hmode
  split at hmode
  · rename_i hpaced
    have := h hpaced
    rw [hpacing, PacingLedger.addCredit, if_pos hpaced]
    simp only
    omega
  · exact absurd hmode ‹_›

end SsdState

theorem step_conserved (h : s.ledger.Conserved) {a : Action} (hc : Received s a) (hs : step cfg s a = some s') :
    s'.ledger.Conserved := by
  have haccept : ∀ {b t l r l'}, (ssdPolicy cfg b).accept t l r = .ok l' → l.Conserved → l'.Conserved := by
    intro b t l r l' hl h
    simp only [ssdPolicy] at hl
    split at hl
    · cases hl
    split at hl
    · cases hl
    split at hl
    · cases hl
    split at hl <;> cases hl
    cases b
    · exact h
    · exact h.refresh
  cases a with
  | gate a =>
    refine step_keeps haccept (fun hf hl => hl.charge hf) (fun hl => hl.blocked) (fun hl => hl.refresh) id h
      (fun ha w hw => ?_) (fun r ha => ?_) hs
    · subst ha; simpa [Gate.alive, ssdPolicy] using List.all_eq_true.1 hc w hw
    subst ha
    simp only [ssdPolicy]
    split
    · rename_i l' hl
      obtain ⟨hle, operations, physical, rfl⟩ := SsdState.uncharge_eq_some hl
      refine SsdState.Conserved.refresh (h.addCredit (of_decide_eq_true hc) rfl ?_)
      simp only
      omega
    · exact h
  | tryReserve r =>
    cases hs
    rcases tryAcquire_cases s .unavailable r with ⟨hsame, -⟩ | ⟨-, hsame⟩
    · rwa [hsame]
    rw [hsame]
    exact step_keeps (P := ssdPolicy cfg false) haccept (fun hf hl => hl.charge hf) (fun hl => hl.blocked)
      (fun hl => hl.refresh) id h (by simp)
      (by simp) (a := .acquire r) rfl
  | observe sample grants =>
    cases hs
    split
    · exact (h.observe sample).refresh
    · exact h.observe sample
  | exchange out tokens => obtain ⟨-, rfl⟩ := of_guard hs; exact h
  | commitLocal r bytes sample =>
    obtain ⟨-, rfl⟩ := of_guard hs
    have ho := h.observe sample
    unfold SsdAdmission.commitLocal Gate.terminate
    dsimp only
    split
    · exact ho
    split
    · exact SsdState.Conserved.refresh ho
    · exact ho
  | releaseRemote r sample =>
    cases hs
    have ho := h.observe sample
    unfold SsdAdmission.releaseRemote Gate.terminate
    dsimp only
    split
    · exact ho
    split
    · rename_i l' hl
      obtain ⟨hle, operations, physical, rfl⟩ := SsdState.uncharge_eq_some hl
      refine SsdState.Conserved.refresh fun hmode => ?_
      have := ho hmode
      simp only
      omega
    · exact ho
  | applyReleaseCredit bytes operations =>
    cases hs
    unfold SsdAdmission.applyReleaseCredit
    split
    · exact h
    refine SsdState.Conserved.refresh (h.addCredit (of_decide_eq_true hc) rfl ?_)
    simp only
    omega

/-- **Credit is conserved** in every run in which each waiter whose turn comes still receives its token and no credit
saturates: while the ledger is paced, what is in use and what is left of the credit are what pacing began with, with
what remote completions have earned and released since. -/
theorem credit_conserved (cfg : Config) (pending : List SsdReservationRequest) (sample : PhysicalSpaceSample)
    (h : Reach (step cfg) Received (recover cfg pending sample) s) (hmode : s.ledger.pacing.mode = .paced) :
    s.ledger.usedSsdBytes + s.ledger.pacing.creditBytes + s.ledger.released = s.ledger.entry + s.ledger.earned := by
  refine Reach.invariant (I := fun s => s.ledger.Conserved) ?_ (fun s a s' hi hc hs => step_conserved hi hc hs) h hmode
  unfold recover
  dsimp only
  split
  · exact SsdState.Conserved.enterPaced (by rintro ⟨⟩)
  · rintro ⟨⟩

/-- Capacity 100, high watermark 90, resumed at 50. -/
def smallConfig : Config := ⟨100, 10, 90, 50, 0⟩

/-- The waiter receives its token and drops it: the credit is back. -/
theorem credit_conserved_drop : ∃ s, run (guarded (step smallConfig) Received)
    (recover smallConfig [⟨95, 95, 1⟩] ⟨1, 1000⟩)
      [.gate (.acquire ⟨5, 5, 1⟩), .applyReleaseCredit 5 1, .gate .grant, .gate (.drop ⟨5, 5, 1⟩)] = some s ∧
    s.ledger.pacing.mode = .paced ∧ s.ledger.earned = 5 ∧ s.ledger.pacing.creditBytes = 5 ∧
    s.ledger.usedSsdBytes + s.ledger.pacing.creditBytes + s.ledger.released = s.ledger.entry + s.ledger.earned :=
  ⟨_, rfl, by decide, by decide, by decide,
    credit_conserved smallConfig [⟨95, 95, 1⟩] ⟨1, 1000⟩ (reach_of_run .init (l :=
    [.gate (.acquire ⟨5, 5, 1⟩), .applyReleaseCredit 5 1, .gate .grant, .gate (.drop ⟨5, 5, 1⟩)]) rfl) (by decide)⟩

/-- **Credit is lost**: the waiter's caller goes away before the grant. Its bytes are taken back, and the 5 bytes of
credit are gone. -/
theorem credit_lost : ∃ s, Reach (step smallConfig) anyStep (recover smallConfig [⟨95, 95, 1⟩] ⟨1, 1000⟩) s ∧
    s.ledger.pacing.mode = .paced ∧ s.waiters.length = 0 ∧ s.permits = [] ∧ s.ledger.earned = 5 ∧
    s.ledger.released = 0 ∧ s.ledger.usedSsdBytes + s.ledger.pacing.creditBytes = s.ledger.entry :=
  ⟨_, reach_of_run .init (l := [.gate (.acquire ⟨5, 5, 1⟩), .gate (.vanish 0), .applyReleaseCredit 5 1, .gate .grant,
    .gate (.cancel 0)]) rfl, by decide, by decide, by decide, by decide, by decide, by decide⟩

end ZeroFS.Ssd
