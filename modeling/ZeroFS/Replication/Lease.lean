import ZeroFS.Lib.Atomic
import ZeroFS.Types

/-!
# The serving lease

The lease is one word: four states and a deadline above them (`replication/lease.rs`). Every operation is a program of
atomic loads and compare-exchanges with readings of two clocks between them, in any number of tasks.
-/

namespace ZeroFS.Lease

open Atomic Machine List Option

def uninitialized : Nat := 0

def revoked : Nat := 1

def closedCleanly : Nat := 2

def suspended : Nat := 3

def deadlineBias : Nat := 4

/-- The monotonic clock in nanoseconds, and the wall clock in nanoseconds from the epoch. -/
structure Clocks where
  now : Nat
  wall : Int

/-- The monotonic clock does not go back; the wall clock may be set to anything. -/
def Clocks.advance (t t' : Clocks) : Bool := t.now ≤ t'.now

/-- The clocks when the lease was made, and the last instants that the clocks can express. -/
structure Anchors where
  base : Nat
  wallBase : Int
  instantMax : Nat
  systemTimeMax : Int

namespace Anchors

variable (a : Anchors)

def offsetNanos (instant : Nat) : Option Nat :=
  if instant < a.base then none else some (min (instant - a.base) (u64Max - deadlineBias))

/-- `start.checked_add(ttl)`. -/
def instantAdd (start ttl : Nat) : Option Nat := if start + ttl ≤ a.instantMax then some (start + ttl) else none

def encodedDeadline (start ttl : Nat) : Option Nat := do
  let deadline ← a.instantAdd start ttl
  let offset ← a.offsetNanos deadline
  return min (offset + deadlineBias) u64Max

def nowNanos (t : Clocks) : Nat := (a.offsetNanos t.now).getD 0

/-- `wall_base.checked_add(offset)`. -/
def wallAdd (offset : Nat) : Option Int :=
  if a.wallBase + offset ≤ a.systemTimeMax then some (a.wallBase + offset) else none

end Anchors

def deadlineNanos (state : Nat) : Nat := state - deadlineBias

inductive Op
  | activateFrom (start ttl : Nat)
  | renewFrom (start ttl : Nat)
  | recoverFrom (start ttl : Nat)
  | suspendExpiry
  | suspendAfterGap
  | revoke
  | closeCleanly
  | isValid
  deriving DecidableEq, Repr

/-- A program on the lease. The operations that return nothing return `true`. -/
abbrev Prog := Atomic.Prog Nat Clocks Op Bool

section Bodies

variable (a : Anchors)

/-- Go on with whether the deadline has passed on either clock. -/
def deadlineExpired (state : Nat) (k : Bool → Prog) : Prog :=
  .sample fun t =>
    if deadlineNanos state ≤ a.nowNanos t then k true
    else
      match a.wallAdd (deadlineNanos state) with
      | none => k true
      | some wallDeadline => .sample fun t => k (wallDeadline ≤ t.wall)

def suspendExpiry : Prog :=
  .load fun state =>
    if state = suspended then .ret true
    else if state < deadlineBias then .ret false
    else deadlineExpired a state fun expired =>
      if expired then .compareExchange state suspended fun ok => if ok then .ret true else .enter .suspendExpiry none
      else .ret false

def suspendAfterGap : Prog :=
  .load fun state =>
    if state < deadlineBias then .ret true
    else .compareExchange state suspended fun ok => if ok then .ret true else .enter .suspendAfterGap none

/-- Give up a lease that was never active. -/
def abandon : Prog := .compareExchange uninitialized revoked fun _ => .ret false

def activateFrom (start ttl : Nat) : Prog :=
  .load fun state =>
    if state ≠ uninitialized then .ret false
    else
      match a.encodedDeadline start ttl with
      | none => abandon
      | some deadline => deadlineExpired a deadline fun expired =>
        if expired then abandon
        else .compareExchange uninitialized deadline fun activated =>
          if activated then deadlineExpired a deadline fun expired => if expired then .enter .revoke (some false)
            else .ret true
          else .ret false

def renewFrom (start ttl : Nat) : Prog :=
  .load fun state =>
    if state < deadlineBias then .ret false
    else deadlineExpired a state fun expired =>
      if expired then .compareExchange state suspended fun ok => if ok then .ret false
        else .enter (.renewFrom start ttl) none
      else
        match a.encodedDeadline start ttl with
        | none => .ret false
        | some proposed =>
          if proposed ≤ state then .ret true
          else .compareExchange state proposed fun ok =>
            if ok then deadlineExpired a state fun expired => if expired then .enter .suspendAfterGap (some false)
              else .ret true
            else .enter (.renewFrom start ttl) none

def recoverFrom (start ttl : Nat) : Prog :=
  match a.encodedDeadline start ttl with
  | none => .ret false
  | some deadline => deadlineExpired a deadline fun expired =>
    if expired then .ret false
    else .compareExchange suspended deadline fun ok =>
      if ok then deadlineExpired a deadline fun expired => if expired then .enter .revoke (some false) else .ret true
      else .ret false

def revoke : Prog :=
  .load fun state =>
    if state = revoked ∨ state = closedCleanly then .ret true
    else .compareExchange state revoked fun ok => if ok then .ret true else .enter .revoke none

/-- Exchange `state` for a terminal state and say which, or try again. -/
def closeAs (state terminal : Nat) (result : Bool) : Prog :=
  .compareExchange state terminal fun ok => if ok then .ret result else .enter .closeCleanly none

def closeCleanly : Prog :=
  .load fun state =>
    if state = revoked then .ret false
    else if state = closedCleanly then .ret true
    else if state = suspended then closeAs state revoked false
    else if deadlineBias ≤ state then deadlineExpired a state fun expired =>
      if expired then closeAs state revoked false else closeAs state closedCleanly true
    else closeAs state closedCleanly true

def isValid : Prog :=
  .load fun state =>
    if state < deadlineBias then .ret false
    else deadlineExpired a state fun expired => if expired then .enter .suspendExpiry (some false) else .ret true

def Op.body : Op → Prog
  | .activateFrom start ttl => Lease.activateFrom a start ttl
  | .renewFrom start ttl => Lease.renewFrom a start ttl
  | .recoverFrom start ttl => Lease.recoverFrom a start ttl
  | .suspendExpiry => Lease.suspendExpiry a
  | .suspendAfterGap => Lease.suspendAfterGap
  | .revoke => Lease.revoke
  | .closeCleanly => Lease.closeCleanly a
  | .isValid => Lease.isValid a

/-- The steps of the tasks and of the clocks. -/
def step : Atomic.Sys Nat Clocks Op Bool → Atomic.Action Clocks Op → Option (Atomic.Sys Nat Clocks Op Bool) :=
  Atomic.Sys.step (Op.body a) Clocks.advance

end Bodies

/-! ## What the operations do to the word -/

/-- The lease is over for good. -/
def Terminal (w : Nat) : Prop := w = revoked ∨ w = closedCleanly

instance (w : Nat) : Decidable (Terminal w) := inferInstanceAs (Decidable (_ ∨ _))

theorem lt_of_terminal {w : Nat} (h : Terminal w) : w < deadlineBias := by
  rcases h with rfl | rfl
  · decide
  · decide

/-- The deadline that a grant asks for. -/
def Grants (a : Anchors) (start ttl w : Nat) : Prop := a.encodedDeadline start ttl = some w

/-- The exchanges that an operation may make. -/
def allowed (a : Anchors) : Op → Nat → Nat → Prop
  | .activateFrom start ttl, old, new => ¬Terminal old ∧ new = revoked ∨ old = uninitialized ∧ Grants a start ttl new
  | .renewFrom start ttl, old, new => deadlineBias ≤ old ∧ (new = suspended ∨ Grants a start ttl new)
  | .recoverFrom start ttl, old, new => ¬Terminal old ∧ new = revoked ∨ old = suspended ∧ Grants a start ttl new
  | .suspendExpiry, old, new => deadlineBias ≤ old ∧ new = suspended
  | .suspendAfterGap, old, new => deadlineBias ≤ old ∧ new = suspended
  | .revoke, old, new => ¬Terminal old ∧ new = revoked
  | .closeCleanly, old, new => ¬Terminal old ∧ Terminal new
  | .isValid, old, new => deadlineBias ≤ old ∧ new = suspended

section Swaps

variable {a : Anchors} {A : Nat → Nat → Prop} {state : Nat} {k : Bool → Prog}

theorem ite_swaps {c : Prop} [Decidable c] {p q : Prog} (hp : c → p.Swaps (allowed a) A)
    (hq : ¬c → q.Swaps (allowed a) A) : (if c then p else q : Prog).Swaps (allowed a) A := by
  split
  · exact hp ‹c›
  · exact hq ‹¬c›

theorem deadlineExpired_swaps (h : ∀ b, (k b).Swaps (allowed a) A) :
    (deadlineExpired a state k).Swaps (allowed a) A := by
  refine fun t => ite_swaps (fun _ => h true) fun _ => ?_
  cases a.wallAdd (deadlineNanos state) with
  | none => exact h true
  | some wallDeadline => exact fun t => h _

theorem abandon_swaps {start ttl : Nat} : abandon.Swaps (allowed a) (allowed a (.activateFrom start ttl)) :=
  ⟨.inl ⟨by decide, rfl⟩, fun _ => trivial⟩

theorem activateFrom_swaps (start ttl : Nat) :
    (activateFrom a start ttl).Swaps (allowed a) (allowed a (.activateFrom start ttl)) := by
  refine fun state => ite_swaps (fun _ => trivial) fun _ => ?_
  cases hgrant : a.encodedDeadline start ttl with
  | none => exact abandon_swaps
  | some deadline =>
    refine deadlineExpired_swaps fun expired => ite_swaps (fun _ => abandon_swaps) fun _ => ?_
    refine ⟨.inr ⟨rfl, hgrant⟩, fun activated => ite_swaps (fun _ => ?_) fun _ => trivial⟩
    exact deadlineExpired_swaps fun expired => ite_swaps (fun _ old new h => .inl h) fun _ => trivial

theorem renewFrom_swaps (start ttl : Nat) :
    (renewFrom a start ttl).Swaps (allowed a) (allowed a (.renewFrom start ttl)) := by
  refine fun state => ite_swaps (fun _ => trivial) fun hstate => ?_
  have hdeadline : deadlineBias ≤ state := Nat.le_of_not_lt hstate
  refine deadlineExpired_swaps fun expired => ite_swaps (fun _ => ?_) fun _ => ?_
  · exact ⟨⟨hdeadline, .inl rfl⟩, fun ok => ite_swaps (fun _ => trivial) fun _ old new h => h⟩
  cases hgrant : a.encodedDeadline start ttl with
  | none => trivial
  | some proposed =>
    refine ite_swaps (fun _ => trivial)
      fun _ => ⟨⟨hdeadline, .inr hgrant⟩, fun ok => ite_swaps (fun _ => ?_) fun _ old new h => h⟩
    exact deadlineExpired_swaps fun expired => ite_swaps (fun _ old new h => ⟨h.1, .inl h.2⟩) fun _ => trivial

theorem recoverFrom_swaps (start ttl : Nat) :
    (recoverFrom a start ttl).Swaps (allowed a) (allowed a (.recoverFrom start ttl)) := by
  unfold recoverFrom
  cases hgrant : a.encodedDeadline start ttl with
  | none => trivial
  | some deadline =>
    refine deadlineExpired_swaps fun expired => ite_swaps (fun _ => trivial) fun _ => ?_
    refine ⟨.inr ⟨rfl, hgrant⟩, fun ok => ite_swaps (fun _ => ?_) fun _ => trivial⟩
    exact deadlineExpired_swaps fun expired => ite_swaps (fun _ old new h => .inl h) fun _ => trivial

theorem suspendExpiry_swaps : (suspendExpiry a).Swaps (allowed a) (allowed a .suspendExpiry) := by
  refine fun state => ite_swaps (fun _ => trivial) fun _ => ite_swaps (fun _ => trivial) fun hstate => ?_
  refine deadlineExpired_swaps fun expired => ite_swaps (fun _ => ?_) fun _ => trivial
  exact ⟨⟨Nat.le_of_not_lt hstate, rfl⟩, fun ok => ite_swaps (fun _ => trivial) fun _ old new h => h⟩

theorem suspendAfterGap_swaps : suspendAfterGap.Swaps (allowed a) (allowed a .suspendAfterGap) := by
  refine fun state => ite_swaps (fun _ => trivial) fun hstate => ?_
  exact ⟨⟨Nat.le_of_not_lt hstate, rfl⟩, fun ok => ite_swaps (fun _ => trivial) fun _ old new h => h⟩

theorem revoke_swaps : revoke.Swaps (allowed a) (allowed a .revoke) := by
  refine fun state => ite_swaps (fun _ => trivial) fun hstate => ?_
  exact ⟨⟨hstate, rfl⟩, fun ok => ite_swaps (fun _ => trivial) fun _ old new h => h⟩

theorem closeAs_swaps {terminal : Nat} {result : Bool} (hs : ¬Terminal state) (ht : Terminal terminal) :
    (closeAs state terminal result).Swaps (allowed a) (allowed a .closeCleanly) :=
  ⟨⟨hs, ht⟩, fun _ => ite_swaps (fun _ => trivial) fun _ _ _ h => h⟩

theorem closeCleanly_swaps : (closeCleanly a).Swaps (allowed a) (allowed a .closeCleanly) := by
  refine fun state => ite_swaps (fun _ => trivial) fun hrevoked => ite_swaps (fun _ => trivial) fun hclosed => ?_
  have hopen : ¬Terminal state := fun h => h.elim hrevoked hclosed
  refine ite_swaps (fun _ => closeAs_swaps hopen (.inl rfl)) fun _ => ite_swaps (fun _ => ?_)
    fun _ => closeAs_swaps hopen (.inr rfl)
  exact deadlineExpired_swaps fun expired =>
    ite_swaps (fun _ => closeAs_swaps hopen (.inl rfl)) fun _ => closeAs_swaps hopen (.inr rfl)

theorem isValid_swaps : (isValid a).Swaps (allowed a) (allowed a .isValid) := by
  refine fun state => ite_swaps (fun _ => trivial) fun _ => ?_
  exact deadlineExpired_swaps fun expired => ite_swaps (fun _ old new h => h) fun _ => trivial

theorem body_swaps (op : Op) : (op.body a).Swaps (allowed a) (allowed a op) := by
  cases op with
  | activateFrom start ttl => exact activateFrom_swaps start ttl
  | renewFrom start ttl => exact renewFrom_swaps start ttl
  | recoverFrom start ttl => exact recoverFrom_swaps start ttl
  | suspendExpiry => exact suspendExpiry_swaps
  | suspendAfterGap => exact suspendAfterGap_swaps
  | revoke => exact revoke_swaps
  | closeCleanly => exact closeCleanly_swaps
  | isValid => exact isValid_swaps

end Swaps

/-! ## What the operations have seen -/

/-- The deadline was ahead of the monotonic clock at `t₁` and of the wall clock at `t₂`. -/
def Ahead (a : Anchors) (state : Nat) (t₁ t₂ : Clocks) : Prop :=
  a.nowNanos t₁ < deadlineNanos state ∧ t₂.wall < a.wallBase + deadlineNanos state

/-- A terminal state was loaded or brought about. -/
def SawEnd (l : List (Obs Nat Clocks)) : Prop := ∃ w, Terminal w ∧ (.loaded w ∈ l ∨ ∃ old, .swapped old w ∈ l)

/-- A deadline was loaded and found to be ahead. -/
def SawAhead (a : Anchors) (l : List (Obs Nat Clocks)) : Prop :=
  ∃ w t₁ t₂, deadlineBias ≤ w ∧ .loaded w ∈ l ∧ .sampled t₁ ∈ l ∧ .sampled t₂ ∈ l ∧ Ahead a w t₁ t₂

/-- What a call has seen when it returns. -/
def spec (a : Anchors) : Op → List (Obs Nat Clocks) → Bool → Prop
  | .isValid, l, result => result = true → SawAhead a l
  | .revoke, l, _ => SawEnd l
  | .closeCleanly, l, _ => SawEnd l
  | _, _, _ => True

section Ensures

variable {a : Anchors} {Q : List (Obs Nat Clocks) → Bool → Prop} {state : Nat} {k : Bool → Prog}
  {l : List (Obs Nat Clocks)}

theorem ite_ensures {c : Prop} [Decidable c] {p q : Prog} (hp : c → p.Ensures (spec a) Q l)
    (hq : ¬c → q.Ensures (spec a) Q l) : (if c then p else q : Prog).Ensures (spec a) Q l := by
  split
  · exact hp ‹c›
  · exact hq ‹¬c›

theorem deadlineExpired_ensures (htrue : ∀ l', l ⊆ l' → (k true).Ensures (spec a) Q l')
    (hfalse : ∀ l' t₁ t₂, l ⊆ l' → .sampled t₁ ∈ l' → .sampled t₂ ∈ l' → Ahead a state t₁ t₂ →
      (k false).Ensures (spec a) Q l') : (deadlineExpired a state k).Ensures (spec a) Q l := by
  intro t₁
  have hsub₁ : l ⊆ l ++ [Obs.sampled t₁] := subset_append_left _ _
  refine ite_ensures (fun _ => htrue _ hsub₁) fun hnow => ?_
  cases hwall : a.wallAdd (deadlineNanos state) with
  | none => exact htrue _ hsub₁
  | some wallDeadline =>
    intro t₂
    have hsub₂ : l ++ [Obs.sampled t₁] ⊆ l ++ [Obs.sampled t₁] ++ [Obs.sampled t₂] := subset_append_left _ _
    dsimp only
    by_cases hpassed : wallDeadline ≤ t₂.wall
    · rw [decide_eq_true hpassed]; exact htrue _ (List.Subset.trans hsub₁ hsub₂)
    rw [decide_eq_false hpassed]
    have heq : wallDeadline = a.wallBase + deadlineNanos state := by
      unfold Anchors.wallAdd at hwall
      split at hwall
      · exact (some.inj hwall).symm
      · cases hwall
    exact hfalse _ t₁ t₂ (List.Subset.trans hsub₁ hsub₂) (hsub₂ (mem_append_right _ mem_cons_self))
      (mem_append_right _ mem_cons_self) ⟨by omega, by omega⟩

theorem sawEnd_loaded (h : Terminal state) : SawEnd (l ++ [.loaded state]) :=
  ⟨state, h, .inl (mem_append_right _ mem_cons_self)⟩

theorem sawEnd_swapped {old : Nat} (h : Terminal state) : SawEnd (l ++ [.swapped old state]) :=
  ⟨state, h, .inr ⟨old, mem_append_right _ mem_cons_self⟩⟩

theorem revoke_ensures : revoke.Ensures (spec a) (spec a .revoke) l := by
  refine fun state => ite_ensures (fun hend => sawEnd_loaded hend) fun _ => ⟨?_, ?_⟩
  · exact sawEnd_swapped (.inl rfl)
  · exact fun l' r h => h

theorem closeAs_ensures {terminal : Nat} {result : Bool} (ht : Terminal terminal) :
    (closeAs state terminal result).Ensures (spec a) (spec a .closeCleanly) l :=
  ⟨sawEnd_swapped ht, fun _ _ h => h⟩

theorem closeCleanly_ensures : (closeCleanly a).Ensures (spec a) (spec a .closeCleanly) l := by
  refine fun state => ite_ensures (fun h => sawEnd_loaded (.inl h))
    fun _ => ite_ensures (fun h => sawEnd_loaded (.inr h)) fun _ => ?_
  refine ite_ensures (fun _ => closeAs_ensures (.inl rfl)) fun _ => ite_ensures (fun _ => ?_)
    fun _ => closeAs_ensures (.inr rfl)
  exact deadlineExpired_ensures (fun _ _ => closeAs_ensures (.inl rfl)) fun _ _ _ _ _ _ _ => closeAs_ensures (.inr rfl)

theorem isValid_ensures : (isValid a).Ensures (spec a) (spec a .isValid) l := by
  refine fun state => ite_ensures (fun _ => nofun) fun hstate => ?_
  refine deadlineExpired_ensures (fun _ _ _ _ => nofun) fun l' t₁ t₂ hsub h₁ h₂ hahead _ => ?_
  exact ⟨state, t₁, t₂, Nat.le_of_not_lt hstate, hsub (mem_append_right _ mem_cons_self), h₁, h₂, hahead⟩

theorem body_ensures (op : Op) (l : List (Obs Nat Clocks)) : (op.body a).Ensures (spec a) (spec a op) l := by
  cases op with
  | revoke => exact revoke_ensures
  | closeCleanly => exact closeCleanly_ensures
  | isValid => exact isValid_ensures
  | _ => exact Atomic.Prog.ensures_of_forall (fun _ _ => trivial) l

end Ensures

/-! ## The result -/

/-- What an operation that extends the lease asks for. -/
def Op.grant : Op → Option (Nat × Nat)
  | .activateFrom start ttl | .renewFrom start ttl | .recoverFrom start ttl => some (start, ttl)
  | _ => none

section Result

variable {a : Anchors} {start ttl old new w : Nat} {op : Op}

theorem deadlineNanos_le (h : Grants a start ttl w) :
    a.base ≤ start + ttl ∧ deadlineNanos w ≤ start + ttl - a.base ∧ deadlineNanos w ≤ u64Max - deadlineBias := by
  obtain ⟨d, hd, h⟩ := bind_eq_some_iff.1 h
  obtain ⟨o, ho, h⟩ := bind_eq_some_iff.1 h
  have hsum : d = start + ttl := by
    unfold Anchors.instantAdd at hd
    split at hd
    · exact (some.inj hd).symm
    · cases hd
  unfold Anchors.offsetNanos at ho
  split at ho
  · cases ho
  have ho' := some.inj ho
  have hw : min (o + deadlineBias) u64Max = w := some.inj h
  unfold deadlineNanos
  omega

theorem Ahead.grant {t₁ t₂ : Clocks} (h : Ahead a w t₁ t₂) (hg : Grants a start ttl w) :
    t₁.now < start + ttl ∧ t₂.wall < a.wallBase + ((start + ttl - a.base : Nat) : Int) := by
  obtain ⟨hbase, hle, hmax⟩ := deadlineNanos_le hg
  obtain ⟨hnow, hwall⟩ := h
  refine ⟨?_, by omega⟩
  unfold Anchors.nowNanos Anchors.offsetNanos at hnow
  split at hnow
  · omega
  · have hnow' : min (t₁.now - a.base) (u64Max - deadlineBias) < deadlineNanos w := hnow; omega

theorem grant_of_allowed (h : allowed a op old new) (hnew : deadlineBias ≤ new) :
    ∃ start ttl, op.grant = some (start, ttl) ∧ Grants a start ttl new := by
  have hne : new ≠ revoked ∧ new ≠ suspended := by
    constructor
    · rintro rfl; exact absurd hnew (by decide)
    · rintro rfl; exact absurd hnew (by decide)
  cases op with
  | activateFrom start ttl | recoverFrom start ttl =>
    rcases h with ⟨_, h⟩ | ⟨_, h⟩
    · exact absurd h hne.1
    · exact ⟨start, ttl, rfl, h⟩
  | renewFrom start ttl =>
    rcases h with ⟨_, h | h⟩
    · exact absurd h hne.2
    · exact ⟨start, ttl, rfl, h⟩
  | revoke => exact absurd h.2 hne.1
  | closeCleanly => exact absurd (lt_of_terminal h.2) (Nat.not_lt.2 hnew)
  | suspendExpiry | suspendAfterGap | isValid => exact absurd h.2 hne.2

/-- No exchange leaves a terminal state. -/
theorem not_terminal_of_allowed (h : allowed a op old new) : ¬Terminal old := by
  have hdeadline : deadlineBias ≤ old → ¬Terminal old := fun hle ht => absurd (lt_of_terminal ht) (Nat.not_lt.2 hle)
  cases op with
  | activateFrom start ttl | recoverFrom start ttl =>
    rcases h with ⟨h, _⟩ | ⟨rfl, _⟩
    · exact h
    · decide
  | renewFrom start ttl | suspendExpiry | suspendAfterGap => exact hdeadline h.1
  | revoke | closeCleanly => exact h.1
  | isValid => exact hdeadline h.1

/-- Only a recovery makes a suspended lease valid. -/
theorem recover_of_allowed (h : allowed a op suspended new) (hnew : new ≠ suspended) (hend : ¬Terminal new) :
    ∃ start ttl, op = .recoverFrom start ttl := by
  have hbias : ¬deadlineBias ≤ suspended := by decide
  cases op with
  | recoverFrom start ttl => exact ⟨start, ttl, rfl⟩
  | activateFrom start ttl =>
    rcases h with ⟨_, rfl⟩ | ⟨h, _⟩
    · exact absurd (.inl rfl) hend
    · exact absurd h (by decide)
  | renewFrom start ttl | suspendExpiry | suspendAfterGap => exact absurd h.1 hbias
  | revoke => exact absurd (.inl h.2) hend
  | closeCleanly => exact absurd h.2 hend
  | isValid => exact absurd h.1 hbias

variable {s : Atomic.Sys Nat Clocks Op Bool} {t₀ : Clocks}

/-- A lease that was over when a call began is not found valid by it. -/
theorem not_ended_before (hinv : Inv (allowed a) (spec a) uninitialized s) {d d' : Done Nat Clocks Op Bool}
    (hd : d ∈ s.done) (hd' : d' ∈ s.done) {t w : Nat} (hload : (t, Obs.loaded w) ∈ d.seen) (hw : deadlineBias ≤ w)
    (hend : SawEnd (d'.seen.map Prod.snd)) : d.began ≤ d'.ended := by
  obtain ⟨hbegan, _, hreal⟩ := (hinv.done d hd).seen _ hload
  obtain ⟨v, hv, hsaw⟩ := hend
  -- the terminal state is there by the end of the other call
  obtain ⟨i, hi, hword⟩ : ∃ i, i ≤ d'.ended ∧ s.words[i]? = some v := by
    rcases hsaw with hsaw | ⟨old, hsaw⟩
    · obtain ⟨⟨i, o⟩, ho, rfl⟩ := mem_map.1 hsaw
      have hbefore : i < d'.ended := (hinv.done d' hd').seen_before _ ho
      exact ⟨i, by omega, ((hinv.done d' hd').seen _ ho).2.2⟩
    · obtain ⟨⟨i, o⟩, ho, rfl⟩ := mem_map.1 hsaw
      have hbefore : i < d'.ended := (hinv.done d' hd').seen_before _ ho
      exact ⟨i + 1, by omega, ((hinv.done d' hd').seen _ ho).2.2⟩
  by_contra hlt
  have hterm : Terminal w := hinv.stable (P := Terminal) (fun _ _ _ ha ho => absurd ho (not_terminal_of_allowed ha))
    (i := i) (j := t) (by omega) hword hreal hv
  exact absurd (lt_of_terminal hterm) (Nat.not_lt.2 hw)

/-- **The lease is found valid only inside a grant.** Whatever the tasks and the clocks do, a call that returns `true`
had a grant that was ahead of both clocks when it read them, no revocation or clean close returned before it began, and
a suspended lease gets a deadline only from a recovery. -/
theorem valid_only_when_granted (h : Reach (step a) anyStep (Atomic.Sys.boot uninitialized t₀) s) :
    (∀ d ∈ s.done, d.op = .isValid → d.result = true →
      (∃ x ∈ s.swaps, ∃ start ttl, x.time < d.ended ∧ x.op.grant = some (start, ttl) ∧ Grants a start ttl x.new ∧
        ∃ t₁ t₂, .sampled t₁ ∈ d.seen.map Prod.snd ∧ .sampled t₂ ∈ d.seen.map Prod.snd ∧
          t₁.now < start + ttl ∧ t₂.wall < a.wallBase + ((start + ttl - a.base : Nat) : Int)) ∧
      ∀ d' ∈ s.done, d'.op = .revoke ∨ d'.op = .closeCleanly → d.began ≤ d'.ended) ∧
    ∀ i j w, i ≤ j → s.words[i]? = some suspended → s.words[j]? = some w → deadlineBias ≤ w →
      ∃ x ∈ s.swaps, i ≤ x.time ∧ x.time < j ∧ ∃ start ttl, x.op = .recoverFrom start ttl := by
  have hinv : Inv (allowed a) (spec a) uninitialized s := reach_inv body_swaps body_ensures h
  refine ⟨fun d hd hop hres => ?_, fun i j w hij hi hj hw => ?_⟩
  · have hspec := (hinv.done d hd).result
    rw [hop] at hspec
    obtain ⟨w, t₁, t₂, hw, hload, h₁, h₂, hahead⟩ := hspec hres
    obtain ⟨⟨t, o⟩, ho, rfl⟩ := mem_map.1 hload
    obtain ⟨_, _, hreal⟩ := (hinv.done d hd).seen _ ho
    refine ⟨?_, fun d' hd' hop' => not_ended_before hinv hd hd' ho hw ?_⟩
    · rcases hinv.origin hreal with rfl | ⟨x, hx, htime, rfl⟩
      · exact absurd hw (by decide)
      obtain ⟨start, ttl, hgrant, hdeadline⟩ := grant_of_allowed (hinv.swaps x hx).2 hw
      have hbefore : t < d.ended := (hinv.done d hd).seen_before _ ho
      exact ⟨x, hx, start, ttl, by omega, hgrant, hdeadline, t₁, t₂, h₁, h₂, hahead.grant hdeadline⟩
    · have hspec' := (hinv.done d' hd').result
      rcases hop' with hop' | hop'
      · rw [hop'] at hspec'; exact hspec'
      · rw [hop'] at hspec'; exact hspec'
  · have hnot : ¬(w = suspended ∨ Terminal w) := by
      rintro (rfl | hterm)
      · exact absurd hw (by decide)
      · exact absurd (lt_of_terminal hterm) (Nat.not_lt.2 hw)
    obtain ⟨x, hx, hi', hj', hold, hnew⟩ :=
      hinv.crossing (P := fun w => w = suspended ∨ Terminal w) hij hi hj (.inl rfl) hnot
    refine ⟨x, hx, hi', hj', ?_⟩
    have hallowed := (hinv.swaps x hx).2
    rcases hold with hsus | hterm
    · rw [hsus] at hallowed
      exact recover_of_allowed hallowed (fun h => hnew (.inl h)) fun h => hnew (.inr h)
    · exact absurd hterm (not_terminal_of_allowed hallowed)

end Result

/-- Both clocks start at 0. -/
def sampleAnchors : Anchors := ⟨0, 0, 1000, 1000⟩

/-- A call and its first `n` accesses. -/
def callFor (tid : Nat) (op : Op) (n : Nat) : List (Atomic.Action Clocks Op) := .call tid op :: replicate n (.run tid)

/-- A lease of 10 nanoseconds is activated and found valid at 3; at 12 a call finds it expired and suspends it, and a
recovery up to 22 makes it valid again. -/
def recoveredRun : List (Atomic.Action Clocks Op) :=
  callFor 0 (.activateFrom 0 10) 7 ++ .env ⟨3, 3⟩ :: callFor 1 .isValid 4 ++ .env ⟨12, 2⟩ :: callFor 2 .isValid 7 ++
    callFor 3 (.recoverFrom 12 10) 6 ++ callFor 4 .isValid 4

theorem valid_only_when_granted_recovered :
    ∃ s, Reach (step sampleAnchors) anyStep (Atomic.Sys.boot uninitialized ⟨0, 0⟩) s ∧
    (∃ d ∈ s.done, d.op = .isValid ∧ d.result = true ∧ ∃ x ∈ s.swaps, x.time < d.ended ∧ x.op.grant.isSome) ∧
      ∃ x ∈ s.swaps, 22 ≤ x.time ∧ ∃ start ttl, x.op = .recoverFrom start ttl := by
  obtain ⟨s, hr, ⟨d, hd, hop, hres⟩, hsus, hlast⟩ : ∃ s,
      Reach (step sampleAnchors) anyStep (Atomic.Sys.boot uninitialized ⟨0, 0⟩) s ∧
      (∃ d ∈ s.done, d.op = .isValid ∧ d.result = true) ∧ s.words[22]? = some suspended ∧ s.words[35]? = some 26 :=
    ⟨_, reach_of_run .init (l := recoveredRun) rfl, by decide +kernel, by decide +kernel, by decide +kernel⟩
  obtain ⟨hgrant, hrecover⟩ := valid_only_when_granted hr
  obtain ⟨⟨x, hx, start, ttl, htime, hxg, _⟩, _⟩ := hgrant d hd hop hres
  obtain ⟨y, hy, hi, _, hrec⟩ := hrecover 22 35 26 (by decide) hsus hlast (by decide)
  exact ⟨s, hr, ⟨d, hd, hop, hres, x, hx, htime, by rw [hxg]; rfl⟩, y, hy, hi, hrec⟩

/-- A renewal from 5 up to 25 exchanges the deadline 10, and the clocks go on to 12. A call then finds the lease valid,
and the renewal sees that the deadline it has replaced is past and suspends the lease. -/
def crossedRun : List (Atomic.Action Clocks Op) :=
  callFor 0 (.activateFrom 0 10) 7 ++ .env ⟨5, 5⟩ :: callFor 1 (.renewFrom 5 20) 4 ++ .env
    ⟨12, 12⟩ :: callFor 2 .isValid 4 ++ replicate 5 (.run 1)

/-- The lease is found valid at 12, when the only grant that returned `true` has expired. -/
theorem valid_by_failed_renewal :
    (run (guarded (step sampleAnchors) anyStep) (Atomic.Sys.boot uninitialized ⟨0, 0⟩) crossedRun).map
    (fun s => (s.done.map fun d => (d.op, d.result), s.env.now, s.word)) =
      some ([(.activateFrom 0 10, true), (.isValid, true), (.renewFrom 5 20, false)], 12, suspended) := by
  decide +kernel

end ZeroFS.Lease
