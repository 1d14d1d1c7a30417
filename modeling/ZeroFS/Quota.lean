import ZeroFS.Lib.Machine
import ZeroFS.Types

/-!
# The logical quota

`LogicalQuota` holds the committed and pending byte counts behind one mutex, so each method is one step. A reservation
moves to `committed` when its transaction commits, or is refunded when it is dropped while provisional. Arithmetic that
leaves `u64` poisons the ledger: every later reservation fails and no counter moves.
-/

namespace ZeroFS

open Machine

/-! ## The ledger's methods -/

structure QuotaCounters where
  committed : Nat
  pending : Nat
  poisoned : Option String
  deriving DecidableEq, Repr

structure LogicalQuota where
  maxBytes : Nat
  inner : QuotaCounters
  deriving DecidableEq, Repr

inductive ReservationState
  | provisional | accepted | canonical | terminalRetained | released
  deriving DecidableEq, Repr

structure ProvisionalQuotaReservation where
  bytes : Nat
  state : ReservationState
  deriving DecidableEq, Repr

/-- `QuotaCounters::poison`: the first reason stays. -/
def QuotaCounters.poison (c : QuotaCounters) (reason : String) : QuotaCounters :=
  if c.poisoned.isNone then { c with poisoned := some reason } else c

namespace LogicalQuota

def new (maxBytes committed : Nat) : LogicalQuota := ⟨maxBytes, ⟨committed, 0, none⟩⟩

def poison (q : LogicalQuota) (reason : String) : LogicalQuota := { q with inner := q.inner.poison reason }

/-- Committed plus pending, the size every growth request is measured against. -/
def visible (q : LogicalQuota) : Nat := q.inner.committed + q.inner.pending

def visibleBytes (q : LogicalQuota) : Nat × LogicalQuota :=
  match checkedAdd q.inner.committed q.inner.pending with
  | some v => (v, q)
  | none => (u64Max, q.poison "visible size overflow")

def reserve (q : LogicalQuota) (bytes : Nat) : Except FsError ProvisionalQuotaReservation × LogicalQuota :=
  if q.inner.poisoned.isSome then (.error .ioError, q)
  else if bytes = 0 then (.ok ⟨0, .provisional⟩, q)
  else match checkedAdd q.inner.committed q.inner.pending with
  | none => (.error .ioError, q.poison "visible size overflow")
  | some visible =>
    match checkedAdd visible bytes with
    | none => (.error .ioError, q.poison "reservation overflow")
    | some next =>
      if q.maxBytes < next then (.error .noSpace, q)
      else match checkedAdd q.inner.pending bytes with
      | none => (.error .ioError, q.poison "pending overflow")
      | some pending => (.ok ⟨bytes, .provisional⟩, { q with inner := { q.inner with pending } })

def releaseCommitted (q : LogicalQuota) (bytes : Nat) : LogicalQuota :=
  if bytes = 0 ∨ q.inner.poisoned.isSome then q
  else match checkedSub q.inner.committed bytes with
  | some committed => { q with inner := { q.inner with committed } }
  | none => q.poison "committed underflow"

def releasePending (q : LogicalQuota) (bytes : Nat) : LogicalQuota :=
  if bytes = 0 ∨ q.inner.poisoned.isSome then q
  else match checkedSub q.inner.pending bytes with
  | some pending => { q with inner := { q.inner with pending } }
  | none => q.poison "pending underflow"

def transferToCommitted (q : LogicalQuota) (bytes : Nat) : LogicalQuota :=
  if bytes = 0 ∨ q.inner.poisoned.isSome then q
  else match checkedSub q.inner.pending bytes, checkedAdd q.inner.committed bytes with
  | some pending, some committed => { q with inner := { q.inner with pending, committed } }
  | _, _ => q.poison "canonical transfer overflow or underflow"

end LogicalQuota

namespace ProvisionalQuotaReservation

def accept (r : ProvisionalQuotaReservation) : ProvisionalQuotaReservation :=
  if r.state = .provisional then { r with state := .accepted } else r

/-- Transfer the bytes unless an earlier call already settled the reservation. -/
def canonical (r : ProvisionalQuotaReservation) (q : LogicalQuota) : ProvisionalQuotaReservation × LogicalQuota :=
  ({ r with state := .canonical },
    if r.state = .provisional ∨ r.state = .accepted then q.transferToCommitted r.bytes else q)

def retainTerminal (r : ProvisionalQuotaReservation) : ProvisionalQuotaReservation :=
  { r with state := .terminalRetained }

/-- `Drop`: only a provisional reservation gives its bytes back. -/
def drop (r : ProvisionalQuotaReservation) (q : LogicalQuota) : LogicalQuota :=
  if r.state = .provisional then q.releasePending r.bytes else q

end ProvisionalQuotaReservation

/-! ## What each method does -/

section Specs

variable (q : LogicalQuota)

@[simp] theorem QuotaCounters.poison_committed (c : QuotaCounters) (r : String) :
    (c.poison r).committed = c.committed := by
  unfold QuotaCounters.poison; split <;> rfl

@[simp] theorem QuotaCounters.poison_pending (c : QuotaCounters) (r : String) : (c.poison r).pending = c.pending := by
  unfold QuotaCounters.poison; split <;> rfl

@[simp] theorem LogicalQuota.poison_visible (r : String) : (q.poison r).visible = q.visible := by
  simp [LogicalQuota.visible, LogicalQuota.poison]

variable {q}

/-- **The four outcomes of a reservation** on a healthy ledger whose visible size fits `u64`. -/
theorem LogicalQuota.reserve_cases (hp : q.inner.poisoned = none) (hv : q.visible ≤ u64Max) (bytes : Nat) :
    (bytes = 0 ∧ q.reserve bytes = (.ok ⟨0, .provisional⟩, q)) ∨
    (bytes ≠ 0 ∧ u64Max < q.visible + bytes ∧ q.reserve bytes = (.error .ioError, q.poison "reservation overflow")) ∨
    (bytes ≠ 0 ∧ q.visible + bytes ≤ u64Max ∧ q.maxBytes < q.visible + bytes ∧
      q.reserve bytes = (.error .noSpace, q)) ∨
    (bytes ≠ 0 ∧ q.visible + bytes ≤ u64Max ∧ q.visible + bytes ≤ q.maxBytes ∧
      q.reserve bytes = (.ok ⟨bytes, .provisional⟩, { q with inner.pending := q.inner.pending + bytes })) := by
  by_cases h0 : bytes = 0
  · exact .inl ⟨h0, by simp [reserve, hp, h0]⟩
  have hvis : checkedAdd q.inner.committed q.inner.pending = some q.visible := checkedAdd_of_le hv
  rcases Nat.lt_or_ge u64Max (q.visible + bytes) with hov | hfit
  · exact .inr (.inl ⟨h0, hov, by simp [reserve, hp, h0, hvis, checkedAdd_of_lt hov]⟩)
  rcases Nat.lt_or_ge q.maxBytes (q.visible + bytes) with hmax | hmax
  · exact .inr (.inr (.inl ⟨h0, hfit, hmax, by simp [reserve, hp, h0, hvis, checkedAdd_of_le hfit, hmax]⟩))
  have hpend : checkedAdd q.inner.pending bytes = some (q.inner.pending + bytes) :=
    checkedAdd_of_le (by unfold visible at hfit; omega)
  exact .inr (.inr (.inr ⟨h0, hfit, hmax, by
    simp [reserve, hp, h0, hvis, checkedAdd_of_le hfit, Nat.not_lt.2 hmax, hpend]⟩))

theorem LogicalQuota.reserve_of_poisoned (hp : q.inner.poisoned ≠ none) (bytes : Nat) :
    q.reserve bytes = (.error .ioError, q) := by
  simp [reserve, Option.isSome_iff_ne_none, hp]

theorem LogicalQuota.releaseCommitted_visible_le (b : Nat) : (q.releaseCommitted b).visible ≤ q.visible := by
  unfold releaseCommitted
  split
  · exact le_rfl
  split
  · rename_i c hc
    have := (checkedSub_eq_some.1 hc).2
    simp only [visible]; omega
  · simp

theorem LogicalQuota.releasePending_visible_le (b : Nat) : (q.releasePending b).visible ≤ q.visible := by
  unfold releasePending
  split
  · exact le_rfl
  split
  · rename_i c hc
    have := (checkedSub_eq_some.1 hc).2
    simp only [visible]; omega
  · simp

theorem LogicalQuota.transferToCommitted_visible (b : Nat) : (q.transferToCommitted b).visible = q.visible := by
  unfold transferToCommitted
  split
  · rfl
  split
  · rename_i p c hp hc
    have h1 := checkedSub_eq_some.1 hp
    have h2 := checkedAdd_eq_some.1 hc
    simp only [visible]; omega
  · simp

@[simp] theorem LogicalQuota.releaseCommitted_maxBytes (b : Nat) : (q.releaseCommitted b).maxBytes = q.maxBytes := by
  unfold releaseCommitted; split
  · rfl
  · split <;> rfl

@[simp] theorem LogicalQuota.releasePending_maxBytes (b : Nat) : (q.releasePending b).maxBytes = q.maxBytes := by
  unfold releasePending; split
  · rfl
  · split <;> rfl

@[simp] theorem LogicalQuota.transferToCommitted_maxBytes (b : Nat) :
    (q.transferToCommitted b).maxBytes = q.maxBytes := by
  unfold transferToCommitted; split
  · rfl
  · split <;> rfl

theorem LogicalQuota.reserve_visible_le (hv : q.visible ≤ u64Max) (b : Nat) :
    (q.reserve b).2.visible ≤ u64Max ∧ (q.reserve b).2.maxBytes = q.maxBytes := by
  by_cases hp : q.inner.poisoned = none
  · rcases reserve_cases hp hv b with ⟨_, h⟩ | ⟨_, _, h⟩ | ⟨_, _, _, h⟩ | ⟨_, hfit, _, h⟩ <;> rw [h]
    · exact ⟨hv, rfl⟩
    · exact ⟨by simpa using hv, rfl⟩
    · exact ⟨hv, rfl⟩
    · refine ⟨?_, rfl⟩
      simp only [visible] at hfit ⊢; omega
  · rw [reserve_of_poisoned hp]; exact ⟨hv, rfl⟩

end Specs

/-! ## The ledger as a machine -/

/-- The quota and the reservations handed out so far. -/
structure Ledger where
  quota : LogicalQuota
  reservations : List ProvisionalQuotaReservation
  deriving DecidableEq, Repr

inductive LedgerCall
  | reserve (bytes : Nat)
  | accept (i : Nat)
  | canonical (i : Nat)
  | retainTerminal (i : Nat)
  | drop (i : Nat)
  | releaseCommitted (bytes : Nat)
  | visibleBytes
  deriving DecidableEq, Repr

namespace Ledger

def new (maxBytes committed : Nat) : Ledger := ⟨.new maxBytes committed, []⟩

/-- One method call. Byte counts are `u64` arguments, and `i` names a reservation that is still held. -/
def step (l : Ledger) : LedgerCall → Option Ledger
  | .reserve bytes =>
    if bytes ≤ u64Max then
      match l.quota.reserve bytes with
      | (.ok r, q) => some ⟨q, l.reservations ++ [r]⟩
      | (.error _, q) => some { l with quota := q }
    else none
  | .accept i => l.reservations[i]?.map fun r => { l with reservations := l.reservations.set i r.accept }
  | .canonical i => l.reservations[i]?.map fun r =>
      ⟨(r.canonical l.quota).2, l.reservations.set i (r.canonical l.quota).1⟩
  | .retainTerminal i =>
    l.reservations[i]?.map fun r => { l with reservations := l.reservations.set i r.retainTerminal }
  | .drop i => l.reservations[i]?.map fun r => ⟨r.drop l.quota, l.reservations.eraseIdx i⟩
  | .releaseCommitted bytes => if bytes ≤ u64Max then some { l with quota := l.quota.releaseCommitted bytes } else none
  | .visibleBytes => some { l with quota := l.quota.visibleBytes.2 }

theorem step_quota {l l' : Ledger} {c : LedgerCall} (h : step l c = some l') :
    (∃ b, l'.quota = (l.quota.reserve b).2) ∨ (∃ b, l'.quota = l.quota.transferToCommitted b) ∨
    (∃ b, l'.quota = l.quota.releasePending b) ∨ (∃ b, l'.quota = l.quota.releaseCommitted b) ∨
    l'.quota = l.quota.visibleBytes.2 ∨ l'.quota = l.quota := by
  cases c with
  | reserve bytes =>
    simp only [step] at h
    split at h
    · split at h <;> cases h <;> exact .inl ⟨bytes, by simp [*]⟩
    · cases h
  | accept i | retainTerminal i => obtain ⟨r, _, rfl⟩ := Option.map_eq_some_iff.1 h; simp
  | canonical i =>
    obtain ⟨r, _, rfl⟩ := Option.map_eq_some_iff.1 h
    simp only [ProvisionalQuotaReservation.canonical]
    split
    · exact .inr (.inl ⟨_, rfl⟩)
    · simp
  | drop i =>
    obtain ⟨r, _, rfl⟩ := Option.map_eq_some_iff.1 h
    simp only [ProvisionalQuotaReservation.drop]
    split
    · exact .inr (.inr (.inl ⟨_, rfl⟩))
    · simp
  | releaseCommitted bytes =>
    simp only [step] at h
    split at h <;> cases h
    exact .inr (.inr (.inr (.inl ⟨bytes, rfl⟩)))
  | visibleBytes => cases h; simp

/-- The visible size and the limit are `u64` values. -/
def Fits (l : Ledger) : Prop := l.quota.visible ≤ u64Max ∧ l.quota.maxBytes ≤ u64Max

theorem step_fits {l l' : Ledger} {c : LedgerCall} (hl : Fits l) (h : step l c = some l') : Fits l' := by
  obtain ⟨hv, hm⟩ := hl
  rcases step_quota h with ⟨b, e⟩ | ⟨b, e⟩ | ⟨b, e⟩ | ⟨b, e⟩ | e | e <;> unfold Fits <;> rw [e]
  · have := LogicalQuota.reserve_visible_le hv b; exact ⟨this.1, this.2 ▸ hm⟩
  · rw [LogicalQuota.transferToCommitted_visible]; exact ⟨hv, by simpa using hm⟩
  · exact ⟨le_trans (LogicalQuota.releasePending_visible_le b) hv, by simpa using hm⟩
  · exact ⟨le_trans (LogicalQuota.releaseCommitted_visible_le b) hv, by simpa using hm⟩
  · have : l.quota.visibleBytes.2 = l.quota := by
      unfold LogicalQuota.visibleBytes
      rw [checkedAdd_of_le hv]
    rw [this]; exact ⟨hv, hm⟩
  · exact ⟨hv, hm⟩

theorem fits_of_reach {maxBytes committed : Nat} (hm : maxBytes ≤ u64Max) (hc : committed ≤ u64Max) {l : Ledger}
    (h : Reach step anyStep (new maxBytes committed) l) : Fits l :=
  h.invariant (I := Fits) ⟨by simpa [new, LogicalQuota.new, LogicalQuota.visible] using hc, hm⟩
    fun _ _ _ hl _ hs => step_fits hl hs

end Ledger

/-! ## Refused growth -/

/-- **A refused reservation.** In every reachable healthy ledger a refusal leaves both counters alone. When the request
keeps the visible size inside `u64` the refusal is `NoSpace` and the whole ledger is unchanged, so every request that
fits under the limit is still granted; only a request past `u64::MAX` poisons the ledger, with `IoError`. -/
theorem refused_reserve {maxBytes committed : Nat} (hm : maxBytes ≤ u64Max) (hc : committed ≤ u64Max) {l : Ledger}
    (h : Reach Ledger.step anyStep (.new maxBytes committed) l) (hp : l.quota.inner.poisoned = none) {bytes : Nat}
    {e : FsError} {q : LogicalQuota} (he : l.quota.reserve bytes = (.error e, q)) :
    q.inner.committed = l.quota.inner.committed ∧ q.inner.pending = l.quota.inner.pending ∧
    (l.quota.visible + bytes ≤ u64Max → e = .noSpace ∧ q = l.quota ∧
      ∀ b, l.quota.visible + b ≤ l.quota.maxBytes → (q.reserve b).1 = .ok ⟨b, .provisional⟩) ∧
    (u64Max < l.quota.visible + bytes → e = .ioError ∧ q = l.quota.poison "reservation overflow") := by
  obtain ⟨hv, hmax⟩ := Ledger.fits_of_reach hm hc h
  rcases LogicalQuota.reserve_cases hp hv bytes with ⟨_, h'⟩ | ⟨_, hov, h'⟩ | ⟨_, hfit, _, h'⟩ | ⟨_, _, _, h'⟩ <;>
    rw [h'] at he <;> cases he
  · exact ⟨by simp [LogicalQuota.poison], by simp [LogicalQuota.poison], fun hle => by omega, fun _ => ⟨rfl, rfl⟩⟩
  refine ⟨rfl, rfl, fun _ => ⟨rfl, rfl, fun b hb => ?_⟩, fun hlt => by omega⟩
  -- a request under the limit fits `u64`, so neither refusal of `reserve_cases` applies
  rcases LogicalQuota.reserve_cases hp hv b with ⟨h0, h''⟩ | ⟨_, h1, _⟩ | ⟨_, _, h1, _⟩ | ⟨_, _, _, h''⟩
  · rw [h'', h0]
  · omega
  · omega
  · rw [h'']

/-- Four bytes have become canonical, two are pending and one was given back: a request of two bytes is refused, and one
byte is still granted. -/
theorem refused_reserve_held : ∃ l, run (guarded Ledger.step anyStep) (.new 10 3)
      [.reserve 4, .accept 0, .reserve 2, .canonical 0, .reserve 1, .drop 2] = some l ∧
    l.quota.inner.committed = 7 ∧ l.quota.inner.pending = 2 ∧ l.quota.reserve 2 = (.error .noSpace, l.quota) ∧
    (l.quota.reserve 1).1 = .ok ⟨1, .provisional⟩ := by
  obtain ⟨l, hl, hc, hp, hmax, hok, hno⟩ : ∃ l, run (guarded Ledger.step anyStep) (.new 10 3)
      [.reserve 4, .accept 0, .reserve 2, .canonical 0, .reserve 1, .drop 2] = some l ∧ l.quota.inner.committed = 7 ∧
      l.quota.inner.pending = 2 ∧ l.quota.maxBytes = 10 ∧ l.quota.inner.poisoned = none ∧
      l.quota.reserve 2 = (.error .noSpace, l.quota) := ⟨_, rfl, rfl, rfl, rfl, rfl, rfl⟩
  have hv : l.quota.visible = 9 := by rw [LogicalQuota.visible, hc, hp]
  obtain ⟨-, -, hnoSpace, -⟩ := refused_reserve (by decide) (by decide) (reach_of_run .init hl) hok hno
  exact ⟨l, hl, hc, hp, hno, (hnoSpace (by rw [hv]; decide)).2.2 1 (by rw [hv, hmax])⟩

/-- One byte committed and a request of `u64::MAX` bytes: the refusal poisons the ledger, and a request of one byte,
which fits under the limit, is refused from then on. -/
theorem refused_reserve_poisons : ∃ l : Ledger, Reach Ledger.step anyStep (.new u64Max 1) l ∧
    l.quota.inner.poisoned = none ∧ l.quota.visible + 1 ≤ l.quota.maxBytes ∧
    (l.quota.reserve u64Max).1 = .error .ioError ∧ (l.quota.reserve u64Max).2.inner.poisoned ≠ l.quota.inner.poisoned ∧
    ((l.quota.reserve u64Max).2.reserve 1).1 = .error .ioError :=
  ⟨_, .init, rfl, by decide, by decide, by decide, by decide⟩

end ZeroFS
