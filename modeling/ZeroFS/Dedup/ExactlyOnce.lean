import ZeroFS.Dedup.Counted

/-!
# Exactly-once admission

At most one caller holds an unpublished claim of an operation, and a live or pending result stops fresh callers. Such a
result goes only with the end of its own materialisation, or with its last replay guard after the deadline, where the
pending flag is not looked at.
-/

namespace ZeroFS.Dedup

open Machine Table Option

open Ledger (Result)

variable {A : Type} {s s' : Sys A} {op op' : OpId} {r : TimedResult A} {l : Ledger A} {now : Nat}

/-- The result is unexpired, or its materialisation is pending. -/
def Held (r : TimedResult A) (now : Nat) : Prop := now < r.expiresAt ∨ r.materializationPending = true

/-- The published result is still there. -/
def Kept (l : Ledger A) (op : OpId) (r : TimedResult A) : Prop :=
  ∃ r', l.Result op r' ∧ r'.value = r.value ∧ r'.serial = r.serial

theorem Kept.refl (h : l.Result op r) : Kept l op r := ⟨r, h, rfl, rfl⟩

theorem Kept.put {r' : TimedResult A} {l' : Ledger A} (hentries : l'.entries = l.entries.put op (.complete r'))
    (hv : r'.value = r.value) (hs : r'.serial = r.serial) : Kept l' op r :=
  ⟨r', by rw [Result, hentries, get_put_self], hv, hs⟩

theorem not_removable (h : Held r now) : ¬Ledger.Removable r now := by
  rintro ⟨hexp, _, hpend⟩
  rcases h with h | h
  · omega
  · rw [hpend] at h; cases h

theorem Held.stays {l' : Ledger A} {now' : Nat} (hh : Held r now) (h : l.Result op r)
    (hl : l.Expires l' op' now') (hle : now' ≤ now) : l'.Result op r := by
  rcases hl with ⟨r', hold, hr, rfl⟩ | rfl
  · rw [Result, Ledger.removeResult_entries, get_del_ne]
    · exact h
    rintro rfl
    cases h.symm.trans hold
    exact not_removable hh ⟨hr.1.trans hle, hr.2⟩
  · exact h

theorem removeTarget_held (h : l.Result op r) (hh : Held r now) (op' : OpId) :
    (l.removeTargetIfExpiredAndUnpinned op' now).Result op r :=
  hh.stays h (l.expires_removeTarget op' now) le_rfl

theorem reap_held (hh : Held r now) : ∀ (batch : List ScheduledExpiry) {l : Ledger A},
    l.Result op r → (∀ e ∈ batch, e.expiresAt ≤ now) →
      (l.reapExpiredBatch batch).Result op r
  | [], _, h, _ => h
  | e :: batch, l, h, hbatch =>
    reap_held hh batch (l := l.reapExpired e) (hh.stays h (l.expires_reap e) (hbatch e List.mem_cons_self))
      fun e' he' => hbatch e' (List.mem_cons_of_mem _ he')

/-- The last replay guard of the result is dropped after its deadline. -/
def Sys.drops (s : Sys A) (op : OpId) (r : TimedResult A) : Action A → Bool
  | .dropGuard g read => s.guards.get g = some ⟨op, none⟩ && r.replayPins = 1 && r.expiresAt ≤ read
  | _ => false

/-- The materialisation of the result ends: it is retracted, or its deadline has passed. -/
def Sys.ends (s : Sys A) (op : OpId) (r : TimedResult A) : Action A → Bool
  | .finishAcceptedWrite w materialized read =>
    s.acceptedWrites.get w = some op && hasOpId op && r.materializationPending && (!materialized || r.expiresAt ≤ read)
  | _ => false

section

variable {g retention read : Nat} {materialized : Bool} {r' : TimedResult A} {a : Action A}

theorem admit_held {retryOrigin : Option Nat} (h : s.ledger.Result op r) (hh : Held r s.now)
    (hs : s.admitCaller g op' retryOrigin = some s') :
    Kept s'.ledger op r ∧ ∀ g' c, s'.guards.get g' = some ⟨op, some c⟩ → s.guards.get g' = some ⟨op, some c⟩ := by
  have hheld := removeTarget_held h hh op'
  rcases Sys.admitCaller_cases hs with rfl | rfl | ⟨-, ⟨r', hold, -, rfl⟩ | ⟨hnone, rfl⟩⟩
  · exact ⟨.refl h, fun _ _ hg => hg⟩
  · exact ⟨.refl hheld, fun _ _ hg => hg⟩
  · constructor
    · by_cases hop : op' = op
      · subst hop
        cases hheld.symm.trans hold
        exact Kept.put rfl rfl rfl
      · exact .refl ((get_put_ne (Ne.symm hop)).trans hheld)
    · intro g' c hg
      rcases cases_put hg with ⟨-, hw⟩ | ⟨-, hg⟩
      · cases hw
      · exact hg
  · have hop : op' ≠ op := by
      rintro rfl
      cases hheld.symm.trans hnone
    refine ⟨.refl ((get_put_ne (Ne.symm hop)).trans hheld), fun g' c hg => ?_⟩
    rcases cases_put hg with ⟨-, hw⟩ | ⟨-, hg⟩
    · cases hw; exact absurd rfl hop
    · exact hg

theorem record_held {result : DedupResult A} {writeRequest : Option WriteRequestReplay} {pending : Bool}
    (h : s.ledger.Result op r) (hh : Held r s.now) :
    Kept (s.record retention op' result writeRequest pending).ledger op r := by
  have hheld := removeTarget_held h hh op'
  by_cases hop : hasOpId op' = true
  · have hne : ∀ x, op' ≠ op →
        (s.ledger.recordEntryWithWriteRequest op' result writeRequest pending s.now retention s.nextSerial).entries =
        (s.ledger.removeTargetIfExpiredAndUnpinned op' s.now).entries.put op' (.complete x) →
        Kept (s.record retention op' result writeRequest pending).ledger op r := by
      intro x hne hentries
      refine .refl ?_
      show (s.ledger.recordEntryWithWriteRequest op' result writeRequest pending s.now retention
        s.nextSerial).entries.get op = _
      rw [hentries, get_put_ne (Ne.symm hne)]
      exact hheld
    by_cases heq : op' = op <;>
      rcases s.ledger.record_cases result writeRequest pending s.now retention s.nextSerial hop with
      ⟨r', hold, hentries⟩ | ⟨hno, hentries⟩
    · subst heq
      cases hheld.symm.trans hold
      exact Kept.put hentries rfl rfl
    · subst heq; exact absurd hheld (hno r)
    · exact hne _ heq hentries
    · exact hne _ heq hentries
  · have hledger : (s.record retention op' result writeRequest pending).ledger = s.ledger := if_neg hop
    rw [hledger]
    exact .refl h

theorem dropPending_kept {p : Nat} {w : PendingWriteRequest} (h : Kept s.ledger op r) :
    Kept (s.dropPending p w).ledger op r := by
  obtain ⟨r', hr', hv, hs⟩ := h
  refine ⟨r', ?_, hv, hs⟩
  unfold Sys.dropPending
  split
  · exact (s.ledger.release_complete _ _ _ _).2 hr'
  · exact hr'

theorem not_kept_of_none (h : l.entries.get op = none) : ¬Kept l op r := fun ⟨_, hr', _⟩ => nomatch h.symm.trans hr'

section

variable (h : l.Result op r)
include h

/-- Dropping a replay guard keeps the result unless it was the last one and the deadline has passed. -/
theorem unpin_kept (hpins : op' = op → r.replayPins ≠ 0) :
    Kept (l.unpin op' read) op r ↔ ¬(op' = op ∧ r.replayPins = 1 ∧ r.expiresAt ≤ read) := by
  rcases l.unpin_cases op' read with ⟨r', hold, hp, hcase⟩ | ⟨heq, hno⟩
  · by_cases hop : op' = op
    · subst hop
      cases h.symm.trans hold
      rcases hcase with ⟨hone, hexp, hdel⟩ | ⟨hmany, hput⟩
      · refine ⟨fun hk => absurd hk (not_kept_of_none ?_), fun hn => absurd ⟨rfl, hone, hexp⟩ hn⟩
        rw [hdel]
        exact get_del_self _ _
      · exact ⟨fun _ hn => hmany hn.2, fun _ => Kept.put hput rfl rfl⟩
    · have hother : (l.unpin op' read).Result op r := by
        rcases hcase with ⟨_, _, hdel⟩ | ⟨_, hput⟩
        · rw [Result, hdel, get_del_ne (Ne.symm hop)]; exact h
        · rw [Result, hput, get_put_ne (Ne.symm hop)]; exact h
      exact ⟨fun _ hn => hop hn.1, fun _ => .refl hother⟩
  · rw [heq]
    refine ⟨fun _ hn => ?_, fun _ => .refl h⟩
    obtain ⟨rfl, hone, _⟩ := hn
    have := hno r h
    omega

/-- Finishing an accepted write keeps the result unless its materialisation ends with it. -/
theorem finish_kept
    (hends : ¬(op' = op ∧ hasOpId op = true ∧ r.materializationPending = true ∧
      (materialized = false ∨ r.expiresAt ≤ read))) : Kept (l.finishAcceptedWrite op' materialized read) op r := by
  rcases l.finish_cases op' materialized read with ⟨r', hold, hnz, hpend, hcase⟩ | ⟨heq, _⟩
  · by_cases hop : op' = op
    · subst hop
      cases h.symm.trans hold
      rcases hcase with ⟨_, hexp, _⟩ | ⟨_, hput⟩ | ⟨hmat, _, _⟩
      · refine absurd ⟨rfl, hnz, hpend, ?_⟩ hends
        cases materialized with
        | true => exact .inr (hexp rfl)
        | false => exact .inl rfl
      · exact Kept.put hput rfl rfl
      · exact absurd ⟨rfl, hnz, hpend, .inl hmat⟩ hends
    · refine .refl ?_
      rcases hcase with ⟨_, _, hdel⟩ | ⟨_, hput⟩ | ⟨_, _, hput⟩
      · rw [Result, hdel, get_del_ne (Ne.symm hop)]; exact h
      · rw [Result, hput, get_put_ne (Ne.symm hop)]; exact h
      · rw [Result, hput, get_put_ne (Ne.symm hop)]; exact h
  · rw [heq]; exact .refl h

/-- When the materialisation ends, what is still stored is neither unexpired nor pending. -/
theorem finish_not_held (hread : read ≤ now) (hop : hasOpId op = true) (hpend : r.materializationPending = true)
    (hlast : materialized = false ∨ r.expiresAt ≤ read)
    (h' : (l.finishAcceptedWrite op materialized read).Result op r') : ¬Held r' now := by
  rcases l.finish_cases op materialized read with ⟨r₀, hold, _, _, hcase⟩ | ⟨_, hno⟩
  · cases h.symm.trans hold
    rcases hcase with ⟨_, _, hdel⟩ | ⟨rfl, hput⟩ | ⟨_, _, hput⟩
    · rw [Result, hdel, get_del_self] at h'; cases h'
    · rw [Result, hput, get_put_self] at h'
      cases h'
      rintro (hlt | hp)
      · rcases hlast with hf | hle
        · cases hf
        · dsimp only at hlt; omega
      · cases hp
    · rw [Result, hput, get_put_self] at h'
      cases h'
      rintro (hlt | hp)
      · dsimp only at hlt; omega
      · cases hp
  · have := hno r h; rw [hop, hpend] at this; cases this

end

theorem same_guards (hs : s.step retention a = some s')
    (ha : ∀ g op retry epoch, a ≠ .attempt g op retry epoch) (ha' : ∀ g op, a ≠ .reserveInitial g op) {w : Guard}
    (hg : s'.guards.get g = some w) : s.guards.get g = some w := by
  cases a with
  | attempt g' op retry epoch => exact absurd rfl (ha g' op retry epoch)
  | reserveInitial g' op => exact absurd rfl (ha' g' op)
  | stageWriteRequest p op request | beginAcceptedWrite v op result request =>
    obtain ⟨-, rfl⟩ := of_guard_not hs
    exact hg
  | recordEntry op result writeRequest => cases hs; exact hg
  | recordEntryWithPendingWrite p result | dropPending p =>
    obtain ⟨v, _, rfl⟩ := map_eq_some_iff.1 hs
    exact hg
  | finishAcceptedWrite v materialized read =>
    obtain ⟨op, _, rfl⟩ := map_eq_some_iff.1 (ite_none_right_eq_some.1 hs).2
    exact hg
  | dropGuard g' read =>
    obtain ⟨v, _, rfl⟩ := map_eq_some_iff.1 (ite_none_right_eq_some.1 hs).2
    exact (of_del hg).2
  | reap batch | armPromotionRetryGraceUntil epoch deadline read =>
    obtain ⟨-, rfl⟩ := of_guard hs
    exact hg
  | _ => cases hs; exact hg

theorem step_kept (hinv : Inv s) (hs : s.step retention a = some s')
    (h : s.ledger.Result op r) (hh : Held r s.now) (hends : s.ends op r a = false) :
    Kept s'.ledger op r ↔ s.drops op r a = false := by
  have hof : Kept s'.ledger op r → (Kept s'.ledger op r ↔ false = false) := fun hk => ⟨fun _ => rfl, fun _ => hk⟩
  cases a with
  | attempt g op' retry epoch | reserveInitial g op' => exact hof (admit_held h hh hs).1
  | stageWriteRequest p op' request =>
    obtain ⟨-, rfl⟩ := of_guard_not hs
    refine hof (.refl ?_)
    dsimp only
    split
    · rename_i c n hslot; exact (get_put_iff (by simp) (by simp [hslot])).2 h
    · exact h
  | recordEntry op' result writeRequest => cases hs; exact hof (record_held h hh)
  | recordEntryWithPendingWrite p result =>
    obtain ⟨w, _, rfl⟩ := map_eq_some_iff.1 hs
    exact hof (dropPending_kept (record_held h hh))
  | beginAcceptedWrite w op' result request =>
    obtain ⟨-, rfl⟩ := of_guard_not hs
    have hrec : Kept (s.record retention op' result (some request) true).ledger op r := record_held h hh
    exact hof hrec
  | finishAcceptedWrite w materialized read =>
    obtain ⟨op', hw, rfl⟩ := map_eq_some_iff.1 (ite_none_right_eq_some.1 hs).2
    refine hof (finish_kept h ?_)
    rintro ⟨rfl, hnz, hpend, hlast⟩
    simp [Sys.ends, hw, hnz, hpend] at hends
    rcases hlast with rfl | hexp
    · cases hends.1
    · omega
  | dropGuard g read =>
    obtain ⟨⟨op', claim⟩, hg, rfl⟩ := map_eq_some_iff.1 (ite_none_right_eq_some.1 hs).2
    unfold Sys.drops
    dsimp only
    rw [hg]
    cases claim with
    | some c => exact ⟨fun _ => by simp, fun _ => .refl ((s.ledger.release_complete _ _ _ _).2 h)⟩
    | none =>
      have hpins : op' = op → r.replayPins ≠ 0 := by
        rintro rfl
        have hpos := count_pos (p := fun _ (v : Guard) => v.op = op' ∧ v.claim = none) hg ⟨rfl, rfl⟩
        have := (hinv.results.complete op' r h).pins
        unfold Sys.pins at this
        omega
      exact (unpin_kept h hpins).trans (by simp)
  | dropPending p =>
    obtain ⟨w, _, rfl⟩ := map_eq_some_iff.1 hs
    exact hof (dropPending_kept (.refl h))
  | reap batch =>
    obtain ⟨hbatch, rfl⟩ := of_guard hs
    exact hof (.refl (reap_held hh batch h fun e he => (hbatch e he).2))
  | get op' => cases hs; exact hof (.refl (hh.stays h (s.ledger.expires_get op' s.now) le_rfl))
  | replayWriteEntry op' fingerprint =>
    cases hs
    exact hof (.refl (hh.stays h (s.ledger.expires_replayWriteEntry op' fingerprint s.now) le_rfl))
  | armPromotionRetryGraceUntil epoch deadline read =>
    obtain ⟨-, rfl⟩ := of_guard hs
    exact hof (.refl (by rwa [Result, Ledger.arm_entries]))
  | clearPromotionRetryGrace | tick nanos => cases hs; exact hof (.refl h)
  | reclaimWhenUnprotected id =>
    cases hs
    exact hof (.refl (by rwa [Result, Ledger.reclaimWhenUnprotected_entries]))

/-- A step that ends the materialisation of a result leaves no result that is unexpired or pending. -/
theorem ends_not_held (hs : s.step retention a = some s')
    (h : s.ledger.Result op r) (hends : s.ends op r a = true)
    (h' : s'.ledger.Result op r') : ¬Held r' s'.now := by
  unfold Sys.ends at hends
  split at hends
  · simp only [Bool.and_eq_true, Bool.or_eq_true, Bool.not_eq_true', decide_eq_true_eq] at hends
    obtain ⟨⟨⟨hw, hnz⟩, hpend⟩, hlast⟩ := hends
    obtain ⟨hread, hs⟩ := ite_none_right_eq_some.1 hs
    rw [hw] at hs
    cases hs
    exact finish_not_held h hread hnz hpend hlast h'
  · cases hends

/-- **Exactly-once admission.** Two guards of one operation whose claims are not settled are the same guard. While a
result is unexpired or its materialisation is pending, no step admits a fresh caller; the end of its own materialisation
leaves nothing unexpired or pending, and any other step keeps the result exactly when it is not the drop of its last
replay guard after the deadline. -/
theorem exactly_once (h : Reach (Sys.step (A := A) · retention) anyStep {} s) :
    (∀ op g g' c c', s.guards.get g = some ⟨op, some c⟩ → s.guards.get g' = some ⟨op, some c'⟩ → c ∉ s.settled →
      c' ∉ s.settled → g = g') ∧
    ∀ a s' op r, s.step retention a = some s' → s.ledger.entries.get op = some (.complete r) → Held r s.now →
      (∀ g c, s'.guards.get g = some ⟨op, some c⟩ → s.guards.get g = some ⟨op, some c⟩) ∧
        (s.ends op r a = true → ∀ r', s'.ledger.entries.get op = some (.complete r') → ¬Held r' s'.now) ∧
        (s.ends op r a = false → (Kept s'.ledger op r ↔ s.drops op r a = false)) := by
  have hinv := reach_inv h
  refine ⟨fun op g g' c c' hg hg' hc hc' => ?_, fun a s' op r hs hold hh =>
    ⟨fun g c hg => ?_, fun hends r' => ends_not_held hs hold hends, step_kept hinv hs hold hh⟩⟩
  · obtain ⟨n, hslot⟩ := (hinv.claims.guards g _ c hg rfl).2 hc
    obtain ⟨n', hslot'⟩ := (hinv.claims.guards g' _ c' hg' rfl).2 hc'
    cases hslot.symm.trans hslot'
    exact hinv.claims.unique g g' _ _ c hg hg' rfl rfl
  · by_cases ha : ∃ g op retry epoch, a = .attempt g op retry epoch
    · obtain ⟨g', op', retry, epoch, rfl⟩ := ha; exact (admit_held hold hh hs).2 g c hg
    by_cases ha' : ∃ g op, a = .reserveInitial g op
    · obtain ⟨g', op', rfl⟩ := ha'; exact (admit_held hold hh hs).2 g c hg
    · exact same_guards hs (fun g op retry epoch h => ha ⟨g, op, retry, epoch, h⟩) (fun g op h => ha' ⟨g, op, h⟩) hg

end

/-- A write of operation 1 is acknowledged early, for 10 nanoseconds, and a retry of it is pinned. -/
def earlyRun : List (Action Unit) :=
  [.reserveInitial 0 1, .beginAcceptedWrite 0 1 (.write ()) ⟨0, 4⟩, .dropGuard 0 0, .attempt 1 1 true 0]

/-- The flag of the stored result. -/
def pendingOf (s : Sys Unit) (op : OpId) : Option Bool :=
  match s.ledger.entries.get op with
  | some (.complete r) => some r.materializationPending
  | _ => none

theorem exactly_once_pending : ∃ s r, Reach (Sys.step (A := Unit) · 10) anyStep {} s ∧
    s.ledger.entries.get 1 = some (.complete r) ∧ r.materializationPending = true ∧
    Kept (s.ledger.get 1 s.now).2 1 r := by
  obtain ⟨s, r, hreach, hr, hp⟩ : ∃ s r, Reach (Sys.step (A := Unit) · 10) anyStep {} s ∧ s.ledger.Result 1 r ∧
      r.materializationPending = true := ⟨_, _, reach_of_run .init (l := earlyRun) rfl, rfl, rfl⟩
  exact ⟨s, r, hreach, hr, hp, (((exactly_once hreach).2 (.get 1) _ 1 r rfl hr (.inr hp)).2.2 rfl).2 rfl⟩

/-- The replay guard of `earlyRun` is dropped at the deadline: the result is gone while its materialisation is pending,
and the operation is admitted afresh. -/
theorem pending_result_dropped :
    (run (Sys.step · 10) ({} : Sys Unit) (earlyRun ++ [.tick 10])).map
      (fun s => (pendingOf s 1, s.acceptedWrites.get 0)) = some (some true, some 1) ∧
    (run (Sys.step · 10) ({} : Sys Unit) (earlyRun ++ [.tick 10, .dropGuard 1 10, .reserveInitial 2 1])).map
      (fun s => (pendingOf s 1, s.guards.get 2, s.acceptedWrites.get 0)) = some (none, some ⟨1, some 2⟩, some 1) := by
  constructor <;> decide +kernel

end ZeroFS.Dedup
