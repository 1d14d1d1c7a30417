import ZeroFS.Dedup.Counted

/-!
# Retracted results

An early acknowledged write whose materialisation fails retracts its result, which stays, marked, while replay guards
pin it. `admit_nonzero` and `replay_write_entry` honour the mark; `get` does not, and the write path replays what `get`
answers.
-/

namespace ZeroFS.Dedup

open Machine

variable {A : Type} {s : Sys A} {op : OpId} {r : TimedResult A} {l : Ledger A} {now : Nat}

/-- The lookups that can answer with a stored result. -/
inductive Lookup
  | get (op : OpId)
  | replayWriteEntry (op : OpId) (fingerprint : BitVec 256)
  | admission (op : OpId) (retryOrigin : Option Nat)

/-- The stored result that an admission lets its caller replay. -/
def Ledger.replayed (l : Ledger A) (op : OpId) (retryOrigin : Option Nat) (now claim : Nat) : Option (TimedResult A) :=
  if hasOpId op then
    match l.admitNonzero op retryOrigin now claim with
    | (.admitted none, l) =>
      match l.entries.get op with
      | some (.complete r) => some r
      | _ => none
    | _ => none
  else none

def Sys.answer (s : Sys A) : Lookup → Option (TimedResult A)
  | .get op => (s.ledger.get op s.now).1
  | .replayWriteEntry op fingerprint => (s.ledger.replayWriteEntry op fingerprint s.now).1.map Prod.snd
  | .admission op retryOrigin => s.ledger.replayed op retryOrigin s.now s.nextClaim

def DedupResult.intoWrite : DedupResult A → Option A
  | .write attrs => some attrs
  | _ => none

def Sys.replayDedupResult {T : Type} (s : Sys A) (op : OpId) (extract : DedupResult A → Option T) :
    Except FsError (Option T) :=
  match (s.ledger.get op s.now).1 with
  | none => .ok none
  | some r =>
    match extract r.value with
    | some v => .ok (some v)
    | none => .error .invalidArgument

/-- The attributes that `replayed_batch` answers a write with. -/
def Sys.replayedBatch (s : Sys A) (op : OpId) : Except FsError (Option A) :=
  s.replayDedupResult op DedupResult.intoWrite

/-! ## What each lookup answers with -/

theorem get_of_removeTarget
    (h : (l.removeTargetIfExpiredAndUnpinned op now).Result op r) :
    l.Result op r ∧ ¬Ledger.Removable r now := by
  rcases l.removeTarget_cases op now with ⟨_, _, _, he⟩ | ⟨heq, hno⟩
  · rw [Ledger.Result, he, Ledger.removeResult_entries, Table.get_del_self] at h; cases h
  · rw [heq] at h; exact ⟨h, hno r h⟩

/-- `get` answers with the stored result, whether it is retracted or not. -/
theorem get_eq_some_iff : (l.get op now).1 = some r ↔
    hasOpId op = true ∧ l.Result op r ∧ ¬Ledger.Removable r now := by
  unfold Ledger.get
  constructor
  · intro h
    split at h
    · rename_i hop
      dsimp only at h
      split at h
      · rename_i r' hr; cases h; exact ⟨hop, get_of_removeTarget hr⟩
      · cases h
    · cases h
  · rintro ⟨hop, hr, hno⟩
    rcases l.removeTarget_cases op now with ⟨r', hr', hrem, _⟩ | ⟨heq, _⟩
    · cases hr.symm.trans hr'; exact absurd hrem hno
    · rw [if_pos hop]; dsimp only; rw [heq, hr]

theorem replayWriteEntry_not_retracted {fingerprint : BitVec 256} {v : WriteReplay}
    (h : (l.replayWriteEntry op fingerprint now).1 = some (v, r)) :
    l.Result op r ∧ r.retracted = false := by
  unfold Ledger.replayWriteEntry at h
  split at h
  · dsimp only at h
    split at h
    · rename_i r' hr
      split at h
      · cases h
      rename_i hret
      split at h
      · cases h; exact ⟨(get_of_removeTarget hr).1, by simpa using hret⟩
      · cases h
    · cases h
  · cases h

theorem replayed_not_retracted {retryOrigin : Option Nat} {claim : Nat}
    (h : l.replayed op retryOrigin now claim = some r) :
    ∃ r', l.Result op r' ∧ r'.retracted = false ∧ r.serial = r'.serial := by
  unfold Ledger.replayed at h
  split at h
  · rcases l.admitNonzero_cases op retryOrigin now claim with ⟨e, hno, he⟩ | ⟨r', hr, hret, he⟩ | ⟨_, he⟩
    · rw [he] at h
      split at h
      · rename_i heq; exact absurd (Prod.mk.inj heq).1 (hno none)
      · cases h
    · rw [he] at h
      simp only [Ledger.pin, Table.get_put_self] at h
      cases h
      exact ⟨r', (get_of_removeTarget hr).1, hret, rfl⟩
    · rw [he] at h; cases h
  · cases h

/-! ## Retraction -/

/-- A retracted result is past its deadline and not pending, so it is stored only as long as a replay guard is out. -/
theorem Inv.retracted_pinned (h : Inv s) (hr : s.ledger.Result op r) (hret : r.retracted = true) :
    Ledger.Removable r s.now ↔ ∀ g, s.guards.get g ≠ some ⟨op, none⟩ := by
  have hri := h.results.complete op r hr
  obtain ⟨hexp, hpend⟩ := hri.kept hret
  have hpins : r.replayPins = 0 ↔ ∀ g, s.guards.get g ≠ some ⟨op, none⟩ := by
    rw [hri.pins, Sys.pins, Table.count_eq_zero_iff]
    constructor
    · exact fun hno g hg => hno g _ hg ⟨rfl, rfl⟩
    · rintro hno g ⟨op', claim⟩ hg ⟨rfl, rfl⟩; exact hno g hg
  exact ⟨fun hrem => hpins.1 hrem.2.1, fun hno => ⟨hexp, hpins.2 hno, hpend⟩⟩

/-- **Retracted results.** In every state that any interleaving reaches, a lookup answers with a retracted result
exactly when it is `get`, the retracted result is stored, and a replay guard of the operation is still out. -/
theorem retracted_not_replayed {retention : Nat} (h : Reach (Sys.step (A := A) · retention) anyStep {} s) (q : Lookup) :
    (∃ r, s.answer q = some r ∧ r.serial ∈ s.retractions) ↔
      ∃ op, q = .get op ∧ hasOpId op = true ∧
      (∃ r, s.ledger.entries.get op = some (.complete r) ∧ r.serial ∈ s.retractions) ∧
        ∃ g, s.guards.get g = some ⟨op, none⟩ := by
  have hinv := reach_inv h
  have hmark : ∀ op r, s.ledger.entries.get op = some (.complete r) → (r.serial ∈ s.retractions ↔ r.retracted = true) :=
    fun op r hr => (hinv.results.complete op r hr).retracted
  constructor
  · rintro ⟨r, hans, hser⟩
    cases q with
    | get op =>
      obtain ⟨hop, hr, hno⟩ := get_eq_some_iff.1 hans
      rw [hinv.retracted_pinned hr ((hmark op r hr).1 hser)] at hno
      push Not at hno
      exact ⟨op, rfl, hop, ⟨r, hr, hser⟩, hno⟩
    | replayWriteEntry op fingerprint =>
      obtain ⟨⟨v, r'⟩, hv, rfl⟩ := Option.map_eq_some_iff.1 hans
      obtain ⟨hr, hret⟩ := replayWriteEntry_not_retracted hv
      rw [(hmark op _ hr).1 hser] at hret
      cases hret
    | admission op retryOrigin =>
      obtain ⟨r', hr, hret, heq⟩ := replayed_not_retracted hans
      rw [heq] at hser
      rw [(hmark op r' hr).1 hser] at hret
      cases hret
  · rintro ⟨op, rfl, hop, ⟨r, hr, hser⟩, g, hg⟩
    refine ⟨r, get_eq_some_iff.2 ⟨hop, hr, ?_⟩, hser⟩
    rw [hinv.retracted_pinned hr ((hmark op r hr).1 hser)]
    exact fun hno => hno g hg

/-- A write of operation 1 is acknowledged early, a retry of it is pinned, and the materialisation fails. -/
def retractedRun : List (Action Unit) :=
  [.reserveInitial 0 1, .beginAcceptedWrite 0 1 (.write ()) ⟨0, 4⟩, .dropGuard 0 0, .attempt 1 1 true 0,
    .finishAcceptedWrite 0 false 0]

/-- The serials that the three lookups of operation 1 answer with, and what the write path replays. -/
def answers (s : Sys Unit) : List (Option Nat) × Option (Option Unit) :=
  ([.get 1, .replayWriteEntry 1 0, .admission 1 none].map fun q => (s.answer q).map (·.serial),
    (s.replayedBatch 1).toOption)

/-- While the retry's guard is out, `get` and the write path answer with the retracted result. -/
theorem retracted_result_replayed : (run (Sys.step · 10) ({} : Sys Unit) retractedRun).map
    (fun s => (s.retractions, answers s)) = some ([0], [some 0, none, none], some (some ())) := by decide +kernel

theorem retracted_not_replayed_dropped : ∃ s, Reach (Sys.step (A := Unit) · 10) anyStep {} s ∧ s.retractions = [0] ∧
    ¬∃ r, s.answer (.get 1) = some r ∧ r.serial ∈ s.retractions := by
  obtain ⟨s, hreach, hret, hnone⟩ : ∃ s, Reach (Sys.step (A := Unit) · 10) anyStep {} s ∧ s.retractions = [0] ∧
      s.ledger.entries.get 1 = none := ⟨_, reach_of_run .init (l := retractedRun ++ [.dropGuard 1 0]) rfl, rfl, rfl⟩
  refine ⟨s, hreach, hret, ?_⟩
  rw [retracted_not_replayed hreach]
  rintro ⟨op, hq, _, ⟨r, hr, _⟩, _⟩
  cases hq
  cases hnone.symm.trans hr

end ZeroFS.Dedup
