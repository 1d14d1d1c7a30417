import ZeroFS.Dedup.Counted

/-!
# Replay protection of created inodes

A stored result of a `create` protects its inode. A protection begins only when such a result is published and ends with
its last result; an orphan registered by `reclaimWhenUnprotected` is then handed to the drainer (`Lapse`).
-/

namespace ZeroFS.Dedup

open Machine Table Option

open Ledger (Slot)

variable {A : Type}

def OpState.replayInode : OpState A → Option InodeId
  | .applying _ _ => none
  | .complete r => r.value.replayInode

def OpState.inflight : OpState A → Nat
  | .applying _ _ => 1
  | .complete _ => 0

def OpState.pinned : OpState A → Nat
  | .applying _ _ => 0
  | .complete r => if r.replayPins = 0 then 0 else 1

def Action.replayInode : Action A → Option InodeId
  | .recordEntry _ result _ => result.replayInode
  | .recordEntryWithPendingWrite _ result => result.replayInode
  | .beginAcceptedWrite _ _ result _ => result.replayInode
  | _ => none

namespace Ledger

variable {l l' l'' : Ledger A} {op : OpId} {r : TimedResult A} {id : InodeId} {e : OpState A} {o : Option (OpState A)}

/-- The number of stored results that protect the inode. -/
def stored (l : Ledger A) (id : InodeId) : Nat := l.entries.count fun _ e => e.replayInode = some id

/-- Every protection counts its results. -/
structure Protected (l : Ledger A) : Prop where
  refs : ∀ id, (l.protectedInodes.get id).elim 0 (·.refs) = l.stored id
  pos : ∀ id p, l.protectedInodes.get id = some p → 0 < p.refs

theorem Protected.protects_iff (h : Protected l) : l.protectsReplayInode id = true ↔ 0 < l.stored id := by
  have hrefs := h.refs id
  unfold protectsReplayInode
  cases hp : l.protectedInodes.get id with
  | none => rw [hp, elim_none] at hrefs; rw [← hrefs]; exact ⟨nofun, nofun⟩
  | some p =>
    rw [hp, elim_some] at hrefs
    rw [← hrefs]
    exact ⟨fun _ => h.pos id p hp, fun _ => rfl⟩

theorem Protected.of_stored (h : Protected l) (he : l.Result op r) (hr : r.value.replayInode = some id) :
    l.protectsReplayInode id = true := h.protects_iff.2 (count_pos he hr)

/-- Protections have ended, and only that of `begun` may have begun. -/
structure Lapse (begun : Option InodeId) (l l' : Ledger A) : Prop where
  ok : Protected l → Protected l'
  fewer : ∀ id, begun ≠ some id → l'.protectsReplayInode id = true → l.protectsReplayInode id = true
  listed : ∀ id ∈ l.reclaimOnUnprotect, l.protectsReplayInode id = true →
    (l'.protectsReplayInode id = true ∧ id ∈ l'.reclaimOnUnprotect) ∨ id ∈ l'.reclaims
  reclaims : ∀ id ∈ l.reclaims, id ∈ l'.reclaims

theorem Lapse.refl (l : Ledger A) : Lapse none l l := ⟨id, fun _ _ h => h, fun _ hm hp => .inl ⟨hp, hm⟩, fun _ h => h⟩

theorem Lapse.mono (h : Lapse none l l') (begun : Option InodeId) : Lapse begun l l' :=
  { h with fewer := fun id _ => h.fewer id nofun }

theorem Lapse.trans {begun : Option InodeId} (h : Lapse begun l l') (h' : Lapse begun l' l'') : Lapse begun l l'' := by
  refine ⟨fun hp => h'.ok (h.ok hp), fun id hne hp => h.fewer id hne (h'.fewer id hne hp), fun id hm hp => ?_,
    fun id hm => h'.reclaims id (h.reclaims id hm)⟩
  rcases h.listed id hm hp with ⟨hp', hm'⟩ | hr
  · exact h'.listed id hm' hp'
  · exact .inr (h'.reclaims id hr)

theorem Lapse.same (hstored : ∀ id, l'.stored id = l.stored id) (hprot : l'.protectedInodes = l.protectedInodes)
    (hlist : ∀ id ∈ l.reclaimOnUnprotect, id ∈ l'.reclaimOnUnprotect) (hreclaims : l'.reclaims = l.reclaims) :
    Lapse none l l' := by
  have hp : ∀ id, l'.protectsReplayInode id = l.protectsReplayInode id := fun id => by
    unfold protectsReplayInode
    rw [hprot]
  refine ⟨fun h => ⟨fun id => ?_, fun id p hid => ?_⟩, fun id _ h => ?_, fun id hm h => .inl ⟨?_, hlist id hm⟩,
    fun id hm => ?_⟩
  · rw [hprot, hstored]; exact h.refs id
  · rw [hprot] at hid; exact h.pos id p hid
  · rw [← hp]; exact h
  · rw [hp]; exact h
  · rw [hreclaims]; exact hm

theorem stored_put (hold : l.entries.get op = o) (hentries : l'.entries = l.entries.put op e)
    (he : o.bind OpState.replayInode = e.replayInode) (id : InodeId) : l'.stored id = l.stored id := by
  have := count_put (p := fun _ (e : OpState A) => e.replayInode = some id) l.entries op e
  unfold stored
  rw [hentries]
  rw [hold] at this
  cases o with
  | none => rw [if_neg (by rw [← he]; nofun)] at this; exact this
  | some e₀ =>
    rw [elim_some] at this
    rw [bind_some] at he
    rw [he] at this
    exact Nat.add_right_cancel this

theorem stored_del (hentries : l'.entries = l.entries.del op) (id : InodeId) :
    l'.stored id + (if (l.entries.get op).bind OpState.replayInode = some id then 1 else 0) = l.stored id := by
  have := count_del (p := fun _ (e : OpState A) => e.replayInode = some id) l.entries op
  unfold stored
  rw [hentries, ← this]
  cases l.entries.get op with
  | none => rfl
  | some e => rfl

/-- One result of `id` goes. If it is the last one, the protection ends, and an orphan that waits for this is handed
out. -/
theorem Lapse.drop {p : InodeProtection} {o : Option InodeProtection} (hp : l.protectedInodes.get id = some p)
    (hstored : ∀ id', l'.stored id' + (if some id = some id' then 1 else 0) = l.stored id')
    (hget : ∀ id', l'.protectedInodes.get id' = if id' = id then o else l.protectedInodes.get id')
    (hrefs : o.elim 0 (·.refs) = p.refs - 1) (hpos : ∀ q, o = some q → 0 < q.refs)
    (hlist : ∀ id' ∈ l.reclaimOnUnprotect, (id' ∈ l'.reclaimOnUnprotect ∧ (id' = id → o.isSome)) ∨ id' ∈ l'.reclaims)
    (hreclaims : ∀ id' ∈ l.reclaims, id' ∈ l'.reclaims) : Lapse none l l' := by
  refine ⟨fun h => ⟨fun id' => ?_, fun id' q hq => ?_⟩, fun id' _ h => ?_, fun id' hm h => ?_, hreclaims⟩
  · have hst := hstored id'
    have href := h.refs id'
    rw [hget]
    split
    · rename_i heq
      subst heq
      rw [hp, elim_some] at href
      rw [if_pos rfl] at hst
      omega
    · rename_i hne; rw [if_neg (fun heq => hne (some.inj heq).symm)] at hst; omega
  · rw [hget] at hq
    split at hq
    · exact hpos q hq
    · exact h.pos id' q hq
  · unfold protectsReplayInode at h ⊢
    rw [hget] at h
    split at h
    · rename_i heq; rw [heq, hp]; rfl
    · exact h
  · refine (hlist id' hm).imp_left fun hm' => ⟨?_, hm'.1⟩
    unfold protectsReplayInode at h ⊢
    rw [hget]
    split
    · exact hm'.2 ‹_›
    · exact h

theorem Lapse.removeResult {r₀ : TimedResult A} (he : l.Result op r₀) (hv : r₀.value = r.value) :
    Lapse none l (l.removeResult op r) := by
  have hreplay : (OpState.complete r₀).replayInode = r.value.replayInode := congrArg DedupResult.replayInode hv
  have hdel : ∀ id', (l.removeResult op r).stored id' + (if r.value.replayInode = some id' then 1 else 0) =
      l.stored id' := by
    intro id'
    have := stored_del (show (l.removeResult op r).entries = _ from removeResult_entries) id'
    rwa [he, bind_some, hreplay] at this
  unfold Ledger.removeResult unprotect at hdel ⊢
  split
  · rename_i hnone; rw [hnone] at hdel; exact .same hdel rfl (fun _ hm => hm) rfl
  rename_i id₁ hsome
  rw [hsome] at hdel
  dsimp only at hdel ⊢
  split
  · rename_i hp
    refine ⟨fun h => ?_, fun _ _ h => h, fun _ hm h => .inl ⟨h, hm⟩, fun _ h => h⟩
    have hpos := h.of_stored he (hreplay.trans hsome)
    unfold protectsReplayInode at hpos
    rw [hp] at hpos
    cases hpos
  rename_i p hp
  rw [hp] at hdel
  dsimp only at hdel
  split
  · rename_i hlast
    rw [if_pos hlast] at hdel
    refine .drop (o := none) hp hdel (fun _ => get_del ..) hlast.symm nofun (fun id' hm => ?_) fun id' hm => ?_
    · by_cases heq : id' = id₁
      · subst heq
        right
        rw [if_pos hm]
        exact List.mem_append_right _ List.mem_cons_self
      · exact .inl ⟨List.mem_filter.2 ⟨hm, decide_eq_true heq⟩, fun h => absurd h heq⟩
    · split
      · exact List.mem_append_left _ hm
      · exact hm
  · rename_i hmore
    rw [if_neg hmore] at hdel
    refine .drop hp hdel (fun _ => get_put ..) rfl (fun q hq => ?_) (fun _ hm => .inl ⟨hm, fun _ => rfl⟩) fun _ hm => hm
    cases hq
    exact Nat.pos_of_ne_zero hmore

/-! ## The totals -/

/-- The orphan was handed out if it no longer waits, and else not. -/
structure Reported (l l' : Ledger A) (id : InodeId) : Prop where
  old : id ∈ l'.reclaimOnUnprotect → id ∈ l.reclaimOnUnprotect
  once : l'.reclaims.count id = l.reclaims.count id + if id ∈ l.reclaimOnUnprotect ∧ id ∉ l'.reclaimOnUnprotect then 1
    else 0

theorem Reported.same (hlist : l'.reclaimOnUnprotect = l.reclaimOnUnprotect) (hreclaims : l'.reclaims = l.reclaims)
    (id : InodeId) : Reported l l' id := by
  constructor
  · rw [hlist]; exact fun h => h
  · rw [hlist, hreclaims, if_neg fun h => h.2 h.1]; rfl

theorem Reported.trans (h : Reported l l' id) (h' : Reported l' l'' id) : Reported l l'' id := by
  refine ⟨fun hm => h.old (h'.old hm), ?_⟩
  have hold := h.old
  have hold' := h'.old
  rw [h'.once, h.once]
  by_cases hm : id ∈ l.reclaimOnUnprotect <;> by_cases hm' : id ∈ l'.reclaimOnUnprotect <;>
    by_cases hm'' : id ∈ l''.reclaimOnUnprotect <;> simp_all

/-- The totals count the entries, a slot has an owner, and an orphan waits for a protected inode. -/
structure Tallied (l : Ledger A) : Prop where
  inflight : l.inflightIds = l.entries.sum fun _ e => e.inflight
  pinned : l.replayPinnedResults = l.entries.sum fun _ e => e.pinned
  owned : ∀ op c n, l.Slot op c n → 0 < n
  waits : ∀ id ∈ l.reclaimOnUnprotect, l.protectsReplayInode id = true

/-- The totals stay exact, and an orphan that no longer waits was handed out. -/
structure Tally (l l' : Ledger A) : Prop where
  tallied : Tallied l → Tallied l'
  reported : ∀ id, Reported l l' id

/-- Protections have lapsed, and the totals are exact. -/
structure Exact (l l' : Ledger A) : Prop extends Lapse none l l', Tally l l'

theorem Tally.trans (h : Tally l l') (h' : Tally l' l'') : Tally l l'' :=
  ⟨fun ht => h'.tallied (h.tallied ht), fun id => (h.reported id).trans (h'.reported id)⟩

theorem Exact.refl (l : Ledger A) : Exact l l := ⟨.refl l, ⟨id, .same rfl rfl⟩⟩

theorem Exact.trans (h : Exact l l') (h' : Exact l' l'') : Exact l l'' :=
  ⟨h.toLapse.trans h'.toLapse, h.toTally.trans h'.toTally⟩

theorem Tallied.le (h : Tallied l) (he : l.entries.get op = some e) :
    e.inflight ≤ l.inflightIds ∧ e.pinned ≤ l.replayPinnedResults := by
  rw [h.inflight, h.pinned]
  exact ⟨le_sum (fun _ e => e.inflight) he, le_sum (fun _ e => e.pinned) he⟩

/-- The change of the totals is the change of the entry. -/
structure Moves (l l' : Ledger A) (o o' : Option (OpState A)) : Prop where
  inflight : l'.inflightIds + o.elim 0 (·.inflight) = l.inflightIds + o'.elim 0 (·.inflight)
  pinned : l'.replayPinnedResults + o.elim 0 (·.pinned) = l.replayPinnedResults + o'.elim 0 (·.pinned)
  owned : ∀ c n, o' = some (.applying c n) → 0 < n

theorem Tally.put (hold : l.entries.get op = o) (hentries : l'.entries = l.entries.put op e)
    (hmoves : Tallied l → Moves l l' o (some e))
    (hkeep : ∀ id, l.protectsReplayInode id = true → l'.protectsReplayInode id = true)
    (hlist : l'.reclaimOnUnprotect = l.reclaimOnUnprotect) (hreclaims : l'.reclaims = l.reclaims) : Tally l l' := by
  refine ⟨fun h => ⟨?_, ?_, fun op' c n he => ?_, fun id hm => ?_⟩, .same hlist hreclaims⟩
  · have := sum_put (fun _ e => OpState.inflight e) l.entries op e
    have := (hmoves h).inflight
    have := h.inflight
    simp only [hentries, hold, elim_some] at *
    omega
  · have := sum_put (fun _ e => OpState.pinned e) l.entries op e
    have := (hmoves h).pinned
    have := h.pinned
    simp only [hentries, hold, elim_some] at *
    omega
  · rw [Slot, hentries] at he
    rcases cases_put he with ⟨-, rfl⟩ | ⟨-, he⟩
    · exact (hmoves h).owned c n rfl
    · exact h.owned op' c n he
  · rw [hlist] at hm; exact hkeep id (h.waits id hm)

theorem Tally.del (hold : l.entries.get op = o) (hentries : l'.entries = l.entries.del op)
    (hmoves : Tallied l → Moves l l' o none)
    (hwaits : (∀ id ∈ l.reclaimOnUnprotect, l.protectsReplayInode id = true) →
      ∀ id ∈ l'.reclaimOnUnprotect, l'.protectsReplayInode id = true) (hreported : ∀ id, Reported l l' id) :
    Tally l l' := by
  refine ⟨fun h => ⟨?_, ?_, fun op' c n he => ?_, hwaits h.waits⟩, hreported⟩
  · have := sum_del (fun _ e => OpState.inflight e) l.entries op
    have := (hmoves h).inflight
    have := h.inflight
    simp only [hentries, hold, elim_none] at *
    omega
  · have := sum_del (fun _ e => OpState.pinned e) l.entries op
    have := (hmoves h).pinned
    have := h.pinned
    simp only [hentries, hold, elim_none] at *
    omega
  · rw [Slot, hentries] at he; exact h.owned op' c n (of_del he).2

/-- One entry changes, and protects what it protected. -/
theorem Exact.put (hold : l.entries.get op = o) (hentries : l'.entries = l.entries.put op e)
    (he : o.bind OpState.replayInode = e.replayInode) (hmoves : Tallied l → Moves l l' o (some e))
    (hprot : l'.protectedInodes = l.protectedInodes) (hlist : l'.reclaimOnUnprotect = l.reclaimOnUnprotect)
    (hreclaims : l'.reclaims = l.reclaims) : Exact l l' := by
  refine ⟨.same (stored_put hold hentries he) hprot (fun _ hm => by rw [hlist]; exact hm) hreclaims,
    .put hold hentries hmoves (fun id hp => ?_) hlist hreclaims⟩
  unfold protectsReplayInode at hp ⊢
  rwa [hprot]

theorem Exact.grace (l : Ledger A) (grace : Option PromotionRetryGrace) :
    Exact l { l with promotionRetryGrace := grace } :=
  ⟨.same (fun _ => rfl) rfl (fun _ hm => hm) rfl, ⟨fun h => ⟨h.inflight, h.pinned, h.owned, h.waits⟩, .same rfl rfl⟩⟩

theorem unprotect_totals (l : Ledger A) (result : DedupResult A) :
    (l.unprotect result).inflightIds = l.inflightIds ∧
    (l.unprotect result).replayPinnedResults = l.replayPinnedResults := by
  unfold unprotect
  split
  · exact ⟨rfl, rfl⟩
  split
  · exact ⟨rfl, rfl⟩
  · split <;> exact ⟨rfl, rfl⟩

theorem unprotect_reported (l : Ledger A) (result : DedupResult A) (id : InodeId) :
    Reported l (l.unprotect result) id := by
  unfold unprotect
  split
  · exact .same rfl rfl id
  rename_i id₁ _
  split
  · exact .same rfl rfl id
  split
  · constructor
    · exact fun hm => (List.mem_filter.1 hm).1
    by_cases heq : id = id₁
    · subst heq
      by_cases hm : id ∈ l.reclaimOnUnprotect <;> simp [hm]
    · by_cases hm : id₁ ∈ l.reclaimOnUnprotect <;> simp [hm, heq, Ne.symm heq]
  · refine .same ?_ ?_ id <;> rfl

theorem unprotect_waits (result : DedupResult A) (h : ∀ id ∈ l.reclaimOnUnprotect, l.protectsReplayInode id = true) :
    ∀ id ∈ (l.unprotect result).reclaimOnUnprotect, (l.unprotect result).protectsReplayInode id = true := by
  unfold protectsReplayInode at h ⊢
  unfold unprotect
  split
  · exact h
  split
  · exact h
  split
  · intro id hm
    obtain ⟨hm, hne⟩ := List.mem_filter.1 hm
    rw [get_del_ne (of_decide_eq_true hne)]
    exact h id hm
  · intro id hm
    rw [get_put]
    split
    · rfl
    · exact h id hm

/-- A result that nobody replays goes. -/
theorem Exact.removeResult {r₀ : TimedResult A} (he : l.Result op r₀) (hv : r₀.value = r.value)
    (hpins : r₀.replayPins = 0) : Exact l (l.removeResult op r) := by
  refine ⟨.removeResult he hv, .del he removeResult_entries (fun _ => ⟨?_, ?_, nofun⟩)
    (fun h => unprotect_waits (l := { l with entries := l.entries.del op }) r.value h)
    fun id => ⟨(unprotect_reported _ r.value id).old, (unprotect_reported _ r.value id).once⟩⟩
  · exact congrArg (· + 0) (unprotect_totals _ r.value).1
  · rw [elim_some, OpState.pinned, if_pos hpins]
    exact congrArg (· + 0) (unprotect_totals _ r.value).2

theorem Exact.expires {now : Nat} (h : l.Expires l' op now) : Exact l l' := by
  rcases h with ⟨r, he, hr, rfl⟩ | rfl
  · exact .removeResult he rfl hr.2.1
  · exact .refl _

theorem Exact.pin (he : l.Result op r) : Exact l (l.pin op r) := by
  refine .put he rfl rfl (fun _ => ⟨rfl, ?_, nofun⟩) rfl rfl rfl
  simp only [Ledger.pin, elim_some, OpState.pinned]
  split <;> rfl

theorem Exact.reserve (he : l.entries.get op = none) (claim : Nat) : Exact l (l.reserve op claim) := by
  refine .put he rfl rfl (fun _ => ⟨rfl, rfl, fun c n hcn => ?_⟩) rfl rfl rfl
  cases hcn
  exact Nat.one_pos

theorem Exact.admitCaller {s s' : Sys A} {g : Nat} {retryOrigin : Option Nat}
    (hs : s.admitCaller g op retryOrigin = some s') : Exact s.ledger s'.ledger := by
  have hexp := Exact.expires (s.ledger.expires_removeTarget op s.now)
  rcases Sys.admitCaller_cases hs with rfl | rfl | ⟨-, ⟨r, hold, -, rfl⟩ | ⟨hnone, rfl⟩⟩
  · exact .refl _
  · exact hexp
  · exact hexp.trans (.pin hold)
  · exact hexp.trans (.reserve hnone _)

theorem Exact.releaseApplyingOwner (l : Ledger A) (op : OpId) (claim : Nat) :
    Exact l (l.releaseApplyingOwner op claim) := by
  unfold Ledger.releaseApplyingOwner
  split
  · rename_i c owners he
    split
    · split
      · have hlapse : ∀ id, stored { l with entries := l.entries.del op, inflightIds := l.inflightIds - 1 } id =
            l.stored id := by
          intro id
          have := @stored_del A l { l with entries := l.entries.del op, inflightIds := l.inflightIds - 1 } op rfl id
          rwa [he] at this
        refine ⟨.same hlapse rfl (fun _ hm => hm) rfl,
          .del he rfl (fun h => ⟨?_, rfl, nofun⟩) (fun h => h) (.same rfl rfl)⟩
        exact Nat.sub_add_cancel (h.le he).1
      · rename_i hmore
        refine .put he rfl rfl (fun _ => ⟨rfl, rfl, fun c n hcn => ?_⟩) rfl rfl rfl
        cases hcn
        exact Nat.pos_of_ne_zero hmore
    · exact .refl l
  · exact .refl l

theorem Exact.stageWriteRequest (l : Ledger A) (op : OpId) : Exact l (l.stageWriteRequest op).2 := by
  unfold Ledger.stageWriteRequest
  split
  · rename_i claim owners he
    refine .put he rfl rfl (fun _ => ⟨rfl, rfl, fun c n hcn => ?_⟩) rfl rfl rfl
    cases hcn
    exact Nat.succ_pos _
  · exact .refl l

theorem Exact.finishAcceptedWrite (l : Ledger A) (op : OpId) (materialized : Bool) (now : Nat) :
    Exact l (l.finishAcceptedWrite op materialized now) := by
  unfold Ledger.finishAcceptedWrite
  split
  · rename_i r he
    have hput : ∀ r' : TimedResult A, r'.value = r.value → r'.replayPins = r.replayPins →
        Exact l { l with entries := l.entries.put op (.complete r') } := by
      intro r' hv hpins
      refine .put he rfl (congrArg DedupResult.replayInode hv.symm) (fun _ => ⟨rfl, ?_, nofun⟩) rfl rfl rfl
      simp only [elim_some, OpState.pinned, hpins]
    split
    · split
      · dsimp only
        split
        · rename_i hr; exact .removeResult he rfl hr.2
        · exact hput _ rfl rfl
      · dsimp only
        split
        · rename_i hr; exact .removeResult he rfl hr
        · exact hput _ rfl rfl
    · exact .refl l
  · exact .refl l

theorem Exact.dropPending {s : Sys A} {p : Nat} {w : PendingWriteRequest} :
    Exact s.ledger (s.dropPending p w).ledger := by
  unfold Sys.dropPending
  split
  · exact .releaseApplyingOwner _ _ _
  · exact .refl _

theorem Exact.unpin (l : Ledger A) (op : OpId) (now : Nat) : Exact l (l.unpin op now) := by
  unfold Ledger.unpin
  split
  · rename_i r he
    split
    · rename_i hpin
      have hput : Exact l { l with
          entries := l.entries.put op (.complete { r with replayPins := r.replayPins - 1 })
          replayPinnedResults := if r.replayPins - 1 = 0 then l.replayPinnedResults - 1
              else l.replayPinnedResults } := by
        refine .put he rfl rfl (fun h => ⟨rfl, ?_, nofun⟩) rfl rfl rfl
        have := (h.le he).2
        simp only [elim_some, OpState.pinned, if_neg hpin] at this ⊢
        split <;> omega
      dsimp only
      split
      · rename_i hr; exact hput.trans (.removeResult (get_put_self _ _ _) rfl hr.1)
      · exact hput
    · exact .refl l
  · exact .refl l

theorem Exact.reap (l : Ledger A) (batch : List ScheduledExpiry) : Exact l (l.reapExpiredBatch batch) := by
  induction batch generalizing l with
  | nil => exact .refl l
  | cons e batch ih =>
    exact (Exact.expires (l.expires_reap e)).trans (ih (l.reapExpired e))

theorem Lapse.reclaimWhenUnprotected (l : Ledger A) (id : InodeId) : Lapse none l (l.reclaimWhenUnprotected id).2 := by
  unfold Ledger.reclaimWhenUnprotected
  split
  · exact .same (fun _ => rfl) rfl (fun _ hm => List.mem_insert_of_mem hm) rfl
  · exact .refl l

def publish (l : Ledger A) (op : OpId) (r : TimedResult A) : Ledger A :=
  { l.protectResultInode r.value r.expiresAt with
    entries := l.entries.put op (.complete r)
    scheduled := l.scheduled ++ [⟨op, r.expiresAt⟩]
    inflightIds := if (l.entries.get op).isSome then l.inflightIds - 1 else l.inflightIds }

theorem protectResultInode_rest (l : Ledger A) (result : DedupResult A) (expiresAt : Nat) :
    l.protectResultInode result expiresAt =
      { l with protectedInodes := (l.protectResultInode result expiresAt).protectedInodes } := by
  unfold protectResultInode
  split <;> rfl

/-- Recording a result keeps the one that is there, or publishes a new one. -/
theorem record_split (l : Ledger A) (op : OpId) (result : DedupResult A) (writeRequest : Option WriteRequestReplay)
    (pending : Bool) (now retention serial : Nat) : ∃ l₁, Exact l l₁ ∧
      (l.recordEntryWithWriteRequest op result writeRequest pending now retention serial = l₁ ∨
        (∀ r, ¬l₁.Result op r) ∧ l.recordEntryWithWriteRequest op result writeRequest pending now retention serial =
          l₁.publish op ⟨result, now + retention, 0, writeRequest, pending, false, serial⟩) := by
  unfold recordEntryWithWriteRequest
  split
  · have hexp := Exact.expires (l.expires_removeTarget op now)
    dsimp only
    split
    · rename_i r he
      refine ⟨_, hexp.trans ?_, .inl rfl⟩
      exact .put he rfl rfl (fun _ => ⟨rfl, rfl, nofun⟩) rfl rfl rfl
    · rename_i hno
      refine ⟨_, hexp, .inr ⟨hno, ?_⟩⟩
      unfold publish
      rw [protectResultInode_rest]
  · exact ⟨l, .refl l, .inl rfl⟩

theorem publish_rest (l : Ledger A) (op : OpId) (r : TimedResult A) :
    (l.publish op r).replayPinnedResults = l.replayPinnedResults ∧
    (l.publish op r).reclaimOnUnprotect = l.reclaimOnUnprotect ∧ (l.publish op r).reclaims = l.reclaims := by
  unfold publish
  rw [protectResultInode_rest]
  exact ⟨rfl, rfl, rfl⟩

theorem publish_protects (h : l.protectsReplayInode id = true) : (l.publish op r).protectsReplayInode id = true := by
  unfold protectsReplayInode at h ⊢
  unfold publish protectResultInode
  split
  · exact h
  rw [get_put]
  split
  · rfl
  · exact h

theorem Tally.publish (hno : ∀ r, ¬l.Result op r) (hpins : r.replayPins = 0) : Tally l (l.publish op r) := by
  refine .put rfl rfl (fun h => ⟨?_, ?_, nofun⟩) (fun _ => publish_protects) (l.publish_rest op r).2.1
    (l.publish_rest op r).2.2
  · rw [Ledger.publish]
    rcases no_result hno with he | ⟨c, n, he⟩
    · rw [he]; rfl
    · rw [he]; exact Nat.sub_add_cancel (h.le he).1
  · rw [(l.publish_rest op r).1, elim_some, OpState.pinned, if_pos hpins]
    rcases no_result hno with he | ⟨c, n, he⟩ <;> rw [he] <;> rfl

/-- A new result protects its inode once more. -/
theorem Lapse.publish (hno : ∀ r, ¬l.Result op r) : Lapse r.value.replayInode l (l.publish op r) := by
  have hstored : ∀ id, (l.publish op r).stored id = l.stored id + if r.value.replayInode = some id then 1 else 0 := by
    intro id
    have := count_put (p := fun _ (e : OpState A) => e.replayInode = some id) l.entries op (.complete r)
    rcases no_result hno with he | ⟨c, n, he⟩ <;> rw [he] at this <;> exact this
  have hget : ∀ id, (l.publish op r).protectedInodes.get id = if r.value.replayInode = some id then
      some ⟨max ((l.protectedInodes.get id).getD ⟨r.expiresAt, 0⟩).until_ r.expiresAt,
        ((l.protectedInodes.get id).getD ⟨r.expiresAt, 0⟩).refs + 1⟩
      else l.protectedInodes.get id := by
    intro id
    unfold Ledger.publish protectResultInode
    cases hid : r.value.replayInode with
    | none => rfl
    | some id₁ =>
      dsimp only
      rw [get_put]
      by_cases heq : id = id₁
      · subst heq; rw [if_pos rfl, if_pos rfl]
      · rw [if_neg heq, if_neg fun h => heq (some.inj h).symm]
  obtain ⟨-, hlist, hreclaims⟩ := l.publish_rest op r
  refine ⟨fun h => ⟨fun id => ?_, fun id p hp => ?_⟩, fun id hne h => ?_, fun id hm h => .inl ⟨publish_protects h, ?_⟩,
    fun id hm => ?_⟩
  · rw [hget, hstored, ← h.refs id]
    split
    · cases l.protectedInodes.get id <;> rfl
    · rfl
  · rw [hget] at hp
    split at hp
    · cases hp; exact Nat.succ_pos _
    · exact h.pos id p hp
  · unfold protectsReplayInode at h ⊢; rw [hget, if_neg hne] at h; exact h
  · rw [hlist]; exact hm
  · rw [hreclaims]; exact hm

theorem Lapse.record (l : Ledger A) (op : OpId) (result : DedupResult A) (writeRequest : Option WriteRequestReplay)
    (pending : Bool) (now retention serial : Nat) :
    Lapse result.replayInode l (l.recordEntryWithWriteRequest op result writeRequest pending now retention serial) := by
  obtain ⟨l₁, hl₁, heq | ⟨hno, heq⟩⟩ := record_split l op result writeRequest pending now retention serial
  · rw [heq]; exact hl₁.mono _
  · rw [heq]; exact (hl₁.mono _).trans (.publish (r := ⟨result, _, _, _, _, _, _⟩) hno)

/-- What an action does to the ledger. -/
inductive Change (a : Action A) (l l' : Ledger A) : Prop
  | exact (h : Exact l l')
  | publish {l₁ : Ledger A} {op : OpId} {r : TimedResult A} (h : Exact l l₁) (hno : ∀ r, ¬l₁.Result op r)
      (hpins : r.replayPins = 0)
      (ha : a.replayInode = r.value.replayInode) (h' : Exact (l₁.publish op r) l')
  | register {id : InodeId} (ha : a = .reclaimWhenUnprotected id) (h : l' = (l.reclaimWhenUnprotected id).2)

theorem Change.record {a : Action A} {result : DedupResult A} (ha : a.replayInode = result.replayInode) (l : Ledger A)
    (op : OpId) (writeRequest : Option WriteRequestReplay) (pending : Bool) (now retention serial : Nat)
    (h : Exact (l.recordEntryWithWriteRequest op result writeRequest pending now retention serial) l') :
    Change a l l' := by
  obtain ⟨l₁, hl₁, heq | ⟨hno, heq⟩⟩ := record_split l op result writeRequest pending now retention serial
  · rw [heq] at h; exact .exact (hl₁.trans h)
  · rw [heq] at h; exact .publish hl₁ hno rfl ha h

end Ledger

variable {s s' : Sys A} {retention : Nat} {a : Action A}

/-- An action makes an exact change, publishes a result between two of them, or registers an orphan. -/
theorem step_change (hs : s.step retention a = some s') : Ledger.Change a s.ledger s'.ledger := by
  cases a with
  | attempt g op isRetry originEpoch | reserveInitial g op => exact .exact (.admitCaller hs)
  | stageWriteRequest p op request =>
    obtain ⟨-, rfl⟩ := of_guard_not hs
    exact .exact (.stageWriteRequest _ op)
  | recordEntry op result writeRequest => cases hs; exact .record rfl _ op _ _ _ _ _ (.refl _)
  | recordEntryWithPendingWrite p result =>
    obtain ⟨w, hw, rfl⟩ := map_eq_some_iff.1 hs
    exact .record (show _ = result.replayInode from rfl) s.ledger w.op
      (some w.request) false s.now retention s.nextSerial
      (Ledger.Exact.dropPending (s := s.record retention w.op result (some w.request) false))
  | beginAcceptedWrite w op result request =>
    obtain ⟨-, rfl⟩ := of_guard_not hs
    exact .record rfl _ op _ _ _ _ _ (.refl _)
  | finishAcceptedWrite w materialized read =>
    obtain ⟨op, hop, rfl⟩ := map_eq_some_iff.1 (ite_none_right_eq_some.1 hs).2
    exact .exact (.finishAcceptedWrite _ op _ _)
  | dropGuard g read =>
    obtain ⟨⟨op, claim⟩, hg, rfl⟩ := map_eq_some_iff.1 (ite_none_right_eq_some.1 hs).2
    cases claim with
    | none => exact .exact (.unpin _ op _)
    | some c => exact .exact (.releaseApplyingOwner _ op c)
  | dropPending p =>
    obtain ⟨w, hw, rfl⟩ := map_eq_some_iff.1 hs
    exact .exact .dropPending
  | reap batch => obtain ⟨-, rfl⟩ := of_guard hs; exact .exact (.reap _ batch)
  | get op => cases hs; exact .exact (.expires (s.ledger.expires_get op s.now))
  | replayWriteEntry op fingerprint =>
    cases hs
    exact .exact (.expires (s.ledger.expires_replayWriteEntry op fingerprint s.now))
  | armPromotionRetryGraceUntil epoch deadline read =>
    obtain ⟨-, rfl⟩ := of_guard hs
    unfold Ledger.armPromotionRetryGraceUntil
    split <;> exact .exact (.grace _ _)
  | clearPromotionRetryGrace => cases hs; exact .exact (.grace _ _)
  | reclaimWhenUnprotected id => cases hs; exact .register rfl rfl
  | tick nanos => cases hs; exact .exact (.refl _)

/-- **Protections only lapse**, but for that of the inode whose `create` the action publishes. -/
theorem step_lapse (hs : s.step retention a = some s') : Ledger.Lapse a.replayInode s.ledger s'.ledger := by
  cases step_change hs with
  | exact h => exact h.mono _
  | publish h hno hpins hr h' => rw [hr]; exact (h.mono _).trans ((Ledger.Lapse.publish hno).trans (h'.mono _))
  | register hr h => rw [h]; exact (Ledger.Lapse.reclaimWhenUnprotected _ _).mono _

/-! ## Every run -/

theorem step_tally (hs : s.step retention a = some s') :
    (s.ledger.Tallied → s'.ledger.Tallied) ∧ ∀ id, s'.ledger.reclaims.count id = s.ledger.reclaims.count id +
      if id ∈ s.ledger.reclaimOnUnprotect ∧ id ∉ s'.ledger.reclaimOnUnprotect then 1 else 0 := by
  cases step_change hs with
  | exact h => exact ⟨h.tallied, fun id => (h.reported id).once⟩
  | publish h hno hpins hr h' =>
    have := h.toTally.trans ((Ledger.Tally.publish hno hpins).trans h'.toTally)
    exact ⟨this.tallied, fun id => (this.reported id).once⟩
  | register hr h =>
    rw [h]
    unfold Ledger.reclaimWhenUnprotected
    split
    · rename_i id₁ hp
      refine ⟨fun ht => ⟨ht.inflight, ht.pinned, ht.owned, fun id hm => ?_⟩, fun id => ?_⟩
      · rcases List.mem_insert_iff.1 hm with rfl | hm
        · exact hp
        · exact ht.waits id hm
      · rw [if_neg fun hm => hm.2 (List.mem_insert_of_mem hm.1)]; rfl
    · exact ⟨fun ht => ht, fun id => by rw [if_neg fun hm => hm.2 hm.1]; rfl⟩

theorem reach_tallied (h : Reach (Sys.step (A := A) · retention) anyStep {} s) :
    s.ledger.Protected ∧ s.ledger.Tallied := by
  refine Reach.invariant (I := fun s => s.ledger.Protected ∧ s.ledger.Tallied) ?_ (fun _ _ _ hI _ hs => ?_) h
  · exact ⟨⟨fun _ => rfl, fun id p hp => nomatch (get_empty id).symm.trans hp⟩,
      ⟨rfl, rfl, fun op c n he => (nomatch (get_empty op).symm.trans he), nofun⟩⟩
  · exact ⟨(step_lapse hs).ok hI.1, (step_tally hs).1 hI.2⟩

/-- **The counts are exact.** A slot counts the guards and staged requests that hold its claim, a result its replay
guards, and a protection the results that protect its inode. None of them is zero, and the totals count the entries. An
orphan waits only while its inode is protected, and it is handed out once when it stops waiting. -/
theorem ledger_counts_exact (h : Reach (Sys.step (A := A) · retention) anyStep {} s) :
    (∀ op c n, s.ledger.entries.get op = some (.applying c n) → n = s.owners op c ∧ 0 < n) ∧
    (∀ op r, s.ledger.entries.get op = some (.complete r) → r.replayPins = s.pins op) ∧
    (∀ op, (∀ r, s.ledger.entries.get op ≠ some (.complete r)) → s.pins op = 0) ∧
    (∀ id, (s.ledger.protectedInodes.get id).elim 0 (·.refs) = s.ledger.stored id) ∧
    (∀ id p, s.ledger.protectedInodes.get id = some p → 0 < p.refs) ∧
    s.ledger.inflightIds = s.ledger.entries.sum (fun _ e => e.inflight) ∧
    s.ledger.replayPinnedResults = s.ledger.entries.sum (fun _ e => e.pinned) ∧
    (∀ id ∈ s.ledger.reclaimOnUnprotect, s.ledger.protectsReplayInode id = true) ∧
    ∀ a s', s.step retention a = some s' → ∀ id, s'.ledger.reclaims.count id = s.ledger.reclaims.count id +
      if id ∈ s.ledger.reclaimOnUnprotect ∧ id ∉ s'.ledger.reclaimOnUnprotect then 1 else 0 := by
  have hinv := reach_inv h
  obtain ⟨hp, ht⟩ := reach_tallied h
  refine ⟨fun op c n he => ⟨(hinv.claims.applying op c n he).2.2, ht.owned op c n he⟩,
    fun op r he => (hinv.results.complete op r he).pins, hinv.results.unpinned, hp.refs, hp.pos, ht.inflight, ht.pinned,
    ht.waits, fun a s' hs => (step_tally hs).2⟩

/-- A created inode is unlinked while its result can still be replayed. -/
def createRun : List (Action Unit) :=
  [.attempt 0 1 false 0, .recordEntry 1 (.create 7 ()) none, .reclaimWhenUnprotected 7]

/-- Two retries of the create hold its result, and two other operations are in flight, one of them with a staged
write. -/
def retriedRun : List (Action Unit) :=
  createRun ++ [.dropGuard 0 0, .attempt 0 1 true 0, .attempt 1 1 true 0, .attempt 2 2 false 0, .reserveInitial 3 3,
    .stageWriteRequest 0 2 ⟨5, 0⟩]

theorem ledger_counts_exact_retried : ∃ s, Reach (Sys.step (A := Unit) · 10) anyStep {} s ∧ s.pins 1 = 2 ∧
    (∃ c, s.owners 2 c = 2) ∧
    s.ledger.inflightIds = 2 ∧ s.ledger.reclaimOnUnprotect = [7] ∧ s.ledger.protectsReplayInode 7 = true := by
  have hreach : Reach (Sys.step (A := Unit) · 10) anyStep {} _ := reach_of_run .init (l := retriedRun) rfl
  obtain ⟨howners, hpins, -, -, -, -, -, hwaits, -⟩ := ledger_counts_exact hreach
  exact ⟨_, hreach, (hpins 1 _ rfl).symm, ⟨_, (howners 2 _ 2 rfl).1.symm⟩, rfl, rfl,
    hwaits 7 (List.mem_singleton_self 7)⟩

/-- Publishing the result ends the slot: the guard of the operation is still held, and nothing is in flight. -/
theorem guard_outlives_slot :
    (run (Sys.step · 10) ({} : Sys Unit) createRun).map
      (fun s => (s.guards.count fun _ w => w.op = 1 ∧ w.claim.isSome, s.ledger.inflightIds)) = some (1, 0) := by
  decide +kernel

end ZeroFS.Dedup
