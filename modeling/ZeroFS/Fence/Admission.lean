import Mathlib.Data.List.Sublists
import ZeroFS.Fence.Barrier

/-!
# Writes under fences

If a write registers only while none of its keys is closed, every state is `Live`: answers are successes or
back-pressure, the owner of an identity is on its way, every sequence given out belongs to a write, and the jobs of a
lane stand in staging order.
-/

namespace ZeroFS.Fence

open Machine List Option Slots

namespace Write

variable (w : Write)

@[simp]
def isOwner : Bool :=
  match w.phase with
  | .pending | .registered | .staged | .published | .accepted | .applied | .recorded => true
  | _ => false

/-- Its jobs wait in the lanes. -/
@[simp]
def isOnLane : Bool :=
  match w.phase with
  | .staged | .published | .accepted | .applied => true
  | _ => false

@[simp]
def wasStaged : Bool := w.isOnLane || decide (w.phase = .recorded)

/-- What the phase says about the answer, if nothing is aborted. -/
def Answered : Prop :=
  match w.phase with
  | .called | .pending | .registered | .staged | .published | .joined _ => w.answer = none
  | .accepted | .applied | .recorded => w.answer = some (.ok ())
  | .refused => w.answer = some (.ok ()) ∨ w.answer = some (.error .retryLater)
  | .cancelled => False

end Write

namespace State

variable {s s' : State} {p q f : Nat} {w w' v : Write} {F F' : MetadataFence} {a : Action} {id : InodeId}

/-- A write registers only while none of its keys is closed. Nothing is poisoned or shut down, no write fails by itself,
and an identity comes with one request. -/
def admitted (s : State) : Action → Bool
  | .call members identity =>
    !members.isEmpty && decide members.Nodup && s.writes.all fun v => decide (v.identity ≠ identity) ||
      decide (v.members = members)
  | .register p => (s.writes[p]?).all fun w => w.scope.all fun key => decide (s.gate.closingCount key = 0)
  | .abort _ _ _ _ | .stageFail _ _ | .poison _ _ _ => false
  | _ => true

abbrev Admitted (s : State) (a : Action) : Prop := s.admitted a = true

/-! ## The invariant -/

/-- A write that is not answered can go on. -/
structure WriteLive (s : State) (p : Nat) (w : Write) : Prop where
  answered : w.Answered
  outcome : w.isOwner = true → w.outcome = none ∨ w.outcome = some (.ok ())
  joined : ∀ q, w.phase = .joined q → ∃ v, s.At q v ∧ v.isOwner = true
  recorded : w.phase = .recorded → w.outcome = some (.ok ()) ∧ s.progress.Holds w.sequence
  jobs : w.isOnLane = true → ∀ id ∈ w.members, p ∈ (s.lane id).jobs.map (·.2)
  order : w.wasStaged = true ↔ p ∈ s.order
  members : w.members ≠ [] ∧ w.members.Nodup

/-- No job of a lane is lost. -/
structure LaneLive (s : State) (l : Lane) : Prop where
  all : ∀ n, 0 < n → n ≤ l.next → l.done.Holds n ∨ n ∈ l.jobs.map (·.1)
  settled : l.done.Settled
  order : (l.jobs.map (·.2)).Sublist s.order

/-- Nothing has failed, and no write is lost. -/
structure Live (s : State) : Prop where
  healthy : s.gate.terminal = none ∧ s.poisoned = false ∧ s.frozen = false
  write : ∀ p w, s.At p w → WriteLive s p w
  lanes : ∀ id, LaneLive s (s.lane id)
  active : ∀ guard scope, s.gate.active.get guard = some scope → ∃ p w, s.At p w ∧ w.isActive = true ∧ w.guard = guard
  cache : ∀ identity q, s.cache.get identity = some q → ∃ v, s.At q v ∧ v.isOwner = true ∧ v.identity = identity
  identities : ∀ p q v w, s.At p v → s.At q w → v.identity = w.identity → v.members = w.members
  sequences : ∀ n, 0 < n → n ≤ s.gate.publishedThrough → ∃ p w, s.At p w ∧ w.isPublished = true ∧ w.sequence = n
  settled : s.progress.Settled
  order : s.order.Nodup ∧ ∀ p ∈ s.order, ∃ w, s.At p w

/-- What a step keeps of the other writes. -/
structure Keeps (s s' : State) : Prop where
  owner : ∀ q v, s.At q v → v.isOwner = true →
    ∃ v', s'.At q v' ∧ v'.isOwner = true ∧ v'.identity = v.identity
  holds : ∀ n, s.progress.Holds n → s'.progress.Holds n
  jobs : ∀ (id : InodeId) (q : Nat) (v : Write), s.At q v → v.isOnLane = true → q ∈ (s.lane id).jobs.map (·.2) →
    q ∈ (s'.lane id).jobs.map (·.2)

theorem WriteLive.keeps (h : WriteLive s p w) (hk : Keeps s s') (hw : s.At p w) (horder : p ∈ s'.order ↔ p ∈ s.order) :
    WriteLive s' p w where
  answered := h.answered
  outcome := h.outcome
  joined q hq := by
    obtain ⟨v, hv, hown⟩ := h.joined q hq
    obtain ⟨v', hv', hown', -⟩ := hk.owner q v hv hown
    exact ⟨v', hv', hown'⟩
  recorded hr := ⟨(h.recorded hr).1, hk.holds _ (h.recorded hr).2⟩
  jobs hl id hid := hk.jobs id p w hw hl (h.jobs hl id hid)
  order := by rw [horder]; exact h.order
  members := h.members

theorem Keeps.frame (hw : s'.writes = s.writes) (hp : s'.progress = s.progress) (hl : s'.lanes = s.lanes) :
    Keeps s s' where
  owner q v hv hown := ⟨v, by rw [At, hw]; exact hv, hown, rfl⟩
  holds n hn := by rw [hp]; exact hn
  jobs id q v _ _ hj := by rw [lane_eq hl]; exact hj

theorem Keeps.set (hw : s.At p w) (hs : s'.writes = s.writes.set p w') (hid : w'.identity = w.identity)
    (hown : w.isOwner = true → w'.isOwner = true) (hh : ∀ n, s.progress.Holds n → s'.progress.Holds n)
    (hj : ∀ (id : InodeId) (q : Nat), q ∈ (s.lane id).jobs.map (·.2) → q ∈ (s'.lane id).jobs.map (·.2)) :
    Keeps s s' where
  owner _ v hv hvo := exists_set hs hw (fun ⟨hwo, hwi⟩ => ⟨hown hwo, hid.trans hwi⟩) ⟨v, hv, hvo, rfl⟩
  holds := hh
  jobs id q _ _ _ := hj id q

section

variable (h : Live s) (hw : s.At p w)
include h hw

theorem Live.identities_set (hs : s'.writes = s.writes.set p w') (hid : w'.identity = w.identity)
    (hmem : w'.members = w.members) (q r : Nat) (v u : Write) (hv : s'.At q v) (hu : s'.At r u)
    (heq : v.identity = u.identity) : v.members = u.members := by
  have hold : ∀ {q v}, s'.At q v → ∃ v₀, s.At q v₀ ∧ v₀.identity = v.identity ∧ v₀.members = v.members := by
    intro q v hv
    rcases cases_set hs hw hv with ⟨rfl, rfl⟩ | ⟨-, hv⟩
    · exact ⟨w, hw, hid.symm, hmem.symm⟩
    · exact ⟨v, hv, rfl, rfl⟩
  obtain ⟨v₀, hv₀, hvi, hvm⟩ := hold hv
  obtain ⟨u₀, hu₀, hui, hum⟩ := hold hu
  rw [← hvm, ← hum]
  exact h.identities q r v₀ u₀ hv₀ hu₀ (by rw [hvi, hui, heq])

/-- A step of one write that leaves the lanes alone. -/
theorem Live.set (hs : s'.writes = s.writes.set p w') (hreq : w'.identity = w.identity ∧ w'.members = w.members)
    (hown : w.isOwner = true → w'.isOwner = true)
    (hpub : w.isPublished = true → w'.isPublished = true ∧ w'.sequence = w.sequence)
    (hgate : s'.gate.terminal = s.gate.terminal) (hflags : s'.poisoned = s.poisoned ∧ s'.frozen = s.frozen)
    (hlanes : s'.lanes = s.lanes) (horder : s'.order = s.order)
    (hholds : ∀ n, s.progress.Holds n → s'.progress.Holds n) (hsettled : s'.progress.Settled)
    (hactive : ∀ guard scope, s'.gate.active.get guard = some scope → ∃ q v, s'.At q v ∧ v.isActive = true ∧
      v.guard = guard)
    (hcache : ∀ identity q, s'.cache.get identity = some q → s.cache.get identity = some q ∨
      (q = p ∧ w'.isOwner = true ∧ w.identity = identity))
    (hthrough : ∀ n, 0 < n → n ≤ s'.gate.publishedThrough → n ≤ s.gate.publishedThrough ∨
      (w'.isPublished = true ∧ w'.sequence = n)) (hself : WriteLive s' p w') : Live s' := by
  have hkeeps : Keeps s s' := .set hw hs hreq.1 hown hholds (fun id q hq => by rw [lane_eq hlanes]; exact hq)
  refine ⟨by rw [hgate, hflags.1, hflags.2]; exact h.healthy, fun q v hv => ?_, fun x => ?_, hactive,
    fun identity q hq => ?_,
    h.identities_set hw hs hreq.1 hreq.2, fun n hn hle => ?_, hsettled, by rw [horder]; exact h.order.1, fun q hq => ?_⟩
  · rcases cases_set hs hw hv with ⟨rfl, rfl⟩ | ⟨-, hv⟩
    · exact hself
    · exact (h.write q v hv).keeps hkeeps hv (by rw [horder])
  · obtain ⟨h1, h2, h3⟩ := h.lanes x
    rw [lane_eq hlanes]
    exact ⟨h1, h2, by rw [horder]; exact h3⟩
  · rcases hcache identity q hq with hq | ⟨rfl, hown', hid⟩
    · obtain ⟨v, hv, hvo, hvi⟩ := h.cache identity q hq
      obtain ⟨v', hv', hvo', hvi'⟩ := hkeeps.owner q v hv hvo
      exact ⟨v', hv', hvo', hvi'.trans hvi⟩
    · exact ⟨w', get_set_self hs hw, hown', hreq.1.trans hid⟩
  · rcases hthrough n hn hle with hle | ⟨hwp, hseq⟩
    · exact any_set hs hw (fun ⟨hwp, hseq⟩ => ⟨(hpub hwp).1, (hpub hwp).2.trans hseq⟩) (h.sequences n hn hle)
    · exact ⟨p, w', get_set_self hs hw, hwp, hseq⟩
  · exact some_set hs hw fun _ => h.order.2 q (by rw [← horder]; exact hq)

theorem Live.active_set (hs : s'.writes = s.writes.set p w') (hgate : s'.gate.active = s.gate.active)
    (hact : w.isActive = true → w'.isActive = true ∧ w'.guard = w.guard) (guard : Nat) (scope : ConflictScope)
    (hg : s'.gate.active.get guard = some scope) : ∃ q v, s'.At q v ∧ v.isActive = true ∧ v.guard = guard := by
  rw [hgate] at hg
  exact any_set hs hw (fun ⟨hwa, hwg⟩ => ⟨(hact hwa).1, (hact hwa).2.trans hwg⟩) (h.active guard scope hg)

theorem not_mem_order (hst : w.wasStaged = false) : p ∉ s.order := fun hp => by
  rw [(h.write p w hw).order.2 hp] at hst
  cases hst

/-- A write that has not registered is answered, or waits. -/
theorem Live.outside (hst : w.wasStaged = false ∧ w.isOwner = false ∧ w.isActive = false ∧ w.isPublished = false)
    (hs : s'.writes = s.writes.set p w') (hreq : w'.identity = w.identity ∧ w'.members = w.members)
    (hst' : w'.wasStaged = false ∧ w'.isOnLane = false ∧ w'.phase ≠ .recorded) (hans : w'.Answered)
    (hout : w'.isOwner = true → w'.outcome = none ∨ w'.outcome = some (.ok ()))
    (hjoin : ∀ q, w'.phase = .joined q → ∃ v, s'.At q v ∧ v.isOwner = true) (hgate : s'.gate = s.gate)
    (hflags : s'.poisoned = s.poisoned ∧ s'.frozen = s.frozen) (hlanes : s'.lanes = s.lanes)
    (horder : s'.order = s.order) (hprogress : s'.progress = s.progress)
    (hcache : ∀ identity q, s'.cache.get identity = some q → s.cache.get identity = some q ∨
      (q = p ∧ w'.isOwner = true ∧ w.identity = identity)) : Live s' := by
  obtain ⟨h1, h2, h3, h4⟩ := hst
  refine h.set hw hs hreq (by rw [h2]; exact nofun) (by rw [h4]; exact nofun) (by rw [hgate]) hflags hlanes horder
    (by rw [hprogress]; exact fun _ => id)
    (by rw [hprogress]; exact h.settled)
    (h.active_set hw hs (by rw [hgate]) (by rw [h3]; exact nofun)) hcache
    (fun n _ hle => .inl (by rw [← hgate]; exact hle))
    ⟨hans, hout, hjoin, fun hr => absurd hr hst'.2.2, by rw [hst'.2.1]; exact nofun, ?_,
      by rw [hreq.2]; exact (h.write p w hw).members⟩
  rw [hst'.1, horder]
  exact ⟨nofun, fun hp => absurd hp (not_mem_order h hw h1)⟩

end

theorem Live.frame (h : Live s) (hw : s'.writes = s.writes) (hl : s'.lanes = s.lanes) (hpr : s'.progress = s.progress)
    (ho : s'.order = s.order) (hflags : s'.poisoned = s.poisoned ∧ s'.frozen = s.frozen)
    (hg : s'.gate.active = s.gate.active ∧ s'.gate.publishedThrough = s.gate.publishedThrough ∧
      s'.gate.terminal = s.gate.terminal)
    (hcache : ∀ identity q, s'.cache.get identity = some q → s.cache.get identity = some q) : Live s' := by
  have hkeeps : Keeps s s' := .frame hw hpr hl
  refine ⟨by rw [hg.2.2, hflags.1, hflags.2]; exact h.healthy, fun p w hp => ?_, fun x => ?_,
    by unfold At; rw [hg.1, hw]; exact h.active,
    fun identity q hq => ?_, by unfold At; rw [hw]; exact h.identities,
    by unfold At; rw [hg.2.1, hw]; exact h.sequences, by rw [hpr]; exact h.settled,
    by unfold At; rw [ho, hw]; exact h.order⟩
  · rw [At, hw] at hp; exact (h.write p w hp).keeps hkeeps hp (by rw [ho])
  · obtain ⟨h1, h2, h3⟩ := h.lanes x
    rw [lane_eq hl]
    exact ⟨h1, h2, by rw [ho]; exact h3⟩
  · unfold At; rw [hw]; exact h.cache identity q (hcache identity q hq)

/-! ## Steps -/

theorem Live.call (h : Live s) {members : List InodeId} (hm : members ≠ [] ∧ members.Nodup) {identity : Nat}
    (hid : ∀ v ∈ s.writes, v.identity = identity → v.members = members) :
    Live { s with writes := s.writes ++ [{ members := members, identity := identity }] } := by
  have hkeeps : Keeps s { s with writes := s.writes ++ [{ members := members, identity := identity }] } :=
    ⟨fun q v hv hvo => ⟨v, get_snoc hv, hvo, rfl⟩, fun _ => id, fun _ _ _ _ _ => id⟩
  refine ⟨h.healthy, fun q v hv => ?_, fun x => ⟨(h.lanes x).all, (h.lanes x).settled, (h.lanes x).order⟩,
    fun guard scope hg => ?_, fun identity q hq => ?_, fun q r v u hv hu heq => ?_, fun n hn hle => ?_, h.settled,
    h.order.1, fun q hq => ?_⟩
  · rcases cases_snoc hv with hv | ⟨rfl, rfl⟩
    · exact (h.write q v hv).keeps hkeeps hv Iff.rfl
    refine ⟨rfl, nofun, nofun, nofun, nofun, ⟨nofun, fun hmem => ?_⟩, hm⟩
    obtain ⟨u, hu⟩ := h.order.2 _ hmem
    exact absurd rfl (ne_length hu)
  · obtain ⟨q, v, hv, hrest⟩ := h.active guard scope hg; exact ⟨q, v, get_snoc hv, hrest⟩
  · obtain ⟨v, hv, hvo⟩ := h.cache identity q hq; exact ⟨v, get_snoc hv, hvo⟩
  · rcases cases_snoc hv with hv | ⟨-, rfl⟩ <;> rcases cases_snoc hu with hu | ⟨-, rfl⟩
    · exact h.identities q r v u hv hu heq
    · exact hid v (mem_of_getElem? hv) heq
    · exact (hid u (mem_of_getElem? hu) heq.symm).symm
    · rfl
  · obtain ⟨q, v, hv, hrest⟩ := h.sequences n hn hle; exact ⟨q, v, get_snoc hv, hrest⟩
  · obtain ⟨v, hv⟩ := h.order.2 q hq; exact ⟨v, get_snoc hv⟩

section

variable (h : Live s) (hw : s.At p w)
include h hw

theorem Live.register (hp : w.phase = .pending) {guard : Nat} {gate : PreparationGate}
    (hr : s.gate.register w.scope = .ok (guard, gate)) :
    Live { s.setWrite p { w with phase := .registered, guard := guard } with gate := gate } := by
  obtain ⟨-, rfl, rfl⟩ := PreparationGate.register_eq_ok hr
  have hwl := h.write p w hw
  have hown : w.isOwner = true := by simp [hp]
  have hans := hwl.answered
  rw [Write.Answered, hp] at hans
  refine h.set hw rfl ⟨rfl, rfl⟩ (fun _ => rfl) (by simp [hp]) rfl ⟨rfl, rfl⟩ rfl rfl (fun _ => id) h.settled
    (fun guard scope hg => ?_)
    (fun _ _ => .inl) (fun n _ => .inl) ⟨hans, fun _ => hwl.outcome hown, nofun, nofun, nofun, ?_, hwl.members⟩
  · rw [Table.get_put] at hg
    split at hg
    · rename_i heq; exact ⟨p, _, get_set_self rfl hw, rfl, heq.symm⟩
    exact any_set rfl hw (fun ⟨hwa, _⟩ => by simp [hp] at hwa) (h.active guard scope hg)
  · have hnot := not_mem_order h hw (by simp [hp])
    exact ⟨nofun, fun hmem => absurd hmem hnot⟩

theorem Live.publish (hp : w.phase = .staged) :
    Live { s.setWrite p { w with phase := .published, sequence := s.gate.publishedThrough + 1 } with
      gate := { s.gate.unregister w.guard with publishedThrough := s.gate.publishedThrough + 1 } } := by
  have hwl := h.write p w hw
  have hans := hwl.answered
  rw [Write.Answered, hp] at hans
  refine h.set hw rfl ⟨rfl, rfl⟩ (fun _ => rfl) (by simp [hp]) rfl ⟨rfl, rfl⟩ rfl rfl (fun _ => id) h.settled
    (fun guard scope hg => ?_)
    (fun _ _ => .inl) (fun n _ hle => ?_) ⟨hans, fun _ => hwl.outcome (by simp [hp]), nofun, nofun, fun _ => ?_,
      ?_, hwl.members⟩
  · obtain ⟨hne, hg⟩ := Table.of_del hg
    exact any_set rfl hw (fun ⟨_, hwg⟩ => absurd hwg.symm hne) (h.active guard scope hg)
  · rcases Nat.lt_or_eq_of_le hle with hlt | heq
    · exact .inl (Nat.le_of_lt_succ hlt)
    · exact .inr ⟨rfl, heq.symm⟩
  · exact hwl.jobs (by simp [hp])
  · exact ⟨fun _ => hwl.order.1 (by simp [hp]), fun _ => rfl⟩

/-- A published write moves towards its application. -/
theorem Live.forward (hp : w.phase = .published ∨ w.phase = .accepted) (hs : s'.writes = s.writes.set p w')
    (hp' : w'.phase = .accepted ∨ w'.phase = .applied) (hans : w'.Answered)
    (hreq : w'.identity = w.identity ∧ w'.members = w.members) (hout : w'.outcome = w.outcome)
    (hseq : w'.sequence = w.sequence) (hgate : s'.gate = s.gate)
    (hflags : s'.poisoned = s.poisoned ∧ s'.frozen = s.frozen) (hlanes : s'.lanes = s.lanes)
    (horder : s'.order = s.order) (hprogress : s'.progress = s.progress) (hcache : s'.cache = s.cache) : Live s' := by
  have hwl := h.write p w hw
  have hw1 : w.isOwner = true ∧ w.isOnLane = true ∧ w.wasStaged = true ∧ w.isActive = false := by
    rcases hp with hp | hp <;> simp [hp]
  have hw2 : w'.isOwner = true ∧ w'.isPublished = true ∧ w'.wasStaged = true ∧ w'.phase ≠ .recorded := by
    rcases hp' with hp | hp <;> simp [hp]
  refine h.set hw hs hreq (fun _ => hw2.1) (fun _ => ⟨hw2.2.1, hseq⟩) (by rw [hgate]) hflags hlanes horder
    (by rw [hprogress]; exact fun _ => id)
    (by rw [hprogress]; exact h.settled)
    (h.active_set hw hs (by rw [hgate]) (by rw [hw1.2.2.2]; exact nofun)) (fun _ _ => by rw [hcache]; exact .inl)
    (fun n _ => by rw [hgate]; exact .inl) ⟨hans, fun _ => by rw [hout]; exact hwl.outcome hw1.1, fun q hq => ?_,
      fun hr => absurd hr hw2.2.2.2,
      fun _ id hid => ?_, ?_, by rw [hreq.2]; exact hwl.members⟩
  · rcases hp' with hp | hp <;> rw [hp] at hq <;> cases hq
  · rw [lane_eq hlanes]; exact hwl.jobs hw1.2.1 id (by rw [← hreq.2]; exact hid)
  · rw [horder]; exact ⟨fun _ => hwl.order.1 hw1.2.2.1, fun _ => hw2.2.2.1⟩

theorem Live.record (hp : w.phase = .applied) :
    Live { s.setWrite p { w with phase := .recorded, outcome := some (.ok ()) } with
      progress := s.progress.record w.sequence } := by
  have hwl := h.write p w hw
  have hans := hwl.answered
  rw [Write.Answered, hp] at hans
  have hact : w.isActive = false := by simp [hp]
  refine h.set hw rfl ⟨rfl, rfl⟩ (fun _ => rfl) (fun _ => ⟨rfl, rfl⟩) rfl ⟨rfl, rfl⟩ rfl rfl
    (fun n hn => Frontier.holds_record.2 (.inr (.inr hn))) (Frontier.settled_record h.settled)
    (h.active_set hw rfl rfl (by rw [hact]; exact nofun)) (fun _ _ => .inl) (fun _ _ => .inl)
    ⟨hans, fun _ => .inr rfl, nofun, fun _ => ⟨rfl, Frontier.holds_record.2 (.inr (.inl rfl))⟩, nofun, ?_, hwl.members⟩
  exact ⟨fun _ => hwl.order.1 (by simp [hp]), fun _ => rfl⟩

end

theorem laneAt_stageAll {members : List InodeId} (hn : members.Nodup) (lanes : Table InodeId Lane) (p : Nat)
    (id : InodeId) :
    laneAt (stageAll p members lanes) id = if id ∈ members then (laneAt lanes id).stage p else laneAt lanes id := by
  induction members generalizing lanes with
  | nil => rfl
  | cons x members ih =>
    obtain ⟨hx, hn⟩ := nodup_cons.1 hn
    rw [stageAll, foldl_cons, ← stageAll, ih hn, laneAt_put]
    by_cases hid : id = x
    · subst hid; simp [hx]
    · simp [hid]

theorem Live.stage (h : Live s) (hw : s.At p w) (hp : w.phase = .registered) : Live (s.stageWrite p w) := by
  have hwl := h.write p w hw
  have hans := hwl.answered
  rw [Write.Answered, hp] at hans
  have hnot := not_mem_order h hw (by simp [hp])
  have hlane : ∀ id, (s.stageWrite p w).lane id = if id ∈ w.members then (s.lane id).stage p else s.lane id :=
    laneAt_stageAll hwl.members.2 s.lanes p
  have hkeeps : Keeps s (s.stageWrite p w) := by
    refine .set hw rfl rfl (fun _ => rfl) (fun _ => id) fun id q hq => ?_
    rw [hlane]
    split
    · exact mem_map.2 ((mem_map.1 hq).imp fun job hj => ⟨mem_append_left _ hj.1, hj.2⟩)
    · exact hq
  refine ⟨h.healthy, fun q v hv => ?_, fun x => ?_, h.active_set hw rfl rfl (fun _ => ⟨rfl, rfl⟩),
    fun identity q hq => ?_, h.identities_set hw rfl rfl rfl, fun n hn hle => ?_, h.settled, ?_, fun q hq => ?_⟩
  · rcases cases_set rfl hw hv with ⟨rfl, rfl⟩ | ⟨hne, hv'⟩
    · refine ⟨hans, fun _ => hwl.outcome (by simp [hp]), nofun, nofun, fun _ id hid => ?_, ?_, hwl.members⟩
      · rw [hlane, if_pos hid]
        exact mem_map.2 ⟨((s.lane id).next + 1, q), mem_append_right _ (mem_singleton_self _), rfl⟩
      · exact ⟨fun _ => mem_append_right _ (mem_singleton_self _), fun _ => rfl⟩
    · refine (h.write q v hv').keeps hkeeps hv' ?_
      rw [stageWrite, mem_append, mem_singleton]
      exact or_iff_left hne
  · obtain ⟨h1, h2, h3⟩ := h.lanes x
    rw [hlane]
    split
    · refine ⟨fun n hn hle => ?_, h2, ?_⟩
      · rcases Nat.lt_or_eq_of_le hle with hlt | rfl
        · refine (h1 n hn (Nat.le_of_lt_succ hlt)).imp_right fun hmem => ?_
          exact mem_map.2 ((mem_map.1 hmem).imp fun job hj => ⟨mem_append_left _ hj.1, hj.2⟩)
        · exact .inr (mem_map.2 ⟨((s.lane x).next + 1, p), mem_append_right _ (mem_singleton_self _), rfl⟩)
      · show ((((s.lane x).jobs ++ [((s.lane x).next + 1, p)]).map (·.2))).Sublist (s.order ++ [p])
        rw [map_append]
        exact h3.append (List.Sublist.refl [p])
    · exact ⟨h1, h2, h3.trans (sublist_append_left _ _)⟩
  · obtain ⟨v, hv, hvo, hvi⟩ := h.cache identity q hq
    obtain ⟨v', hv', hvo', hvi'⟩ := hkeeps.owner q v hv hvo
    exact ⟨v', hv', hvo', hvi'.trans hvi⟩
  · exact any_set rfl hw (fun ⟨hwp, _⟩ => by simp [hp] at hwp) (h.sequences n hn hle)
  · rw [stageWrite, nodup_append]
    refine ⟨h.order.1, nodup_singleton p, fun x hx y hy => ?_⟩
    rw [mem_singleton.1 hy]
    rintro rfl
    exact hnot hx
  · rcases mem_append.1 hq with hq | hq
    · exact some_set rfl hw fun _ => h.order.2 q hq
    · rw [mem_singleton.1 hq]; exact ⟨_, get_set_self rfl hw⟩

theorem Live.complete (h : Live s) {sequence : Nat} {rest : List (Nat × Nat)}
    (hjobs : (s.lane id).jobs = (sequence, p) :: rest) (hw : s.At p w) (hset : w.isSettled = true) :
    Live (s.completeHead id sequence) := by
  have hlane : ∀ x, (s.completeHead id sequence).lane x = if x = id then (s.lane id).complete sequence else s.lane x :=
    laneAt_put s.lanes id _
  have hkeeps : Keeps s (s.completeHead id sequence) := by
    refine ⟨fun q v hv hvo => ⟨v, hv, hvo, rfl⟩, fun _ hn => hn, fun x q v hv hvl hq => ?_⟩
    rw [hlane]
    split
    · rename_i hx
      subst hx
      rw [hjobs, map_cons] at hq
      show q ∈ ((s.lane x).jobs.tail).map (·.2)
      rw [hjobs, tail_cons]
      refine (mem_cons.1 hq).resolve_left ?_
      rintro rfl
      cases hw.symm.trans hv
      unfold Write.isSettled at hset
      cases hp : w.phase <;> simp [hp] at hset hvl
    · exact hq
  refine ⟨h.healthy, fun q v hv => (h.write q v hv).keeps hkeeps hv Iff.rfl, fun x => ?_, h.active, h.cache,
    h.identities, h.sequences, h.settled, h.order⟩
  rw [hlane]
  split
  · obtain ⟨h1, h2, h3⟩ := h.lanes id
    refine ⟨fun n hn hle => ?_, Frontier.settled_insert, ?_⟩
    · rcases h1 n hn hle with hh | hmem
      · exact .inl (Frontier.holds_insert.2 (.inr hh))
      rw [hjobs, map_cons] at hmem
      rcases mem_cons.1 hmem with rfl | hmem
      · exact .inl (Frontier.holds_insert.2 (.inl rfl))
      refine .inr ?_
      show n ∈ ((s.lane id).jobs.tail).map (·.1)
      rw [hjobs, tail_cons]
      exact hmem
    · show (((s.lane id).jobs.tail).map (·.2)).Sublist s.order
      rw [map_tail]
      exact (tail_sublist _).trans h3
  · exact ⟨(h.lanes x).all, (h.lanes x).settled, (h.lanes x).order⟩

theorem register_of_open (hterm : s.gate.terminal = none) {scope : ConflictScope}
    (hopen : scope.all (fun key => decide (s.gate.closingCount key = 0)) = true) :
    ∃ guard gate, s.gate.register scope = .ok (guard, gate) := by
  unfold PreparationGate.register
  rw [hterm]
  rw [if_neg]
  · exact ⟨_, _, rfl⟩
  intro hany
  obtain ⟨key, hkey, hpos⟩ := any_eq_true.1 hany
  have := all_eq_true.1 hopen key hkey
  simp only [decide_eq_true_eq] at this hpos
  omega

theorem step_live (h : Live s) (hc : Admitted s a) (hs : s.step a = some s') : Live s' := by
  cases a with
  | abort | stageFail | poison => cases hc
  | call members identity =>
    cases hs
    obtain ⟨hc, hid⟩ := Bool.and_eq_true_iff.1 hc
    obtain ⟨hne, hn⟩ := Bool.and_eq_true_iff.1 hc
    refine h.call ⟨by simpa using hne, of_decide_eq_true hn⟩ fun v hv heq => ?_
    have := all_eq_true.1 hid v hv
    simpa [heq] using this
  | pressure p =>
    obtain ⟨w, hw, hp, hg⟩ := of_slot hs
    cases hg
    exact h.outside hw (by simp [hp]) rfl ⟨rfl, rfl⟩ ⟨rfl, rfl, nofun⟩ (.inr rfl) nofun nofun rfl ⟨rfl, rfl⟩ rfl rfl rfl
      fun _ _ => .inl
  | lookup p =>
    obtain ⟨w, hw, hp, hg⟩ := of_slot hs
    have hans := (h.write p w hw).answered
    rw [Write.Answered, hp] at hans
    split at hg
    · cases hg
      refine h.outside hw (by simp [hp]) rfl ⟨rfl, rfl⟩ ⟨rfl, rfl, nofun⟩ hans (fun _ => .inl rfl) nofun rfl
        ⟨rfl, rfl⟩ rfl rfl rfl fun identity q hq => ?_
      rcases Table.cases_put hq with ⟨heq, rfl⟩ | ⟨-, hq⟩
      · exact .inr ⟨rfl, rfl, heq.symm⟩
      · exact .inl hq
    · rename_i q hq
      obtain ⟨v, hv, hvo, hvi⟩ := h.cache w.identity q hq
      rw [if_pos (by rw [hv]; exact decide_eq_true (h.identities q p v w hv hw hvi))] at hg
      cases hg
      refine h.outside hw (by simp [hp]) rfl ⟨rfl, rfl⟩ ⟨rfl, rfl, nofun⟩ hans nofun (fun q' hq' => ?_) rfl
        ⟨rfl, rfl⟩ rfl rfl rfl fun _ _ => .inl
      cases hq'
      exact exists_set rfl hw (fun hwo => by simp [hp] at hwo) ⟨v, hv, hvo⟩
  | register p =>
    obtain ⟨w, hw, hp, hg⟩ := of_slot hs
    dsimp only [Admitted, admitted] at hc
    rw [hw, all_some] at hc
    obtain ⟨guard, gate, hr⟩ := register_of_open h.healthy.1 hc
    rw [hr] at hg
    cases hg
    exact h.register hw hp hr
  | stage p => obtain ⟨w, hw, hp, hg⟩ := of_slot hs; split at hg <;> cases hg; exact h.stage hw hp
  | publish p =>
    obtain ⟨w, hw, hp, hg⟩ := of_slot hs
    unfold PreparationGate.publish at hg
    rw [h.healthy.1] at hg
    cases hg
    exact h.publish hw hp
  | accept p =>
    obtain ⟨w, hw, hp, hg⟩ := of_slot hs
    cases hg
    exact h.forward hw (.inl hp) rfl (.inl rfl) rfl ⟨rfl, rfl⟩ rfl rfl rfl ⟨rfl, rfl⟩ rfl rfl rfl rfl
  | apply p =>
    obtain ⟨w, hw, hp, hg⟩ := of_slot hs
    have hans := (h.write p w hw).answered
    rw [Write.Answered, hp] at hans
    split at hg <;> cases hg
    exact h.forward hw (.inr hp) rfl (.inr rfl) hans ⟨rfl, rfl⟩ rfl rfl rfl ⟨rfl, rfl⟩ rfl rfl rfl rfl
  | record p => obtain ⟨w, hw, hp, hg⟩ := of_slot hs; split at hg <;> cases hg; exact h.record hw hp
  | complete id =>
    unfold step at hs
    dsimp only at hs
    split at hs
    · cases hs
    rename_i hjobs
    obtain ⟨hgo, rfl⟩ := of_guard hs
    obtain ⟨w, hw, hset⟩ := (any_eq_true _ _).1 hgo.2
    exact h.complete hjobs hw hset
  | finish p =>
    obtain ⟨w, hw, hg⟩ := bind_eq_some_iff.1 hs
    split at hg
    · rename_i q hp
      obtain ⟨outcome, hout, rfl⟩ := map_eq_some_iff.1 hg
      obtain ⟨v, hv, hvo⟩ := (h.write p w hw).joined q hp
      rw [hv, bind_some] at hout
      have hok := ((h.write q v hv).outcome hvo).resolve_left (by rw [hout]; exact nofun)
      rw [hout] at hok
      cases hok
      exact h.outside hw (by simp [hp]) rfl ⟨rfl, rfl⟩ ⟨rfl, rfl, nofun⟩ (.inl rfl) nofun nofun rfl
        ⟨rfl, rfl⟩ rfl rfl rfl fun _ _ => .inl
    · cases hg
  | forget identity =>
    obtain ⟨-, rfl⟩ := of_guard hs
    exact h.frame rfl rfl rfl rfl ⟨rfl, rfl⟩ ⟨rfl, rfl, rfl⟩ fun i q hq => (Table.of_del hq).2
  | fence keys =>
    unfold step at hs
    dsimp only at hs
    split at hs <;> cases hs
    rename_i hb
    obtain ⟨h1, -, h3, h4⟩ := PreparationGate.beginClose_eq hb
    exact h.frame rfl rfl rfl rfl ⟨rfl, rfl⟩ ⟨h1, h3, h4⟩ fun _ _ => id
  | await f | capture f =>
    obtain ⟨F, hF, hp, hg⟩ := of_slot hs
    (repeat' split at hg) <;> cases hg
    exact h.frame rfl rfl rfl rfl ⟨rfl, rfl⟩ ⟨rfl, rfl, rfl⟩ fun _ _ => id
  | drain f | reach f | target f | drop f =>
    obtain ⟨F, hF, hg⟩ := bind_eq_some_iff.1 hs
    (repeat' split at hg) <;> cases hg <;> exact h.frame rfl rfl rfl rfl ⟨rfl, rfl⟩ ⟨rfl, rfl, rfl⟩ fun _ _ => id

end State

end ZeroFS.Fence
