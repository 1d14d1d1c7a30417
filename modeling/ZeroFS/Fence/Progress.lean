import ZeroFS.Fence.Admission

/-!
# Every write is answered

The steps that bring writes and fences forward make `work` smaller. Where none is left every write has its answer
(`Live.stuck`): the write staged first among those not applied would be at the head of all its lanes, every fence gets
ready and is dropped, and no gate is closed.
-/

namespace ZeroFS.Fence

open Machine List Option

/-- The steps that a write is still away from being recorded. -/
def Write.work (w : Write) : Nat :=
  match w.phase with
  | .called => 9 + w.members.length
  | .pending => 8 + w.members.length
  | .registered => 7 + w.members.length
  | .staged => 6
  | .published => 5
  | .accepted => 4
  | .applied => 3
  | .joined _ => 1
  | .recorded | .cancelled | .refused => 0

/-- A write is where another step has to come first. -/
def Write.waits (w : Write) : Prop :=
  match w.phase with
  | .pending | .accepted | .recorded | .joined _ | .refused => True
  | _ => False

def MetadataFence.work (F : MetadataFence) : Nat :=
  match F.phase with
  | .closing => 2 * F.inodes.length + 5
  | .quiet => 2 * F.inodes.length + 4
  | .waiting _ => 2 * F.inodes.length + 3
  | .draining todo => 2 * todo.length + 2
  | .reaching _ _ todo => 2 * todo.length + 3
  | .ready => 1
  | .gone => 0

theorem sum_map_set {α : Type} (f : α → Nat) {l : List α} {i : Nat} {x : α} (y : α) (h : l[i]? = some x) :
    ((l.set i y).map f).sum + f x = (l.map f).sum + f y := by
  induction l generalizing i with
  | nil => cases h
  | cons z l ih =>
    cases i with
    | zero => cases h; simp only [set_cons_zero, map_cons, sum_cons]; omega
    | succ i => have := ih h; simp only [set_cons_succ, map_cons, sum_cons]; omega

namespace State

variable {s s' : State} {p q f : Nat} {w w' v : Write} {F F' : MetadataFence} {a : Action} {id : InodeId}

/-! ## The variant -/

def laneWork (lanes : Table InodeId Lane) : Nat := lanes.sum fun _ l => l.jobs.length

def work (s : State) : Nat := (s.writes.map Write.work).sum + (s.fences.map MetadataFence.work).sum + laneWork s.lanes

/-- A step that brings a write or a fence forward; a fence that is ready is dropped. -/
def isProgress (s : State) : Action → Bool
  | .lookup _ | .register _ | .stage _ | .publish _ | .accept _ | .apply _ | .record _ | .complete _ | .finish _ => true
  | .await _ | .capture _ | .drain _ | .target _ | .reach _ => true
  | .drop f => (s.fences[f]?).any fun F => decide (F.phase = .ready)
  | .call _ _ | .pressure _ | .abort _ _ _ _ | .stageFail _ _ | .forget _ | .poison _ _ _ | .fence _ => false

def forward (s : State) (a : Action) : Bool := s.admitted a && s.isProgress a

abbrev Forward (s : State) (a : Action) : Prop := s.forward a = true

theorem laneWork_put (lanes : Table InodeId Lane) (id : InodeId) (l : Lane) :
    laneWork (lanes.put id l) + (laneAt lanes id).jobs.length = laneWork lanes + l.jobs.length := by
  have := Table.sum_put (fun _ l => l.jobs.length) lanes id l
  unfold laneAt
  cases h : lanes.get id <;> rw [h] at this <;> exact this

theorem laneWork_stageAll (members : List InodeId) (lanes : Table InodeId Lane) :
    laneWork (stageAll p members lanes) = laneWork lanes + members.length := by
  induction members generalizing lanes with
  | nil => rfl
  | cons x members ih =>
    have := laneWork_put lanes x ((laneAt lanes x).stage p)
    rw [show ((laneAt lanes x).stage p).jobs.length = (laneAt lanes x).jobs.length + 1 from length_append] at this
    rw [stageAll, foldl_cons, ← stageAll, ih, length_cons]
    omega

theorem work_set (hw : s.At p w) (hs : s'.writes = s.writes.set p w') (hf : s'.fences = s.fences)
    (hlt : laneWork s'.lanes + w'.work < laneWork s.lanes + w.work) : s'.work < s.work := by
  have := sum_map_set Write.work w' hw
  unfold work
  rw [hs, hf]
  omega

theorem work_setFence (hF : s.fences[f]? = some F) (hw : s'.writes = s.writes) (hs : s'.fences = s.fences.set f F')
    (hl : s'.lanes = s.lanes) (hlt : F'.work < F.work) : s'.work < s.work := by
  have := sum_map_set MetadataFence.work F' hF
  unfold work
  rw [hw, hs, hl]
  omega

theorem step_work (ha : s.isProgress a = true) (hs : s.step a = some s') : s'.work < s.work := by
  cases a with
  | call | pressure | abort | stageFail | forget | poison | fence => cases ha
  | lookup p | register p | publish p | accept p | apply p | record p =>
    obtain ⟨w, hw, hp, hg⟩ := of_slot hs
    (repeat' split at hg) <;> cases hg <;> refine work_set hw rfl rfl (Nat.add_lt_add_left ?_ _) <;>
      simp [Write.work, Write.refuse, Write.cancel, hp] <;> omega
  | stage p =>
    obtain ⟨w, hw, hp, hg⟩ := of_slot hs
    obtain ⟨-, rfl⟩ := of_guard_not hg
    refine work_set hw rfl rfl ?_
    rw [stageWrite, laneWork_stageAll]
    simp only [Write.work, hp]
    omega
  | complete id =>
    unfold step at hs
    dsimp only at hs
    split at hs
    · cases hs
    rename_i sequence p rest hjobs
    obtain ⟨-, rfl⟩ := of_guard hs
    have hput := laneWork_put s.lanes id ((s.lane id).complete sequence)
    have htail : ((s.lane id).complete sequence).jobs.length + 1 = (s.lane id).jobs.length := by
      show (s.lane id).jobs.tail.length + 1 = _
      rw [hjobs]
      rfl
    unfold work
    dsimp only [completeHead]
    unfold lane at htail hput ⊢
    omega
  | finish p =>
    obtain ⟨w, hw, hg⟩ := bind_eq_some_iff.1 hs
    split at hg
    · rename_i q hp
      obtain ⟨outcome, -, rfl⟩ := map_eq_some_iff.1 hg
      exact work_set hw rfl rfl (Nat.add_lt_add_left (by simp [Write.work, hp]) _)
    · cases hg
  | await f | capture f =>
    obtain ⟨F, hF, hp, hg⟩ := of_slot hs
    (repeat' split at hg) <;> cases hg
    exact work_setFence hF rfl rfl rfl (by simp [MetadataFence.work, MetadataFence.inodes, hp])
  | drain f | reach f =>
    obtain ⟨F, hF, hg⟩ := bind_eq_some_iff.1 hs
    split at hg
    · rename_i hp
      obtain ⟨-, rfl⟩ := of_guard hg
      exact work_setFence hF rfl rfl rfl (by simp [MetadataFence.work, hp])
    · cases hg
  | target f =>
    obtain ⟨F, hF, hg⟩ := bind_eq_some_iff.1 hs
    split at hg <;> cases hg <;> rename_i hp <;> refine work_setFence hF rfl rfl rfl ?_ <;>
      simp [MetadataFence.work, hp]
    omega
  | drop f =>
    obtain ⟨F, hF, hg⟩ := bind_eq_some_iff.1 hs
    obtain ⟨-, rfl⟩ := of_guard hg
    obtain ⟨G, hG, hp⟩ := (any_eq_true _ _).1 ha
    cases hF.symm.trans hG
    exact work_setFence hF rfl rfl rfl (by simp [MetadataFence.work, of_decide_eq_true hp])

/-! ## Where nothing moves -/

/-- What holds in every state that admitted steps reach. -/
structure Healthy (s : State) : Prop where
  ok : Ok s
  live : Live s

theorem boot_healthy : Healthy {} where
  ok := boot_ok
  live := by
    refine ⟨⟨rfl, rfl, rfl⟩, fun p w hw => (by cases hw), fun id => ⟨fun n hn hle => ?_, nofun, List.Sublist.refl _⟩,
      fun guard scope hg => (by cases hg),
      fun identity q hq => (by cases hq), fun p q v w hv => (by cases hv), fun n hn hle => ?_, nofun, nodup_nil,
      fun p hp => (by cases hp)⟩
    · exact absurd hn (Nat.not_lt.2 hle)
    · exact absurd hn (Nat.not_lt.2 hle)

theorem step_healthy (h : Healthy s) (hc : Admitted s a) (hs : s.step a = some s') : Healthy s' where
  ok := step_ok h.ok hs
  live := step_live h.live hc hs

/-- No step brings a write or a fence forward. -/
def Stuck (s : State) : Prop := ∀ a, Forward s a → s.step a = none

theorem onWrite_of {phase : Phase} (hw : s.At p w) (hp : w.phase = phase) (k : Write → Option State) :
    s.onWrite p phase k = k w := by
  unfold onWrite
  rw [hw, bind_some, if_pos hp]

theorem onFence_of {phase : FencePhase} (hF : s.fences[f]? = some F) (hp : F.phase = phase)
    (k : MetadataFence → Option State) : s.onFence f phase k = k F := by
  unfold onFence
  rw [hF, bind_some, if_pos hp]

theorem Stuck.waits (hst : Stuck s) (h : Live s) (hw : s.At p w) : w.waits := by
  unfold Write.waits
  have hans := (h.write p w hw).answered
  cases hp : w.phase with
  | pending | accepted | recorded | joined | refused => trivial
  | called =>
    have hno : s.onWrite p .called _ = none := hst (.lookup p) rfl
    rw [onWrite_of hw hp] at hno
    split at hno
    · cases hno
    · split at hno <;> cases hno
  | registered =>
    have hno : s.onWrite p .registered _ = none := hst (.stage p) rfl
    obtain ⟨hne, hn⟩ := (h.write p w hw).members
    rw [onWrite_of hw hp, h.healthy.2.2, if_neg (by simp [hne, hn])] at hno
    cases hno
  | staged =>
    have hno : s.onWrite p .staged _ = none := hst (.publish p) rfl
    rw [onWrite_of hw hp] at hno
    split at hno <;> cases hno
  | published =>
    have hno : s.onWrite p .published _ = none := hst (.accept p) rfl
    rw [onWrite_of hw hp] at hno
    cases hno
  | applied =>
    have hno : s.onWrite p .applied _ = none := hst (.record p) rfl
    rw [onWrite_of hw hp, h.healthy.2.1, if_neg nofun] at hno
    cases hno
  | cancelled => unfold Write.Answered at hans; rw [hp] at hans; exact hans

theorem Stuck.accepted_or_recorded (hst : Stuck s) (h : Live s) (hw : s.At p w) (hstaged : w.wasStaged = true) :
    w.phase = .accepted ∨ w.phase = .recorded := by
  have := hst.waits h hw
  unfold Write.waits at this
  cases hp : w.phase <;> simp [hp] at this hstaged ⊢

theorem Stuck.head (hst : Stuck s) (h : Live s) {sequence : Nat} {rest : List (Nat × Nat)}
    (hjobs : (s.lane id).jobs = (sequence, p) :: rest) : ∃ w, s.At p w ∧ w.phase = .accepted := by
  have hmem : p ∈ s.order := (h.lanes id).order.subset (by rw [hjobs]; exact mem_cons_self)
  obtain ⟨w, hw⟩ := h.order.2 p hmem
  refine ⟨w, hw, (hst.accepted_or_recorded h hw ((h.write p w hw).order.2 hmem)).resolve_right fun hp => ?_⟩
  have hno := hst (.complete id) rfl
  unfold step at hno
  dsimp only at hno
  rw [hjobs] at hno
  dsimp only at hno
  rw [h.healthy.2.2, hw, if_pos ⟨rfl, by unfold Write.isSettled; rw [any_some, hp]; rfl⟩] at hno
  cases hno

/-- Among the elements of a list, the first with a property is at the head of every sublist that has it and begins with
such an element. -/
theorem head_of_sublist {l₁ l₂ : List Nat} {jobs : List Nat} (hn : (l₁ ++ p :: l₂).Nodup)
    (hsub : jobs.Sublist (l₁ ++ p :: l₂)) (hp : p ∈ jobs) (hhead : ∀ x ∈ jobs.head?, x ∉ l₁) : jobs.head? = some p := by
  obtain ⟨as, bs, rfl, has, hbs⟩ := sublist_append_iff.1 hsub
  cases as with
  | cons a as => exact absurd (has.subset mem_cons_self) (hhead a rfl)
  | nil =>
    cases hbs with
    | cons _ hbs => exact absurd (hbs.subset hp) (nodup_cons.1 (nodup_append.1 hn).2.1).1
    | cons_cons => rfl

/-- Every staged write is recorded: otherwise the first of them that is not is at all its heads. -/
theorem Stuck.recorded (hst : Stuck s) (h : Live s) (hw : s.At p w) : w.phase ≠ .accepted := by
  intro hp
  have hmem : p ∈ s.order := (h.write p w hw).order.1 (by simp [hp])
  have hex : ∃ q ∈ s.order, ((s.writes[q]?).any fun v => decide (v.phase = .accepted)) = true :=
    ⟨p, hmem, by rw [hw, any_some]; exact decide_eq_true hp⟩
  obtain ⟨q, hq⟩ := isSome_iff_exists.1 (find?_isSome.2 hex)
  obtain ⟨hacc, l₁, l₂, horder, hfirst⟩ := find?_eq_some_iff_append.1 hq
  obtain ⟨v, hv, hvp⟩ := (any_eq_true _ _).1 hacc
  have hvp := of_decide_eq_true hvp
  have hheads : s.atHeads q v = true := by
    refine all_eq_true.2 fun id hid => ?_
    have hjob := (h.write q v hv).jobs (by simp [hvp]) id hid
    have hsub := (h.lanes id).order
    have hnodup := h.order.1
    rw [horder] at hsub hnodup
    have hhead := head_of_sublist hnodup hsub hjob (fun x hx hx1 => by
      rw [head?_map] at hx
      obtain ⟨⟨sequence, x'⟩, hj, rfl⟩ := map_eq_some_iff.1 hx
      obtain ⟨rest, hjobs⟩ := head?_eq_some_iff.1 hj
      obtain ⟨u, hu, hup⟩ := hst.head h hjobs
      have := hfirst x' hx1
      rw [hu, any_some, hup] at this
      cases this)
    rw [head?_map] at hhead
    obtain ⟨job, hj, hjq⟩ := map_eq_some_iff.1 hhead
    rw [hj, any_some]
    exact decide_eq_true hjq
  have hno : s.onWrite q .accepted _ = none := hst (.apply q) rfl
  rw [onWrite_of hv hvp, h.healthy.2.1, hheads, if_neg (by simp)] at hno
  cases hno

theorem Stuck.drained (hst : Stuck s) (h : Live s) :
    (∀ id, (s.lane id).next ≤ (s.lane id).done.through) ∧ s.gate.publishedThrough ≤ s.progress.through := by
  refine ⟨fun id => Frontier.le_through (h.lanes id).settled fun n hn hle => ?_, Frontier.le_through h.settled
    fun n hn hle => ?_⟩
  · refine ((h.lanes id).all n hn hle).resolve_right fun hmem => ?_
    cases hjobs : (s.lane id).jobs with
    | nil => rw [hjobs] at hmem; cases hmem
    | cons job rest => obtain ⟨w, hw, hp⟩ := hst.head h hjobs; exact hst.recorded h hw hp
  · obtain ⟨p, w, hw, hpub, rfl⟩ := h.sequences n hn hle
    refine ((h.write p w hw).recorded ?_).2
    refine (hst.accepted_or_recorded h hw ?_).resolve_left (hst.recorded h hw)
    cases hp : w.phase <;> simp [hp] at hpub ⊢

theorem Stuck.closed (hst : Stuck s) (h : Live s) (scope : ConflictScope) : s.gate.isClosed scope = true := by
  unfold PreparationGate.isClosed
  rw [h.healthy.1]
  refine all_eq_true.2 fun row hrow => ?_
  obtain ⟨p, w, hw, hact, -⟩ := h.active row.1 row.2 (Table.mem_entries.1 hrow)
  have := hst.waits h hw
  unfold Write.waits at this
  cases hp : w.phase <;> simp [hp] at this hact

section

variable (hst : Stuck s) (h : Healthy s)
include hst h

theorem Stuck.gone (hF : s.fences[f]? = some F) : F.phase = .gone := by
  obtain ⟨hlanes, hprogress⟩ := hst.drained h.live
  have hok := h.ok.fences F (mem_of_getElem? hF)
  cases hp : F.phase with
  | gone => rfl
  | closing =>
    have hno : s.onFence f .closing _ = none := hst (.await f) rfl
    rw [onFence_of hF hp, if_pos (hst.closed h.live _)] at hno
    cases hno
  | quiet =>
    have hno : s.onFence f .quiet _ = none := hst (.capture f) rfl
    rw [onFence_of hF hp] at hno
    cases hno
  | waiting cutoff =>
    have hno : (s.fences[f]?).bind _ = none := hst (.drain f) rfl
    rw [hF, bind_some, hp] at hno
    dsimp only at hno
    rw [if_pos (.inr ⟨h.live.healthy.2.1, Nat.le_trans (hok.cutoff cutoff hp) hprogress⟩)] at hno
    cases hno
  | draining todo =>
    have hno : (s.fences[f]?).bind _ = none := hst (.target f) rfl
    rw [hF, bind_some, hp] at hno
    cases todo <;> cases hno
  | reaching id target todo =>
    have hno : (s.fences[f]?).bind _ = none := hst (.reach f) rfl
    rw [hF, bind_some, hp] at hno
    dsimp only at hno
    rw [if_pos ⟨h.live.healthy.2.2, Nat.le_trans (hok.given id target todo hp) (hlanes id)⟩] at hno
    cases hno
  | ready =>
    have hno : (s.fences[f]?).bind _ = none := hst (.drop f) (by
      show (s.fences[f]?).any _ = true
      rw [hF, any_some]
      exact decide_eq_true hp)
    rw [hF, bind_some, if_pos (by simp [hp])] at hno
    cases hno

theorem Stuck.opened (key : ConflictKey) : s.gate.closingCount key = 0 := by
  rw [h.ok.closing, countP_eq_zero]
  intro F hF
  obtain ⟨f, hF⟩ := mem_iff_getElem?.1 hF
  unfold MetadataFence.closes MetadataFence.isLive
  rw [hst.gone h hF]
  exact nofun

theorem Stuck.not_pending (hw : s.At p w) : w.phase ≠ .pending := by
  intro hp
  have hno : s.onWrite p .pending _ = none := hst (.register p) (by
    show ((s.writes[p]?).all _ && true) = true
    rw [hw, all_some, Bool.and_true]
    exact all_eq_true.2 fun key _ => decide_eq_true (hst.opened h key))
  rw [onWrite_of hw hp] at hno
  split at hno <;> cases hno

theorem Stuck.owner (hw : s.At p w) (hown : w.isOwner = true) : w.phase = .recorded := by
  have hwait := hst.waits h.live hw
  have hpending := hst.not_pending h hw
  have haccepted := hst.recorded h.live hw
  unfold Write.waits at hwait
  cases hp : w.phase <;> simp [hp] at hwait hown hpending haccepted ⊢

/-- **No deadlock**: where nothing moves, every write has its answer. -/
theorem Stuck.answered (hw : s.At p w) :
    w.answer = some (.ok ()) ∨ w.answer = some (.error .retryLater) := by
  have hwl := h.live.write p w hw
  have hwait := hst.waits h.live hw
  have hans := hwl.answered
  unfold Write.waits at hwait
  unfold Write.Answered at hans
  cases hp : w.phase with
  | called | registered | staged | published | applied | cancelled => rw [hp] at hwait; cases hwait
  | pending => exact absurd hp (hst.not_pending h hw)
  | accepted => exact absurd hp (hst.recorded h.live hw)
  | recorded => rw [hp] at hans; exact .inl hans
  | refused => rw [hp] at hans; exact hans
  | joined q =>
    obtain ⟨v, hv, hown⟩ := hwl.joined q hp
    have hout := ((h.live.write q v hv).recorded (hst.owner h hv hown)).1
    have hno : (s.writes[p]?).bind _ = none := hst (.finish p) rfl
    rw [hw, bind_some, hp] at hno
    dsimp only at hno
    rw [hv, bind_some, hout] at hno
    cases hno

end

theorem Live.answers (h : Live s) (hw : s.At p w) :
    w.answer = none ∨ w.answer = some (.ok ()) ∨ w.answer = some (.error .retryLater) := by
  have hans := (h.write p w hw).answered
  unfold Write.Answered at hans
  cases hp : w.phase <;> rw [hp] at hans <;>
    first | exact .inl hans | exact .inr (.inl hans) | exact .inr hans | cases hans

/-- **Every write is answered, with success or back-pressure**: in every run in which writes register only while their
keys are open, no answer is another error; the steps that bring writes and fences forward are bounded by the work that
is left; and where no such step is left, every write has its answer. -/
theorem writes_are_answered (h : Reach step Admitted {} s) :
    (∀ (p : Nat) (w : Write), s.writes[p]? = some w → w.answer = none ∨ w.answer = some (.ok ()) ∨
      w.answer = some (.error .retryLater)) ∧
    (∀ as t, run (guarded step Forward) s as = some t → as.length ≤ s.work) ∧
    (Stuck s → ∀ (p : Nat) (w : Write), s.writes[p]? = some w → w.answer = some (.ok ()) ∨
      w.answer = some (.error .retryLater)) := by
  have hhealthy : Healthy s := h.invariant boot_healthy fun _ _ _ hI hc hs => step_healthy hI hc hs
  refine ⟨fun p w hw => hhealthy.live.answers hw, fun as t hrun => ?_, fun hst p w hw => hst.answered hhealthy hw⟩
  have hle := run_length_le (I := Healthy) (m := work) (fun s a t hI hc hs => by
    obtain ⟨hadm, hprog⟩ := Bool.and_eq_true_iff.1 hc
    exact ⟨step_healthy hI hadm hs, step_work hprog hs⟩) hhealthy hrun
  omega

/-- A fence of inode 1 and then a write of it, which waits until the fence is dropped. -/
def afterFence : List Action :=
  [.fence [.inode 1], .await 0, .capture 0, .drain 0, .target 0, .reach 0, .target 0, .call [1] 0, .lookup 0, .drop 0,
    .register 0, .stage 0, .publish 0, .accept 0]

theorem writes_are_answered_after_fence : ∃ s w, Reach step Admitted {} s ∧ s.writes = [w] ∧ s.fences.length = 1 ∧
    (w.answer = none ∨ w.answer = some (.ok ()) ∨ w.answer = some (.error .retryLater)) ∧ w.answer ≠ none := by
  have hreach : Reach step Admitted {} _ := reach_of_run .init (l := afterFence) rfl
  exact ⟨_, _, hreach, rfl, rfl, (writes_are_answered hreach).1 0 _ rfl, nofun⟩

/-- **A write that arrives during a fence fails for good**: the fence of inode 1 is live, nothing is poisoned, and a
write of the inode, and a retry that joined it, are answered with an I/O error. -/
theorem closed_gate_fails_write : ∃ s, run step {} [.fence [.inode 1], .call [1] 0, .call [1] 0, .lookup 0, .lookup 1,
    .register 0, .finish 1] = some s ∧
    s.gate.terminal = none ∧ s.poisoned = false ∧ s.frozen = false ∧
    s.writes.map (·.answer) = [some (.error .ioError), some (.error .ioError)] :=
  ⟨_, rfl, rfl, rfl, rfl, rfl⟩

end State

end ZeroFS.Fence
