import ZeroFS.Fence.Gate
import ZeroFS.Lib.Slots

/-!
# A metadata fence is a barrier

While a fence closes its keys no write that names one of them registers, so from `wait_closed` on the writes of its
inodes only move towards their end (`FenceOk.moves`). An entry that such a write has in the lane of another inode may
still be there, and a `directory` key keeps no write of that inode out.
-/

namespace ZeroFS.Fence

open Machine List Option Slots

/-! ## Counting closed keys -/

namespace PreparationGate

variable {g g' : PreparationGate} {scope : ConflictScope} {key : ConflictKey}

theorem get_foldl_close (hn : scope.Nodup) (t : Table ConflictKey Nat) (key : ConflictKey) :
    ((scope.foldl (fun t key => t.put key ((t.get key).getD 0 + 1)) t).get key).getD 0 =
      (t.get key).getD 0 + if key ∈ scope then 1 else 0 := by
  induction scope generalizing t with
  | nil => simp
  | cons x scope ih =>
    obtain ⟨hx, hn⟩ := nodup_cons.1 hn
    rw [foldl_cons, ih hn, Table.get_put]
    by_cases hkey : key = x
    · subst hkey; simp [hx]
    · simp [hkey]

theorem get_foldl_reopen (hn : scope.Nodup) (t : Table ConflictKey Nat) (key : ConflictKey) :
    ((scope.foldl (fun t key =>
      match t.get key with
      | none => t
      | some count => if count - 1 = 0 then t.del key else t.put key (count - 1)) t).get key).getD 0 =
        (t.get key).getD 0 - if key ∈ scope then 1 else 0 := by
  induction scope generalizing t with
  | nil => simp
  | cons x scope ih =>
    obtain ⟨hx, hn⟩ := nodup_cons.1 hn
    rw [foldl_cons, ih hn]
    by_cases hkey : key = x
    · subst hkey
      cases hget : t.get key with
      | none => simp [hx, hget]
      | some count =>
        by_cases hone : count - 1 = 0
        · simp [hx, hone]
        · simp [hx, hone]
    · cases hget : t.get x with
      | none => simp [hkey]
      | some count =>
        by_cases hone : count - 1 = 0
        · simp [hkey, hone, Table.get_del]
        · simp [hkey, hone, Table.get_put]

theorem closingCount_beginClose (hn : scope.Nodup) (h : g.beginClose scope = .ok g') (key : ConflictKey) :
    g'.closingCount key = g.closingCount key + if key ∈ scope then 1 else 0 := by
  unfold beginClose at h
  split at h
  · cases h
  · cases h; exact get_foldl_close hn g.closing key

theorem closingCount_reopenScope (hn : scope.Nodup) (key : ConflictKey) :
    (g.reopenScope scope).closingCount key = g.closingCount key - if key ∈ scope then 1 else 0 :=
  get_foldl_reopen hn g.closing key

theorem beginClose_eq (h : g.beginClose scope = .ok g') :
    g'.active = g.active ∧ g'.nextId = g.nextId ∧ g'.publishedThrough = g.publishedThrough ∧
    g'.terminal = g.terminal := by
  unfold beginClose at h
  split at h
  · cases h
  · cases h; exact ⟨rfl, rfl, rfl, rfl⟩

theorem register_eq_ok {id : Nat} (h : g.register scope = .ok (id, g')) :
    (∀ key ∈ scope, g.closingCount key = 0) ∧ id = g.nextId ∧
      g' = { g with active := g.active.put g.nextId scope, nextId := g.nextId + 1 } := by
  unfold register at h
  split at h
  · cases h
  split at h
  · cases h
  rename_i hopen
  cases h
  refine ⟨fun key hkey => ?_, rfl, rfl⟩
  by_contra hne
  exact hopen (any_eq_true.2 ⟨key, hkey, decide_eq_true (Nat.pos_of_ne_zero hne)⟩)

end PreparationGate

theorem overlaps_eq_true {left right : ConflictScope} : overlaps left right = true ↔ ∃ key ∈ left, key ∈ right := by
  simp [overlaps]

theorem Write.inode_mem_scope {w : Write} {id : InodeId} : .inode id ∈ w.scope ↔ id ∈ w.members := by
  simp [Write.scope, ConflictScope.new]

namespace State

variable {s s' : State} {p q f : Nat} {w w' v : Write} {F F' : MetadataFence} {a : Action} {id : InodeId}

/-! ## What steps do to fences that wait -/

/-- The lane has moved on; new entries are those of a write that is in `P`. -/
structure LaneMoves (l l' : Lane) (P : Prop) : Prop where
  next_le : l.next ≤ l'.next
  entries : P ∨ (l'.next = l.next ∧ ∀ e ∈ l'.entries, e ∈ l.entries)

/-- What a step may do to the writes that a fence waits for. -/
structure Moves (s s' : State) : Prop where
  active : ∀ p w', s'.At p w' → w'.isActive = true →
    (∃ w, s.At p w ∧ w.isActive = true ∧ w'.members = w.members) ∨ ∀ key ∈ w'.scope, s.gate.closingCount key = 0
  published : ∀ p w', s'.At p w' → w'.isPublished = true → ∃ w, s.At p w ∧ w'.members = w.members ∧
    (w.isActive = true ∨ (w.isPublished = true ∧ w'.sequence = w.sequence ∧
      (w.phase = .recorded → w'.phase = .recorded)))
  through : s.gate.publishedThrough ≤ s'.gate.publishedThrough
  lane : ∀ id, LaneMoves (s.lane id) (s'.lane id) (∃ p w, s.At p w ∧ w.isActive = true ∧ id ∈ w.members)

theorem scope_eq (h : w'.members = w.members) : w'.scope = w.scope := by
  unfold Write.scope
  rw [h]

end State

namespace MetadataFence

variable (F : MetadataFence)

/-- The mutations published before are materialized. -/
@[simp]
def isDrained : Bool :=
  match F.phase with
  | .draining _ | .reaching _ _ _ | .ready => true
  | _ => false

/-- The inodes whose lanes the fence has not waited for. -/
@[simp]
def todo : List InodeId :=
  match F.phase with
  | .draining todo => todo
  | .reaching id _ todo => id :: todo
  | _ => []

end MetadataFence

namespace State

variable {s s' : State} {p q f : Nat} {w w' v : Write} {F F' : MetadataFence} {a : Action} {id : InodeId}
  {e j : FsError}

/-- What a fence has waited for stays so. -/
structure FenceOk (s : State) (F : MetadataFence) : Prop where
  quiet : F.phase ≠ .closing → F.phase ≠ .gone → ∀ p w, s.At p w → w.isActive = true →
    overlaps w.scope F.scope = false
  waiting : ∀ c, F.phase = .waiting c → ∀ p w, s.At p w → w.isPublished = true →
    overlaps w.scope F.scope = true → w.sequence ≤ c
  drained : F.isDrained = true → ∀ p w, s.At p w → w.isPublished = true → overlaps w.scope F.scope = true →
    w.phase = .recorded
  lanes : F.isDrained = true → ∀ id, ConflictKey.inode id ∈ F.scope → id ∈ F.todo ∨ (s.lane id).entries = []
  target : ∀ id t todo, F.phase = .reaching id t todo → ConflictKey.inode id ∈ F.scope → (s.lane id).next = t
  -- the sequences that the fence waits for have been given out
  cutoff : ∀ c, F.phase = .waiting c → c ≤ s.gate.publishedThrough
  given : ∀ id t todo, F.phase = .reaching id t todo → t ≤ (s.lane id).next

theorem not_closing_of_drained (h : F.isDrained = true) : F.phase ≠ .closing ∧ F.phase ≠ .gone := by
  constructor <;> intro hp <;> simp [hp] at h

/-- Writes and lanes do not undo what a live fence has waited for. -/
theorem FenceOk.moves (h : FenceOk s F) (hm : Moves s s')
    (hclosing : ∀ key ∈ F.scope, F.isLive = true → 0 < s.gate.closingCount key) : FenceOk s' F := by
  have hquiet : F.phase ≠ .closing → F.phase ≠ .gone → ∀ p w, s'.At p w → w.isActive = true →
      overlaps w.scope F.scope = false := by
    intro hc hg p w' hw' hact
    rcases hm.active p w' hw' hact with ⟨w, hw, hwa, hmem⟩ | hopen
    · rw [scope_eq hmem]; exact h.quiet hc hg p w hw hwa
    by_contra hover
    obtain ⟨key, hkey, hF⟩ := overlaps_eq_true.1 (Bool.not_eq_false _ ▸ hover)
    have := hclosing key hF (by simpa [MetadataFence.isLive] using hg)
    rw [hopen key hkey] at this
    cases this
  have hpublished : F.phase ≠ .closing → F.phase ≠ .gone → ∀ p w', s'.At p w' → w'.isPublished = true →
      overlaps w'.scope F.scope = true → ∃ w, s.At p w ∧ w.isPublished = true ∧ overlaps w.scope F.scope = true ∧
        w'.sequence = w.sequence ∧ (w.phase = .recorded → w'.phase = .recorded) := by
    intro hc hg p w' hw' hpub hover
    obtain ⟨w, hw, hmem, hact | ⟨hwp, hseq, hrec⟩⟩ := hm.published p w' hw' hpub
    · rw [scope_eq hmem, h.quiet hc hg p w hw hact] at hover; cases hover
    · exact ⟨w, hw, hwp, by rw [← scope_eq hmem]; exact hover, hseq, hrec⟩
  have hlane : F.phase ≠ .closing → F.phase ≠ .gone → ∀ id, ConflictKey.inode id ∈ F.scope →
      (s'.lane id).next = (s.lane id).next ∧ ∀ e ∈ (s'.lane id).entries, e ∈ (s.lane id).entries := by
    intro hc hg id hid
    refine (hm.lane id).entries.resolve_left ?_
    rintro ⟨p, w, hw, hact, hmem⟩
    have := h.quiet hc hg p w hw hact
    rw [overlaps_eq_true.2 ⟨.inode id, Write.inode_mem_scope.2 hmem, hid⟩] at this
    cases this
  refine ⟨hquiet, fun c hp p w' hw' hpub hover => ?_, fun hd p w' hw' hpub hover => ?_, fun hd id hid => ?_,
    fun id t todo hp hid => ?_, fun c hp => Nat.le_trans (h.cutoff c hp) hm.through,
    fun id t todo hp => Nat.le_trans (h.given id t todo hp) (hm.lane id).next_le⟩
  · obtain ⟨w, hw, hwp, hwo, hseq, -⟩ := hpublished (by rw [hp]; nofun) (by rw [hp]; nofun) p w' hw' hpub hover
    rw [hseq]
    exact h.waiting c hp p w hw hwp hwo
  · obtain ⟨hc, hg⟩ := not_closing_of_drained hd
    obtain ⟨w, hw, hwp, hwo, -, hrec⟩ := hpublished hc hg p w' hw' hpub hover
    exact hrec (h.drained hd p w hw hwp hwo)
  · obtain ⟨hc, hg⟩ := not_closing_of_drained hd
    refine (h.lanes hd id hid).imp_right fun hempty => ?_
    have hsub := (hlane hc hg id hid).2
    rw [hempty] at hsub
    exact eq_nil_iff_forall_not_mem.2 fun e he => not_mem_nil (hsub e he)
  · rw [(hlane (by rw [hp]; nofun) (by rw [hp]; nofun) id hid).1]; exact h.target id t todo hp hid

/-! ## The invariant -/

/-- Guards, sequences and the progress name the writes that they belong to. -/
structure WritesOk (s : State) : Prop where
  active : ∀ p w, s.At p w → w.isActive = true → s.gate.active.get w.guard = some w.scope ∧ w.guard < s.gate.nextId
  guards : ∀ p q v w, s.At p v → s.At q w → v.isActive = true → w.isActive = true →
    v.guard = w.guard → p = q
  sequence : ∀ p w, s.At p w → w.isPublished = true → 0 < w.sequence ∧ w.sequence ≤ s.gate.publishedThrough
  sequences : ∀ p q v w, s.At p v → s.At q w → v.isPublished = true → w.isPublished = true →
    v.sequence = w.sequence → p = q
  progress : ∀ n, 0 < n → s.progress.Holds n → ∃ p w, s.At p w ∧ w.phase = .recorded ∧ w.sequence = n

/-- The entries of a lane are those behind its frontier. -/
structure LaneOk (l : Lane) : Prop where
  entries : ∀ e ∈ l.entries, l.done.through < e.1 ∧ e.1 ≤ l.next
  jobs : ∀ job ∈ l.jobs, job.1 ≤ l.next
  done : ∀ n, l.done.Holds n → n ≤ l.next

theorem LaneOk.stage {l : Lane} (h : LaneOk l) (p : Nat) : LaneOk (l.stage p) := by
  have hle := h.done l.done.through (.inl le_rfl)
  refine ⟨fun e he => ?_, fun job hj => ?_, fun n hn => Nat.le_succ_of_le (h.done n hn)⟩
  · rcases mem_append.1 he with he | he
    · exact ⟨(h.entries e he).1, Nat.le_succ_of_le (h.entries e he).2⟩
    · rw [mem_singleton.1 he]; exact ⟨Nat.lt_succ_of_le hle, le_rfl⟩
  · rcases mem_append.1 hj with hj | hj
    · exact Nat.le_succ_of_le (h.jobs job hj)
    · rw [mem_singleton.1 hj]; exact le_rfl

theorem LaneOk.complete {l : Lane} (h : LaneOk l) {sequence : Nat} (hseq : sequence ≤ l.next) :
    LaneOk (l.complete sequence) := by
  refine ⟨fun e he => ?_, fun job hj => h.jobs job (mem_of_mem_tail hj), fun n hn => ?_⟩
  · obtain ⟨he, hlt⟩ := mem_filter.1 he; exact ⟨of_decide_eq_true hlt, (h.entries e he).2⟩
  rcases Frontier.holds_insert.1 hn with rfl | hn
  · exact hseq
  · exact h.done n hn

/-- What every run keeps. -/
structure Ok (s : State) : Prop where
  closing : ∀ key, s.gate.closingCount key = s.fences.countP (·.closes key)
  scopes : ∀ F ∈ s.fences, F.scope.Nodup
  writes : WritesOk s
  lanes : ∀ id, LaneOk (s.lane id)
  fences : ∀ F ∈ s.fences, FenceOk s F

/-- A closed key is closed by a live fence, and those of a live fence are closed. -/
theorem Ok.closed (h : Ok s) (hF : F ∈ s.fences) (key : ConflictKey) (hkey : key ∈ F.scope) (hlive : F.isLive = true) :
    0 < s.gate.closingCount key := by
  rw [h.closing key]
  refine countP_pos_iff.2 ⟨F, hF, ?_⟩
  rw [MetadataFence.closes, hlive]
  simpa using hkey

theorem Ok.moves (h : Ok s) (hm : Moves s s') (hclosing : s'.gate.closing = s.gate.closing)
    (hfences : s'.fences = s.fences) (hwrites : WritesOk s') (hlanes : ∀ id, LaneOk (s'.lane id)) : Ok s' where
  closing key := by
    rw [hfences, ← h.closing key]
    unfold PreparationGate.closingCount
    rw [hclosing]
  scopes := by rw [hfences]; exact h.scopes
  writes := hwrites
  lanes := hlanes
  fences F hF := by
    rw [hfences] at hF
    exact (h.fences F hF).moves hm fun key hkey hlive => h.closed hF key hkey hlive

/-- One write changes; its guard and its sequence, if it has them, are not those of another. -/
theorem WritesOk.put (h : WritesOk s) (hw : s.At p w) (hs : s'.writes = s.writes.set p w')
    (hact : w'.isActive = true → (s'.gate.active.get w'.guard = some w'.scope ∧ w'.guard < s'.gate.nextId) ∧
      ∀ q v, q ≠ p → s.At q v → v.isActive = true → v.guard ≠ w'.guard)
    (hpub : w'.isPublished = true → (0 < w'.sequence ∧ w'.sequence ≤ s'.gate.publishedThrough) ∧ ∀ q v, q ≠ p →
      s.At q v → v.isPublished = true → v.sequence ≠ w'.sequence)
    (hrec : w.phase = .recorded → w'.phase = .recorded ∧ w'.sequence = w.sequence)
    (hkeep : ∀ q v, q ≠ p → s.At q v → v.isActive = true → s'.gate.active.get v.guard = s.gate.active.get v.guard)
    (hnext : s.gate.nextId ≤ s'.gate.nextId) (hthrough : s.gate.publishedThrough ≤ s'.gate.publishedThrough)
    (hprogress : ∀ n, 0 < n → s'.progress.Holds n → s.progress.Holds n ∨ (w'.phase = .recorded ∧ w'.sequence = n)) :
    WritesOk s' := by
  refine ⟨fun q v hv hva => ?_, fun q r v u hv hu hva hua heq => ?_, fun q v hv hvp => ?_,
    fun q r v u hv hu hvp hup heq => ?_, fun n hn hh => ?_⟩
  · rcases cases_set hs hw hv with ⟨-, rfl⟩ | ⟨hne, hv⟩
    · exact (hact hva).1
    · obtain ⟨hget, hlt⟩ := h.active q v hv hva
      exact ⟨(hkeep q v hne hv hva).trans hget, Nat.lt_of_lt_of_le hlt hnext⟩
  · rcases cases_set hs hw hv with ⟨rfl, rfl⟩ | ⟨hq, hv⟩ <;> rcases cases_set hs hw hu with ⟨rfl, rfl⟩ | ⟨hr, hu⟩
    · rfl
    · exact absurd heq.symm ((hact hva).2 r u hr hu hua)
    · exact absurd heq ((hact hua).2 q v hq hv hva)
    · exact h.guards q r v u hv hu hva hua heq
  · rcases cases_set hs hw hv with ⟨-, rfl⟩ | ⟨-, hv⟩
    · exact (hpub hvp).1
    · exact ⟨(h.sequence q v hv hvp).1, Nat.le_trans (h.sequence q v hv hvp).2 hthrough⟩
  · rcases cases_set hs hw hv with ⟨rfl, rfl⟩ | ⟨hq, hv⟩ <;> rcases cases_set hs hw hu with ⟨rfl, rfl⟩ | ⟨hr, hu⟩
    · rfl
    · exact absurd heq.symm ((hpub hvp).2 r u hr hu hup)
    · exact absurd heq ((hpub hup).2 q v hq hv hvp)
    · exact h.sequences q r v u hv hu hvp hup heq
  · rcases hprogress n hn hh with hh | ⟨hrec', hseq⟩
    · exact any_set hs hw (fun ⟨hr, hseq⟩ => ⟨(hrec hr).1, (hrec hr).2.trans hseq⟩) (h.progress n hn hh)
    · exact ⟨p, w', get_set_self hs hw, hrec', hseq⟩

theorem WritesOk.unregister (h : WritesOk s) (hw : s.At p w) (hact : w.isActive = true)
    (hgate : s'.gate.active = s.gate.active.del w.guard) (q : Nat) (v : Write) (hne : q ≠ p) (hv : s.At q v)
    (hva : v.isActive = true) : s'.gate.active.get v.guard = s.gate.active.get v.guard := by
  rw [hgate, Table.get_del_ne]
  intro heq
  exact hne (h.guards q p v w hv hw hva hact heq)

theorem Moves.set (hw : s.At p w) (hs : s'.writes = s.writes.set p w') (hmem : w'.members = w.members)
    (hact : w'.isActive = true → w.isActive = true)
    (hpub : w'.isPublished = true → w.isActive = true ∨
      (w.isPublished = true ∧ w'.sequence = w.sequence ∧ (w.phase = .recorded → w'.phase = .recorded)))
    (hthrough : s.gate.publishedThrough ≤ s'.gate.publishedThrough)
    (hlane : ∀ id, LaneMoves (s.lane id) (s'.lane id) (w.isActive = true ∧ id ∈ w.members)) : Moves s s' where
  active q v hv hva := by
    rcases cases_set hs hw hv with ⟨rfl, rfl⟩ | ⟨-, hv⟩
    · exact .inl ⟨w, hw, hact hva, hmem⟩
    · exact .inl ⟨v, hv, hva, rfl⟩
  published q v hv hvp := by
    rcases cases_set hs hw hv with ⟨rfl, rfl⟩ | ⟨-, hv⟩
    · exact ⟨w, hw, hmem, hpub hvp⟩
    · exact ⟨v, hv, rfl, .inr ⟨hvp, rfl, id⟩⟩
  through := hthrough
  lane id := ⟨(hlane id).next_le, (hlane id).entries.imp_left fun ⟨hact, hmem⟩ => ⟨p, w, hw, hact, hmem⟩⟩

theorem LaneMoves.refl {l : Lane} {P : Prop} : LaneMoves l l P := ⟨le_rfl, .inr ⟨rfl, fun _ he => he⟩⟩

theorem lane_eq (hs : s'.lanes = s.lanes) (id : InodeId) : s'.lane id = s.lane id := by rw [lane, hs, lane]

/-! ## Steps of writes -/

/-- A write that has not registered, or moves on after its publication. -/
theorem Ok.set (h : Ok s) (hw : s.At p w) (hs : s'.writes = s.writes.set p w') (hmem : w'.members = w.members)
    (hact : w'.isActive = false) (hpub : w'.isPublished = true → w.isPublished = true ∧ w'.sequence = w.sequence)
    (hrec : w.phase = .recorded → w'.phase = .recorded ∧ w'.sequence = w.sequence) (hgate : s'.gate = s.gate)
    (hlanes : s'.lanes = s.lanes) (hfences : s'.fences = s.fences)
    (hprogress : ∀ n, 0 < n → s'.progress.Holds n → s.progress.Holds n ∨ (w'.phase = .recorded ∧ w'.sequence = n)) :
    Ok s' := by
  refine h.moves (.set hw hs hmem (by rw [hact]; exact nofun)
    (fun hp => .inr ⟨(hpub hp).1, (hpub hp).2, fun hr => (hrec hr).1⟩)
    (by rw [hgate]) fun id => by rw [lane_eq hlanes]; exact .refl) (by rw [hgate]) hfences ?_
      fun id => by rw [lane_eq hlanes]; exact h.lanes id
  refine h.writes.put hw hs (by rw [hact]; exact nofun) (fun hp => ?_) hrec (fun q v _ _ _ => by rw [hgate])
    (by rw [hgate]) (by rw [hgate]) hprogress
  obtain ⟨hwp, hseq⟩ := hpub hp
  rw [hseq, hgate]
  exact ⟨h.writes.sequence p w hw hwp, fun q v hne hv hvp heq => hne (h.writes.sequences q p v w hv hw hvp hwp heq)⟩

theorem Ok.outside (h : Ok s) (hw : s.At p w) (hs : s'.writes = s.writes.set p w') (hmem : w'.members = w.members)
    (hout : w'.isActive = false ∧ w'.isPublished = false) (hin : w.phase ≠ .recorded) (hgate : s'.gate = s.gate)
    (hlanes : s'.lanes = s.lanes) (hfences : s'.fences = s.fences) (hprogress : s'.progress = s.progress) : Ok s' :=
  h.set hw hs hmem hout.1 (by rw [hout.2]; exact nofun) (fun hr => absurd hr hin) hgate hlanes hfences
    fun n _ hh => .inl (by rw [← hprogress]; exact hh)

theorem laneAt_put (lanes : Table InodeId Lane) (id' : InodeId) (l : Lane) (id : InodeId) :
    laneAt (lanes.put id' l) id = if id = id' then l else laneAt lanes id := by
  rw [laneAt, Table.get_put]
  split <;> rfl

/-- Staging changes the lanes of the members only. -/
theorem stageAll_spec (p : Nat) (members : List InodeId) {lanes : Table InodeId Lane}
    (hok : ∀ id, LaneOk (laneAt lanes id)) (id : InodeId) :
    LaneOk (laneAt (stageAll p members lanes) id) ∧
    LaneMoves (laneAt lanes id) (laneAt (stageAll p members lanes) id) (id ∈ members) := by
  induction members generalizing lanes with
  | nil => exact ⟨hok id, .refl⟩
  | cons x members ih =>
    have hput : ∀ id, LaneOk (laneAt (lanes.put x ((laneAt lanes x).stage p)) id) := by
      intro id
      rw [laneAt_put]
      split
      · exact (hok x).stage p
      · exact hok id
    obtain ⟨h1, h2⟩ := ih hput
    rw [laneAt_put] at h2
    split at h2
    · rename_i hid; subst hid; exact ⟨h1, Nat.le_trans (Nat.le_succ _) h2.next_le, .inl mem_cons_self⟩
    · exact ⟨h1, h2.next_le, h2.entries.imp_left (mem_cons_of_mem x)⟩

section

variable (h : Ok s)
include h

section

variable (hw : s.At p w)
include hw

theorem Ok.cancel (hact : w.isActive = true) (hs : s'.writes = s.writes.set p (w.cancel e j)) (members : List InodeId)
    (hsub : ∀ id ∈ members, id ∈ w.members) (hlanes : s'.lanes = stageAll p members s.lanes)
    (hgate : s'.gate = s.gate.unregister w.guard) (hfences : s'.fences = s.fences)
    (hprogress : s'.progress = s.progress) : Ok s' := by
  have hlane : ∀ id, LaneOk (s'.lane id) ∧ LaneMoves (s.lane id) (s'.lane id) (id ∈ members) := by
    unfold lane
    rw [hlanes]
    exact stageAll_spec p members h.lanes
  refine h.moves (.set hw hs rfl nofun nofun (by rw [hgate]; exact le_rfl) fun id => ?_) (by rw [hgate]; rfl) hfences ?_
    fun id => (hlane id).1
  · exact ⟨(hlane id).2.next_le, (hlane id).2.entries.imp_left fun hid => ⟨hact, hsub id hid⟩⟩
  · exact h.writes.put hw hs nofun nofun (fun hr => by simp [hr] at hact)
      (h.writes.unregister hw hact (by rw [hgate]; rfl)) (by rw [hgate]; rfl)
      (by rw [hgate]; rfl) fun n _ hh => .inl (by rw [← hprogress]; exact hh)

/-- A registered write gets entries in its lanes. -/
theorem Ok.stage (hp : w.phase = .registered) : Ok (s.stageWrite p w) := by
  have hact : w.isActive = true := by simp [hp]
  have hlane := stageAll_spec p w.members h.lanes
  refine h.moves (.set hw rfl rfl (fun _ => hact) nofun le_rfl fun id => ?_) rfl rfl ?_ fun id => (hlane id).1
  · exact ⟨(hlane id).2.next_le, (hlane id).2.entries.imp_left fun hid => ⟨hact, hid⟩⟩
  · exact h.writes.put hw rfl
      (fun _ => ⟨h.writes.active p w hw hact,
      fun q v hne hv hva heq => hne (h.writes.guards q p v w hv hw hva hact heq)⟩) nofun (by rw [hp]; nofun)
      (fun _ _ _ _ _ => rfl) le_rfl le_rfl fun n _ hh => .inl hh

theorem Ok.register (hp : w.phase = .pending) {guard : Nat} {gate : PreparationGate}
    (hr : s.gate.register w.scope = .ok (guard, gate)) :
    Ok { s.setWrite p { w with phase := .registered, guard := guard } with gate := gate } := by
  obtain ⟨hopen, rfl, rfl⟩ := PreparationGate.register_eq_ok hr
  refine h.moves ⟨fun q v hv hva => ?_, fun q v hv hvp => ?_, le_rfl, fun _ => .refl⟩ rfl rfl ?_ h.lanes
  · rcases cases_set rfl hw hv with ⟨rfl, rfl⟩ | ⟨-, hv⟩
    · exact .inr hopen
    · exact .inl ⟨v, hv, hva, rfl⟩
  · rcases cases_set rfl hw hv with ⟨rfl, rfl⟩ | ⟨-, hv⟩
    · cases hvp
    · exact ⟨v, hv, rfl, .inr ⟨hvp, rfl, id⟩⟩
  · exact h.writes.put hw rfl (fun _ => ⟨⟨Table.get_put_self _ _ _, Nat.lt_succ_self _⟩,
        fun q v _ hv hva => Nat.ne_of_lt (h.writes.active q v hv hva).2⟩) nofun (by rw [hp]; nofun)
      (fun q v _ hv hva => Table.get_put_ne (Nat.ne_of_lt (h.writes.active q v hv hva).2)) (Nat.le_succ _) le_rfl
      fun n _ hh => .inl hh

theorem Ok.publish (hp : w.phase = .staged) :
    Ok { s.setWrite p { w with phase := .published, sequence := s.gate.publishedThrough + 1 } with
      gate := { s.gate.unregister w.guard with publishedThrough := s.gate.publishedThrough + 1 } } := by
  have hact : w.isActive = true := by simp [hp]
  refine h.moves (.set hw rfl rfl nofun (fun _ => .inl hact) (Nat.le_succ _) fun _ => .refl) rfl rfl ?_ h.lanes
  exact h.writes.put hw rfl nofun (fun _ => ⟨⟨Nat.succ_pos _, le_rfl⟩,
      fun q v _ hv hvp => Nat.ne_of_lt (Nat.lt_succ_of_le (h.writes.sequence q v hv hvp).2)⟩) (by rw [hp]; nofun)
    (h.writes.unregister hw hact rfl) le_rfl (Nat.le_succ _) fun n _ hh => .inl hh

end

theorem Ok.complete {sequence : Nat} {rest : List (Nat × Nat)} (hjobs : (s.lane id).jobs = (sequence, p) :: rest) :
    Ok (s.completeHead id sequence) := by
  have hseq := (h.lanes id).jobs (sequence, p) (by rw [hjobs]; exact mem_cons_self)
  refine h.moves ⟨fun q v hv hva => .inl ⟨v, hv, hva, rfl⟩,
    fun q v hv hvp => ⟨v, hv, rfl, .inr ⟨hvp, rfl, fun hr => hr⟩⟩, le_rfl, fun x => ?_⟩ rfl rfl { h.writes with }
    fun x => ?_
  · rw [lane, lane, completeHead, laneAt_put]
    split
    · rename_i hx; subst hx; exact ⟨le_rfl, .inr ⟨rfl, fun e he => (mem_filter.1 he).1⟩⟩
    · exact .refl
  · rw [lane, completeHead, laneAt_put]
    split
    · exact (h.lanes id).complete hseq
    · exact h.lanes x

/-- A step that touches neither writes nor lanes nor fences. -/
theorem Ok.frame (hw : s'.writes = s.writes) (hl : s'.lanes = s.lanes) (hf : s'.fences = s.fences)
    (hpr : s'.progress = s.progress)
    (hg : s'.gate.active = s.gate.active ∧ s'.gate.nextId = s.gate.nextId ∧
      s'.gate.publishedThrough = s.gate.publishedThrough ∧ s'.gate.closing = s.gate.closing) : Ok s' := by
  refine h.moves ⟨fun q v hv hva => .inl ⟨v, by rw [At, ← hw]; exact hv, hva, rfl⟩,
    fun q v hv hvp => ⟨v, by rw [At, ← hw]; exact hv, rfl, .inr ⟨hvp, rfl, fun hr => hr⟩⟩, by rw [hg.2.2.1],
    fun id => by rw [lane_eq hl]; exact .refl⟩ hg.2.2.2 hf ?_
    fun id => by rw [lane_eq hl]; exact h.lanes id
  obtain ⟨h1, h2, h3, h4, h5⟩ := h.writes
  unfold At at h1 h2 h3 h4 h5
  refine ⟨?_, ?_, ?_, ?_, ?_⟩ <;> unfold At
  · rw [hw, hg.1, hg.2.1]; exact h1
  · rw [hw]; exact h2
  · rw [hw, hg.2.2.1]; exact h3
  · rw [hw]; exact h4
  · rw [hw, hpr]; exact h5

/-! ## Steps of fences -/

theorem Ok.setFence (hF : s.fences[f]? = some F) (hscope : F'.scope = F.scope) (hlive : F'.isLive = F.isLive)
    (hok : FenceOk s F') : Ok (s.setFence f F') := by
  have hlt := (List.getElem?_eq_some_iff.1 hF).1
  have hget : s.fences[f] = F := (List.getElem?_eq_some_iff.1 hF).2
  have hmem := mem_of_getElem? hF
  have hcloses : ∀ key, F'.closes key = F.closes key := fun key => by unfold MetadataFence.closes; rw [hscope, hlive]
  refine ⟨fun key => ?_, fun G hG => ?_, { h.writes with }, h.lanes, fun G hG => ?_⟩
  · show s.gate.closingCount key = (s.fences.set f F').countP _
    rw [countP_set hlt, hget, hcloses key, h.closing key]
    split
    · rename_i hc; have := countP_pos_iff (p := fun G => G.closes key).2 ⟨F, hmem, hc⟩; omega
    · omega
  · rcases mem_or_eq_of_mem_set hG with hG | rfl
    · exact h.scopes G hG
    · rw [hscope]; exact h.scopes F hmem
  · rcases mem_or_eq_of_mem_set hG with hG | rfl
    · exact { h.fences G hG with }
    · exact { hok with }

theorem Ok.fence {scope : ConflictScope} (hn : scope.Nodup) {gate : PreparationGate}
    (hc : s.gate.beginClose scope = .ok gate) :
    Ok { s with gate := gate, fences := s.fences ++ [{ scope := scope }] } := by
  obtain ⟨hactive, hnext, hthrough, -⟩ := PreparationGate.beginClose_eq hc
  have hwrites : WritesOk { s with gate := gate, fences := s.fences ++ [{ scope := scope }] } := by
    obtain ⟨h1, h2, h3, h4, h5⟩ := h.writes
    refine ⟨?_, h2, ?_, h4, h5⟩
    · rw [hactive, hnext]; exact h1
    · rw [hthrough]; exact h3
  refine ⟨fun key => ?_, fun G hG => ?_, hwrites, h.lanes, fun G hG => ?_⟩
  · rw [PreparationGate.closingCount_beginClose hn hc key, h.closing key, countP_append, countP_singleton]
    unfold MetadataFence.closes MetadataFence.isLive
    simp
  · rcases mem_append.1 hG with hG | hG
    · exact h.scopes G hG
    · rw [mem_singleton.1 hG]; exact hn
  · rcases mem_append.1 hG with hG | hG
    · have hG := h.fences G hG
      exact { hG with cutoff := fun c hp => by rw [hthrough]; exact hG.cutoff c hp }
    · rw [mem_singleton.1 hG]; exact ⟨fun hne => absurd rfl hne, nofun, nofun, nofun, nofun, nofun, nofun⟩

/-- A dropped fence reopens its keys, as far as no other fence closes them. -/
theorem Ok.drop (hF : s.fences[f]? = some F) (hlive : F.isLive = true) :
    Ok { s.setFence f { F with phase := .gone } with gate := s.gate.reopenScope F.scope } := by
  have hlt := (List.getElem?_eq_some_iff.1 hF).1
  have hget : s.fences[f] = F := (List.getElem?_eq_some_iff.1 hF).2
  have hmem := mem_of_getElem? hF
  refine ⟨fun key => ?_, fun G hG => ?_, { h.writes with }, h.lanes, fun G hG => ?_⟩
  · show (s.gate.reopenScope F.scope).closingCount key = (s.fences.set f _).countP _
    rw [PreparationGate.closingCount_reopenScope (h.scopes F hmem), countP_set hlt, hget, h.closing key]
    have hgone : ({ F with phase := .gone } : MetadataFence).closes key = false := rfl
    rw [hgone, MetadataFence.closes, hlive, Bool.true_and]
    simp
  · rcases mem_or_eq_of_mem_set hG with hG | rfl
    · exact h.scopes G hG
    · exact h.scopes F hmem
  · rcases mem_or_eq_of_mem_set hG with hG | rfl
    · exact { h.fences G hG with }
    · exact ⟨fun _ hne => absurd rfl hne, nofun, nofun, nofun, nofun, nofun, nofun⟩

/-- `wait_closed` has seen no registration of the scope. -/
theorem Ok.await (hc : s.gate.isClosed F.scope = true) : FenceOk s { F with phase := .quiet } := by
  refine ⟨fun _ _ p w hw hact => ?_, nofun, nofun, nofun, nofun, nofun, nofun⟩
  have hrow := (h.writes.active p w hw hact).1
  have := all_eq_true.1 (Bool.and_eq_true_iff.1 hc).2 ⟨w.guard, w.scope⟩ (Table.mem_entries.2 hrow)
  simpa using this

theorem Ok.capture (hok : FenceOk s F) (hp : F.phase = .quiet) :
    FenceOk s { F with phase := .waiting s.gate.publishedThrough } := by
  refine ⟨fun _ _ => hok.quiet (by simp [hp]) (by simp [hp]), fun c hc p w hw hpub _ => ?_, nofun, nofun, nofun,
    fun c hc => ?_, nofun⟩
  · cases hc; exact (h.writes.sequence p w hw hpub).2
  · cases hc; exact le_rfl

theorem Ok.drain (hok : FenceOk s F) {cutoff : Nat} (hp : F.phase = .waiting cutoff)
    (hc : cutoff = 0 ∨ (s.poisoned = false ∧ cutoff ≤ s.progress.through)) :
    FenceOk s { F with phase := .draining F.inodes } := by
  refine ⟨fun _ _ => hok.quiet (by simp [hp]) (by simp [hp]), nofun, fun _ p w hw hpub hover => ?_,
    fun _ id hid => .inl ?_, nofun, nofun, nofun⟩
  · have hle := hok.waiting cutoff hp p w hw hpub hover
    obtain ⟨hpos, -⟩ := h.writes.sequence p w hw hpub
    obtain ⟨q, v, hv, hvr, hvs⟩ := h.writes.progress w.sequence hpos (.inl (by omega))
    have := h.writes.sequences q p v w hv hw (by simp [hvr]) hpub hvs
    subst this
    cases hw.symm.trans hv
    exact hvr
  · show id ∈ F.inodes
    unfold MetadataFence.inodes
    rw [mem_dedup]
    exact mem_map.2 ⟨.inode id, hid, rfl⟩

end

/-- A fence goes on with the lanes. -/
theorem FenceOk.advance (hok : FenceOk s F) (hd : F.isDrained = true) {phase : FencePhase}
    (hd' : ({ F with phase := phase } : MetadataFence).isDrained = true)
    (hlanes : ∀ id, ConflictKey.inode id ∈ F.scope → id ∈ F.todo ∨ (s.lane id).entries = [] →
      id ∈ ({ F with phase := phase } : MetadataFence).todo ∨ (s.lane id).entries = [])
    (htarget : ∀ id t todo, phase = .reaching id t todo → (s.lane id).next = t) :
    FenceOk s { F with phase := phase } where
  quiet _ _ := hok.quiet (not_closing_of_drained hd).1 (not_closing_of_drained hd).2
  waiting c hc := by simp [show phase = _ from hc] at hd'
  drained _ := hok.drained hd
  lanes _ id hid := hlanes id hid (hok.lanes hd id hid)
  target id t todo hp _ := htarget id t todo hp
  cutoff c hc := by simp [show phase = _ from hc] at hd'
  given id t todo hp := Nat.le_of_eq (htarget id t todo hp).symm

/-- The lane has retired everything up to its target, and nothing was staged since. -/
theorem Ok.reach (h : Ok s) (hok : FenceOk s F) {id : InodeId} {target : Nat} {todo : List InodeId}
    (hp : F.phase = .reaching id target todo) (hle : target ≤ (s.lane id).done.through) :
    FenceOk s { F with phase := .draining todo } := by
  refine hok.advance (by simp [hp]) rfl (fun x hx => ?_) nofun
  rw [MetadataFence.todo, hp]
  rintro (hmem | hempty)
  · rcases mem_cons.1 hmem with rfl | hmem
    · refine .inr (eq_nil_iff_forall_not_mem.2 fun e he => ?_)
      have hlane := (h.lanes x).entries e he
      have hnext := hok.target x target todo hp hx
      omega
    · exact .inl hmem
  · exact .inr hempty

/-! ## Runs -/

theorem Ok.call (h : Ok s) (members : List InodeId) (identity : Nat) :
    Ok { s with writes := s.writes ++ [{ members := members, identity := identity }] } := by
  have hin : ∀ {q : Nat} {v : Write}, (s.writes ++ [{ members := members, identity := identity }])[q]? = some v →
      v.isActive = true ∨ v.isPublished = true → s.At q v := by
    intro q v hv hact
    refine (cases_snoc hv).resolve_right ?_
    rintro ⟨-, rfl⟩
    rcases hact with hact | hact <;> cases hact
  refine h.moves ⟨fun q v hv hva => .inl ⟨v, hin hv (.inl hva), hva, rfl⟩,
    fun q v hv hvp => ⟨v, hin hv (.inr hvp), rfl, .inr ⟨hvp, rfl, fun hr => hr⟩⟩, le_rfl, fun _ => .refl⟩ rfl rfl
    ⟨fun q v hv hva => h.writes.active q v (hin hv (.inl hva)) hva,
    fun q r v u hv hu hva hua => h.writes.guards q r v u (hin hv (.inl hva)) (hin hu (.inl hua)) hva hua,
    fun q v hv hvp => h.writes.sequence q v (hin hv (.inr hvp)) hvp,
    fun q r v u hv hu hvp hup => h.writes.sequences q r v u (hin hv (.inr hvp)) (hin hu (.inr hup)) hvp hup,
    fun n hn hh => ?_⟩ h.lanes
  obtain ⟨q, v, hv, hrest⟩ := h.writes.progress n hn hh
  exact ⟨q, v, get_snoc hv, hrest⟩

/-- The lanes have the batch, and then the store has it. -/
theorem Ok.forward (h : Ok s) (hw : s.At p w) (hp : w.phase = .published ∨ w.phase = .accepted ∨ w.phase = .applied)
    (hs : s'.writes = s.writes.set p w') (hsame : w'.members = w.members ∧ w'.sequence = w.sequence)
    (hact : w'.isActive = false) (hgate : s'.gate = s.gate) (hlanes : s'.lanes = s.lanes)
    (hfences : s'.fences = s.fences)
    (hprogress : ∀ n, s'.progress.Holds n → s.progress.Holds n ∨ (w'.phase = .recorded ∧ w.sequence = n)) : Ok s' := by
  refine h.set hw hs hsame.1 hact (fun _ => ⟨?_, hsame.2⟩) (fun hr => ?_) hgate hlanes hfences fun n _ hh => ?_
  · rcases hp with hp | hp | hp <;> simp [hp]
  · rcases hp with hp | hp | hp <;> cases hp.symm.trans hr
  · rw [hsame.2]; exact hprogress n hh

theorem step_ok (h : Ok s) (hs : s.step a = some s') : Ok s' := by
  cases a with
  | call members identity => cases hs; exact h.call members identity
  | pressure p | lookup p =>
    obtain ⟨w, hw, hp, hg⟩ := of_slot hs
    (repeat' split at hg) <;> cases hg <;> exact h.outside hw rfl rfl ⟨rfl, rfl⟩ (by simp [hp]) rfl rfl rfl rfl
  | register p =>
    obtain ⟨w, hw, hp, hg⟩ := of_slot hs
    split at hg <;> cases hg
    · exact h.outside hw rfl rfl ⟨rfl, rfl⟩ (by simp [hp]) rfl rfl rfl rfl
    · exact h.register hw hp ‹_›
  | abort p error joined keep =>
    obtain ⟨w, hw, hp, hg⟩ := of_slot hs
    cases hg
    exact h.cancel hw (by simp [hp]) rfl [] nofun rfl rfl rfl rfl
  | stage p => obtain ⟨w, hw, hp, hg⟩ := of_slot hs; split at hg <;> cases hg; exact h.stage hw hp
  | stageFail p staged =>
    obtain ⟨w, hw, hp, hg⟩ := of_slot hs
    cases hg
    exact h.cancel hw (by simp [hp]) rfl (w.members.take staged) (fun _ => mem_of_mem_take) rfl rfl rfl rfl
  | publish p =>
    obtain ⟨w, hw, hp, hg⟩ := of_slot hs
    unfold PreparationGate.publish at hg
    cases hterm : s.gate.terminal <;> rw [hterm] at hg <;> cases hg
    · exact h.publish hw hp
    · exact h.cancel hw (by simp [hp]) rfl [] nofun rfl rfl rfl rfl
  | accept p =>
    obtain ⟨w, hw, hp, hg⟩ := of_slot hs
    cases hg
    exact h.forward hw (.inl hp) rfl ⟨rfl, rfl⟩ rfl rfl rfl rfl fun n => .inl
  | apply p =>
    obtain ⟨w, hw, hp, hg⟩ := of_slot hs
    obtain ⟨-, rfl⟩ := of_guard_not hg
    exact h.forward hw (.inr (.inl hp)) rfl ⟨rfl, rfl⟩ rfl rfl rfl rfl fun n => .inl
  | record p =>
    obtain ⟨w, hw, hp, hg⟩ := of_slot hs
    obtain ⟨-, rfl⟩ := of_guard_not hg
    refine h.forward hw (.inr (.inr hp)) rfl ⟨rfl, rfl⟩ rfl rfl rfl rfl fun n hh => ?_
    rcases Frontier.holds_record.1 hh with hle | rfl | hh
    · exact .inl (.inl hle)
    · exact .inr ⟨rfl, rfl⟩
    · exact .inl hh
  | complete id =>
    unfold step at hs
    dsimp only at hs
    split at hs
    · cases hs
    · obtain ⟨-, rfl⟩ := of_guard hs; exact h.complete ‹_›
  | finish p =>
    obtain ⟨w, hw, hg⟩ := bind_eq_some_iff.1 hs
    split at hg
    · rename_i owner hp
      obtain ⟨outcome, -, rfl⟩ := map_eq_some_iff.1 hg
      exact h.outside hw rfl rfl ⟨rfl, rfl⟩ (by simp [hp]) rfl rfl rfl rfl
    · cases hg
  | forget identity => obtain ⟨-, rfl⟩ := of_guard hs; exact h.frame rfl rfl rfl rfl ⟨rfl, rfl, rfl, rfl⟩
  | poison gate progress overlay =>
    cases hs
    refine h.frame rfl rfl rfl rfl ?_
    split <;> exact ⟨rfl, rfl, rfl, rfl⟩
  | fence keys =>
    unfold step at hs
    dsimp only at hs
    split at hs <;> cases hs
    exact h.fence (nodup_dedup _) ‹_›
  | await f =>
    obtain ⟨F, hF, hp, hg⟩ := of_slot hs
    obtain ⟨hc, rfl⟩ := of_guard hg
    exact h.setFence hF rfl (by simp [hp]) (h.await hc)
  | capture f =>
    obtain ⟨F, hF, hp, hg⟩ := of_slot hs
    cases hg
    exact h.setFence hF rfl (by simp [hp]) (h.capture (h.fences F (mem_of_getElem? hF)) hp)
  | drain f =>
    obtain ⟨F, hF, hg⟩ := bind_eq_some_iff.1 hs
    split at hg
    · rename_i cutoff hp
      obtain ⟨hc, rfl⟩ := of_guard hg
      exact h.setFence hF rfl (by simp [hp]) (h.drain (h.fences F (mem_of_getElem? hF)) hp hc)
    · cases hg
  | target f =>
    obtain ⟨F, hF, hg⟩ := bind_eq_some_iff.1 hs
    have hok := h.fences F (mem_of_getElem? hF)
    split at hg <;> cases hg <;> rename_i hp <;>
      refine h.setFence hF rfl (by simp [hp]) (hok.advance (by simp [hp]) rfl (by simp [hp]) ?_)
    · exact nofun
    · rintro _ _ _ ⟨⟩; rfl
  | reach f =>
    obtain ⟨F, hF, hg⟩ := bind_eq_some_iff.1 hs
    split at hg
    · rename_i id target todo hp
      obtain ⟨hc, rfl⟩ := of_guard hg
      exact h.setFence hF rfl (by simp [hp]) (h.reach (h.fences F (mem_of_getElem? hF)) hp hc.2)
    · cases hg
  | drop f =>
    obtain ⟨F, hF, hg⟩ := bind_eq_some_iff.1 hs
    obtain ⟨hlive, rfl⟩ := of_guard hg
    exact h.drop hF hlive

theorem boot_ok : Ok {} where
  closing key := rfl
  scopes F hF := by cases hF
  writes := ⟨fun p w hw => (by cases hw), fun p q v w hv => (by cases hv), fun p w hw => (by cases hw),
    fun p q v w hv => (by cases hv),
    fun n hn hh => (by rcases hh with hh | hh; exact absurd hn (Nat.not_lt.2 hh); cases hh)⟩
  lanes id :=
    ⟨fun e he => (by cases he), fun job hj => (by cases hj),
      fun n hn => (by rcases hn with hn | hn; exact hn; cases hn)⟩
  fences F hF := by cases hF

theorem reach_ok {C : State → Action → Prop} (h : Reach step C {} s) : Ok s :=
  h.invariant boot_ok fun _ _ _ hok _ hs => step_ok hok hs

/-- The write has had a guard. -/
def wasRegistered (w : Write) : Bool := w.isActive || w.isPublished || decide (w.phase = .cancelled)

/-- **A fence is a barrier**: as long as it is ready, every write that overlaps its scope and has registered is aborted
or applied and recorded, none can register, and the inodes that its `inode` keys name have no entries. The keys that are
closed are those of the live fences. -/
theorem fence_is_barrier (h : Reach step anyStep {} s) :
    (∀ F ∈ s.fences, F.phase = .ready →
      (∀ (p : Nat) (w : Write), s.writes[p]? = some w → overlaps w.scope F.scope = true →
        (wasRegistered w = true → w.phase = .cancelled ∨ w.phase = .recorded) ∧
        ∀ guard gate, s.gate.register w.scope ≠ .ok (guard, gate)) ∧
      ∀ id, ConflictKey.inode id ∈ F.scope → (s.lane id).entries = []) ∧
    ∀ key, 0 < s.gate.closingCount key ↔ ∃ F ∈ s.fences, F.phase ≠ .gone ∧ key ∈ F.scope := by
  have hok := reach_ok h
  refine ⟨fun F hF hp => ?_, fun key => ?_⟩
  · have hf := hok.fences F hF
    have hd : F.isDrained = true := by unfold MetadataFence.isDrained; rw [hp]
    obtain ⟨hc, hg⟩ := not_closing_of_drained hd
    refine ⟨fun p w hw hover => ⟨fun hreg => ?_, fun guard gate hr => ?_⟩, fun id hid => ?_⟩
    · rcases Bool.or_eq_true_iff.1 hreg with hreg | hcancel
      · rcases Bool.or_eq_true_iff.1 hreg with hact | hpub
        · rw [hf.quiet hc hg p w hw hact] at hover; cases hover
        · exact .inr (hf.drained hd p w hw hpub hover)
      · exact .inl (of_decide_eq_true hcancel)
    · obtain ⟨key, hkey, hkF⟩ := overlaps_eq_true.1 hover
      have hpos := hok.closed hF key hkF (by simpa [MetadataFence.isLive] using hg)
      rw [(PreparationGate.register_eq_ok hr).1 key hkey] at hpos
      cases hpos
    · have := hf.lanes hd id hid
      unfold MetadataFence.todo at this
      rw [hp] at this
      exact this.resolve_left not_mem_nil
  · rw [hok.closing key, countP_pos_iff]
    refine exists_congr fun F => and_congr_right fun _ => ?_
    simp [MetadataFence.closes, MetadataFence.isLive]

/-- A write of both inodes is acknowledged. -/
def acknowledged : List Action := [.call [1, 2] 0, .lookup 0, .register 0, .stage 0, .publish 0, .accept 0]

/-- A fence of the first key waits until it is ready. -/
def fenced (key : ConflictKey) : List Action := [.fence [key], .await 0, .capture 0]

theorem fence_is_barrier_applied : ∃ s F, Reach step anyStep {} s ∧ s.fences = [F] ∧ F.phase = .ready ∧
    F.scope = [.inode 1] ∧
    (∃ w, s.writes[0]? = some w ∧ (w.phase = .cancelled ∨ w.phase = .recorded)) ∧ (s.lane 1).entries = [] := by
  have hreach : Reach step anyStep {} _ :=
    reach_of_run .init (l := acknowledged ++ fenced (.inode 1) ++ [.apply 0, .record 0, .complete 1, .drain 0,
      .target 0, .reach 0, .target 0]) rfl
  obtain ⟨hwrites, hlanes⟩ := (fence_is_barrier hreach).1 _ (mem_singleton_self _) rfl
  exact ⟨_, _, hreach, rfl, rfl, rfl, ⟨_, rfl, (hwrites 0 _ rfl rfl).1 rfl⟩, hlanes 1 (mem_singleton_self _)⟩

/-- **What a fence does not wait for**: with the fence of inode 1 ready, the entry of the same write in the lane of
inode 2 is still there; and with a fence of the directory key of inode 1 ready, a write of inode 1 registers and stages
its entry. -/
theorem fence_leaves_entries :
    (∃ s F w, run step {} (acknowledged ++ fenced (.inode 1) ++ [.apply 0, .record 0, .complete 1, .drain 0, .target 0,
      .reach 0, .target 0]) = some s ∧
      s.fences = [F] ∧ F.phase = .ready ∧ s.writes = [w] ∧ overlaps w.scope F.scope = true ∧
      (s.lane 2).entries = [(1, 0)]) ∧
    ∃ s F, run step {} (fenced (.directory 1) ++ [.drain 0, .target 0, .reach 0, .target 0] ++ acknowledged) = some s ∧
      s.fences = [F] ∧ F.phase = .ready ∧ F.inodes = [1] ∧ (s.lane 1).entries = [(1, 0)] :=
  ⟨⟨_, _, _, rfl, rfl, rfl, rfl, rfl, rfl⟩, _, _, rfl, rfl, rfl, rfl, rfl⟩

end State

end ZeroFS.Fence
