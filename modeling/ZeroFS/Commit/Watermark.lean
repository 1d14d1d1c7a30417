import Mathlib.Data.List.Induction
import ZeroFS.Commit.Worker

/-!
# The allocation watermark

The worker notes the watermark as emitted before the batch is known to apply. `Emitted` makes that safe: the noted
watermark is the stored one, or the next id is past it, which every failure of a batch restores by burning an id.
-/

namespace ZeroFS.Commit

open Machine Updates List

/-- The ids that the transactions name are below `n`. -/
def Below (rs : List Request) (n : Nat) : Prop := ∀ r ∈ rs, ∀ id ∈ r.ids, id < n

theorem Below.mono {rs : List Request} {n m : Nat} (h : Below rs n) (hm : n ≤ m) : Below rs m :=
  fun r hr id hid => Nat.lt_of_lt_of_le (h r hr id hid) hm

theorem Below.append {rs rs' : List Request} {n : Nat} (h : Below rs n) (h' : Below rs' n) : Below (rs ++ rs') n := by
  intro r hr
  rcases mem_append.1 hr with hr | hr
  · exact h r hr
  · exact h' r hr

/-! ## What a transaction names -/

theorem foldl_stage {β : Type} {f : Transaction → List β} {g : Change → List β}
    (h : ∀ txn c, f (c.stage txn) = f txn ++ g c) (cs : List Change) (txn : Transaction) :
    f (cs.foldl Change.stage txn) = f txn ++ cs.flatMap g := by
  induction cs generalizing txn with
  | nil => exact (append_nil _).symm
  | cons c cs ih => rw [foldl_cons, ih, h, flatMap_cons, append_assoc]

theorem stage_updates (txn : Transaction) (c : Change) :
    (c.stage txn).inodeCacheUpdates = txn.inodeCacheUpdates ++ [(c.id, c.image)] := by
  cases c with
  | create id inode => simp [Change.stage, Transaction.addInodeCountDelta, Transaction.save, Change.id, Change.image]
  | save id inode => rfl
  | delete id => simp [Change.stage, Transaction.addInodeCountDelta, Transaction.delete, Change.id, Change.image]

theorem txn_updates (r : Request) : r.txn.inodeCacheUpdates = r.changes.map fun c => (c.id, c.image) := by
  rw [map_eq_flatMap]
  exact foldl_stage stage_updates r.changes _

theorem get_mergeUpdates (batch : List Request) (id : InodeId) :
    (mergeUpdates batch).get id = newest (batch.flatMap fun r => r.changes.map fun c => (c.id, c.image)) id := by
  unfold mergeUpdates
  rw [Table.get_foldl_put, Table.get_empty, Option.or_none]
  congr 1
  exact flatMap_congr fun r _ => txn_updates r

/-- A merged image is of an inode that the batch names. -/
theorem mem_ids_of_merged {batch : List Request} {id : InodeId} {v : Option Inode}
    (h : (mergeUpdates batch).get id = some v) : ∃ r ∈ batch, id ∈ r.ids := by
  rw [get_mergeUpdates] at h
  obtain ⟨r, hr, hmem⟩ := mem_flatMap.1 (mem_of_newest h)
  obtain ⟨c, hc, heq⟩ := mem_map.1 hmem
  cases heq
  exact ⟨r, hr, mem_append_left _ (mem_map.2 ⟨c, hc, rfl⟩)⟩

theorem get_write (db : Db) (w : Write) (id : InodeId) :
    (db.write w).inodes.get id = (w.updates.get id).getD (db.inodes.get id) := by
  show (db.inodes.setAll _).get id = _
  rw [Table.get_setAll, Table.newest_entries _ fun _ v => v, Option.map_id']

theorem nextInodeId_write (db : Db) (w : Write) : (db.write w).nextInodeId = w.counter.getD db.nextInodeId := by
  unfold Db.nextInodeId Db.write
  cases w.counter <;> rfl

theorem replay_append (db : Db) (ws : List Write) (w : Write) : db.replay (ws ++ [w]) = (db.replay ws).write w := by
  unfold Db.replay
  rw [foldl_append]
  rfl

/-! ## The history -/

/-- The stored counter covers every prefix of the history. -/
structure History (base : Db) (ws : List Write) : Prop where
  pos : 0 < base.nextInodeId
  root : ∀ id, (base.inodes.get id).isSome → id < base.nextInodeId
  merged : ∀ w ∈ ws, w.updates = mergeUpdates w.requests
  mono : ∀ n, base.nextInodeId ≤ (base.replay (ws.take n)).nextInodeId
  covered : ∀ n, ∀ w ∈ ws.take n, Below w.requests (base.replay (ws.take n)).nextInodeId

section

variable {base : Db} {ws : List Write}

theorem History.take (h : History base ws) (n : Nat) : History base (ws.take n) where
  pos := h.pos
  root := h.root
  merged := fun w hw => h.merged w (mem_of_mem_take hw)
  mono := fun m => by
    rw [take_take]
    exact h.mono _
  covered := fun m => by
    rw [take_take]
    exact h.covered _

theorem History.whole (h : History base ws) :
    base.nextInodeId ≤ (base.replay ws).nextInodeId ∧ ∀ w ∈ ws, Below w.requests (base.replay ws).nextInodeId := by
  have hmono := h.mono ws.length
  have hcov := h.covered ws.length
  rw [take_length] at hmono hcov
  exact ⟨hmono, hcov⟩

theorem History.snoc (h : History base ws) {w : Write} (hw : w.updates = mergeUpdates w.requests)
    (hmono : (base.replay ws).nextInodeId ≤ ((base.replay ws).write w).nextInodeId)
    (hcov : Below w.requests ((base.replay ws).write w).nextInodeId) : History base (ws ++ [w]) := by
  obtain ⟨hbase, hold⟩ := h.whole
  have hcase : ∀ n, (ws ++ [w]).take n = ws.take n ∨ (ws ++ [w]).take n = ws ++ [w] := by
    intro n
    by_cases hn : n ≤ ws.length
    · exact .inl (take_append_of_le_length hn)
    · exact .inr (take_of_length_le (by simp; omega))
  refine ⟨h.pos, h.root, fun v hv => ?_, fun n => ?_, fun n => ?_⟩
  · rcases mem_append.1 hv with hv | hv
    · exact h.merged v hv
    · rw [mem_singleton.1 hv]; exact hw
  · rcases hcase n with heq | heq
    · rw [heq]; exact h.mono n
    · rw [heq, replay_append]; exact le_trans hbase hmono
  · rcases hcase n with heq | heq
    · rw [heq]; exact h.covered n
    rw [heq, replay_append]
    intro v hv
    rcases mem_append.1 hv with hv | hv
    · exact (hold v hv).mono hmono
    · rw [mem_singleton.1 hv]; exact hcov

theorem stored_named : ∀ {ws : List Write}, (∀ w ∈ ws, w.updates = mergeUpdates w.requests) → ∀ {id : InodeId},
    ((base.replay ws).inodes.get id).isSome → (base.inodes.get id).isSome ∨ ∃ w ∈ ws, ∃ r ∈ w.requests, id ∈ r.ids := by
  intro ws
  induction ws using reverseRecOn with
  | nil => exact fun _ _ h => .inl h
  | append_singleton ws w ih =>
    intro hm id h
    rw [replay_append, get_write] at h
    cases hget : w.updates.get id with
    | none =>
      rw [hget] at h
      rcases ih (fun v hv => hm v (mem_append_left _ hv)) h with hb | ⟨v, hv, hr⟩
      · exact .inl hb
      · exact .inr ⟨v, mem_append_left _ hv, hr⟩
    | some v =>
      have hw : w ∈ ws ++ [w] := mem_append_right _ mem_cons_self
      rw [hm w hw] at hget
      exact .inr ⟨w, hw, mem_ids_of_merged hget⟩

theorem History.stored_lt (h : History base ws) {id : InodeId}
    (hid : ((base.replay ws).inodes.get id).isSome) : id < (base.replay ws).nextInodeId := by
  obtain ⟨hbase, hold⟩ := h.whole
  rcases stored_named h.merged hid with hroot | ⟨w, hw, r, hr, hmem⟩
  · exact Nat.lt_of_lt_of_le (h.root id hroot) hbase
  · exact hold w hw r hr id hmem

/-! ## The invariant -/

end

/-- The watermark that was noted is stored, or the next batch stages a newer one. -/
def Emitted (s : Sys) : Prop := s.db.nextInodeId = s.lastEmittedCounter ∨ s.lastEmittedCounter < s.nextId

def PhaseOk (s : Sys) : Prop :=
  match s.phase with
  | .idle => Emitted s
  | .merged batch | .derived batch _ => Emitted s ∧ Below batch s.nextId
  | .staged w counterStaged =>
    w.updates = mergeUpdates w.requests ∧ Below w.requests s.lastEmittedCounter ∧
      if counterStaged then w.counter = some s.lastEmittedCounter
      else w.counter = none ∧ s.db.nextInodeId = s.lastEmittedCounter
  | .applied _ _ | .published _ => s.db.nextInodeId = s.lastEmittedCounter

/-- No id in use reaches the next one. -/
structure Watermark (s : Sys) : Prop where
  history : History s.base s.applied
  replayed : s.db = s.base.replay s.applied
  stored_le : s.db.nextInodeId ≤ s.lastEmittedCounter
  emitted_le : s.lastEmittedCounter ≤ s.nextId
  owned : ∀ id ∈ s.owned, id < s.nextId
  kinds : ∀ id, (s.kinds id).isSome → id < s.nextId
  queue : Below s.queue s.nextId
  phase : PhaseOk s

section

variable {s t : Sys} {root : DirectoryInode}

theorem boot_watermark {base : Db} {ws : List Write} (h : History base ws) : Watermark (Sys.boot base ws) where
  history := h
  replayed := rfl
  stored_le := le_rfl
  emitted_le := le_rfl
  owned := nofun
  kinds := fun id hid => h.stored_lt (by simpa [Sys.boot] using hid)
  queue := nofun
  phase := .inl rfl

theorem format_history (root : DirectoryInode) : History (.format root) [] where
  pos := Nat.one_pos
  root := fun id hid => by
    unfold Db.format at hid
    rw [Table.get_put] at hid
    split at hid
    · subst id; exact Nat.one_pos
    · cases hid
  merged := nofun
  mono := fun n => by rw [take_nil]; exact le_rfl
  covered := fun n w hw => by
    rw [take_nil] at hw
    cases hw

/-! ## Steps -/

theorem Watermark.grow (h : Watermark s) (hbase : t.base = s.base) (happlied : t.applied = s.applied)
    (hdb : t.db = s.db) (hlast : t.lastEmittedCounter = s.lastEmittedCounter) (hnext : s.nextId ≤ t.nextId)
    (howned : ∀ id ∈ t.owned, id < t.nextId) (hkinds : ∀ id, (t.kinds id).isSome → id < t.nextId)
    (hqueue : Below t.queue t.nextId) (hphase : PhaseOk t) : Watermark t where
  history := by rw [hbase, happlied]; exact h.history
  replayed := by rw [hbase, happlied, hdb]; exact h.replayed
  stored_le := by rw [hdb, hlast]; exact h.stored_le
  emitted_le := by rw [hlast]; exact le_trans h.emitted_le hnext
  owned := howned
  kinds := hkinds
  queue := hqueue
  phase := hphase

theorem PhaseOk.grow (h : PhaseOk s) (hdb : t.db = s.db) (hlast : t.lastEmittedCounter = s.lastEmittedCounter)
    (hnext : s.nextId ≤ t.nextId) (hphase : t.phase = s.phase) : PhaseOk t := by
  have hemit : Emitted s → Emitted t := by
    unfold Emitted
    rw [hdb, hlast]
    exact fun he => he.imp_right fun hlt => Nat.lt_of_lt_of_le hlt hnext
  unfold PhaseOk at h ⊢
  rw [hphase]
  cases hp : s.phase with
  | idle => rw [hp] at h; exact hemit h
  | merged batch | derived batch deltas => rw [hp] at h; exact ⟨hemit h.1, h.2.mono hnext⟩
  | staged w counterStaged | applied w counterStaged | published counterStaged =>
    rw [hp] at h
    rw [hlast, hdb]
    exact h

/-- The inode that the change makes. -/
def Change.created : Change → Option InodeId
  | .create id _ => some id
  | _ => none

theorem Change.created_eq {c : Change} {id : InodeId} (h : c.created = some id) : id = c.id := by
  cases c <;> cases h
  rfl

theorem noteKind_of_ne {kinds : InodeId → Option Bool} {c : Change} {id : InodeId} (h : c.created ≠ some id) :
    Sys.noteKind kinds c id = kinds id := by
  cases c with
  | create id' inode => exact if_neg fun heq => h (congrArg some heq.symm)
  | _ => rfl

/-- The changes of a transaction are admitted one after the other; what they name is below the next id. -/
theorem admitAll_spec : ∀ {cs : List Change} {s t : Sys}, s.admitAll cs = some t →
    t = { s with owned := t.owned, kinds := t.kinds } ∧
      ((∀ id ∈ s.owned, id < s.nextId) → (∀ id, (s.kinds id).isSome → id < s.nextId) →
        (∀ id ∈ t.owned, id < s.nextId) ∧ (∀ id, (t.kinds id).isSome → id < s.nextId) ∧ ∀ c ∈ cs, c.id < s.nextId) := by
  intro cs
  induction cs with
  | nil => intro s t h; cases h; exact ⟨rfl, fun ho hk => ⟨ho, hk, nofun⟩⟩
  | cons c cs ih =>
    intro s t h
    unfold Sys.admitAll at h
    split at h
    · rename_i hc
      obtain ⟨heq, hrest⟩ := ih h
      refine ⟨heq, fun ho hk => ?_⟩
      have hid : c.id < s.nextId := by
        cases c with
        | create id inode => exact ho id (by simpa [Sys.admits] using hc)
        | save id inode =>
          refine hk id ?_
          rw [show s.kinds id = some inode.isFile by simpa [Sys.admits] using hc]
          rfl
        | delete id =>
          have hc' : id ≠ 0 ∧ (s.kinds id).isSome = true := by simpa [Sys.admits] using hc
          exact hk id hc'.2
      have hkinds : ∀ id, (Sys.noteKind s.kinds c id).isSome → id < s.nextId := by
        intro id hk'
        by_cases hcr : c.created = some id
        · rw [Change.created_eq hcr]; exact hid
        · rw [noteKind_of_ne hcr] at hk'; exact hk id hk'
      obtain ⟨ho', hk', hcs⟩ := hrest (fun id hid' => ho id (mem_of_mem_erase hid')) hkinds
      exact ⟨ho', hk', forall_mem_cons.2 ⟨hid, hcs⟩⟩
    · cases h

theorem admitAll_eq {cs : List Change} (h : s.admitAll cs = some t) :
    ∃ owned kinds, t = { s with owned := owned, kinds := kinds } :=
  ⟨_, _, (admitAll_spec h).1⟩

/-- What the steps do, with the phase that each of them starts from. -/
inductive Stepped (s : Sys) : Action → Sys → Prop
  | allocate : Stepped s .allocate { s with nextId := s.nextId + 1, owned := s.nextId :: s.owned }
  | submit {r : Request} {owned : List InodeId} {kinds : InodeId → Option Bool}
      (hknown : r.others.flatten.all s.known = true)
      (hu : s.admitAll r.changes = some { s with owned := owned, kinds := kinds }) :
      Stepped s (.submit r) { s with owned := owned, kinds := kinds, queue := s.queue ++ [r] }
  | drain {n : Nat} (hp : s.phase = .idle) : Stepped s (.drain n)
      { s with queue := s.queue.drop n, phase := .merged (s.queue.take n) }
  | abandon {a : Action} {batch : List Request} (hp : s.phase = .merged batch) : Stepped s a { s with phase := .idle }
  | derive {batch : List Request} (hp : s.phase = .merged batch) : Stepped s .derive
      { s with
        phase := .derived batch ((deriveByteDeltas s.db.inodes (mergeUpdates batch)).foldl addBytes
          (mergeStats batch)) }
  | stage {t : Sys} {batch : List Request} {deltas : ShardDeltas} (hp : s.phase = .derived batch deltas)
      (hs : s.stage = some t) :
      Stepped s .stage t
  | fail {point : FailPoint} {w : Write} {c : Bool} (hp : s.phase = .staged w c) :
      Stepped s (.fail point) { s with nextId := if c then s.nextId + 1 else s.nextId, phase := .idle }
  | apply {stamped : Bool} {w : Write} {c : Bool} (hp : s.phase = .staged w c) :
      Stepped s (.apply stamped) { s with applied := s.applied ++ [w], db := s.db.write w, phase := .applied w c }
  | skip {stamped : Bool} {w : Write} {c : Bool} (hp : s.phase = .staged w c) (hno : ¬w.anyOps stamped = true) :
      Stepped s (.apply stamped) { s with phase := .applied w c }
  | publish {w : Write} {c : Bool} (hp : s.phase = .applied w c) :
      Stepped s .publish { s with stats := s.stats.putAll w.shards, phase := .published c }
  | reply {flushed c : Bool} (hp : s.phase = .published c) :
      Stepped s (.reply flushed) { s with nextId := if c && !flushed then s.nextId + 1 else s.nextId, phase := .idle }
  | persist {n : Nat} : Stepped s (.persist n) { s with durable := n }
  | crash {n : Nat} : Stepped s (.crash n) (Sys.boot s.base (s.applied.take n))

theorem step_stepped {a : Action} (hs : s.step a = some t) : Stepped s a t := by
  cases a with
  | allocate => cases hs; exact .allocate
  | submit r =>
    obtain ⟨hknown, hs⟩ := Option.ite_none_right_eq_some.1 hs
    obtain ⟨u, hu, rfl⟩ := Option.map_eq_some_iff.1 hs
    obtain ⟨owned, kinds, rfl⟩ := admitAll_eq hu
    exact .submit hknown hu
  | drain n =>
    simp only [Sys.step, Sys.drain] at hs
    split at hs
    · obtain ⟨-, rfl⟩ := of_guard_not hs; exact .drain ‹_›
    · cases hs
  | refuse | deriveErr =>
    simp only [Sys.step, Sys.abandon] at hs
    split at hs <;> cases hs
    exact .abandon ‹_›
  | derive => simp only [Sys.step, Sys.derive] at hs; split at hs <;> cases hs; exact .derive ‹_›
  | stage =>
    have hstage : s.stage = some t := hs
    simp only [Sys.step, Sys.stage] at hs
    split at hs
    · exact .stage ‹_› hstage
    · cases hs
  | fail point => simp only [Sys.step, Sys.fail] at hs; split at hs <;> cases hs; exact .fail ‹_›
  | apply stamped =>
    simp only [Sys.step, Sys.apply] at hs
    split at hs
    · split at hs <;> cases hs
      · exact .apply ‹_›
      · exact .skip ‹_› ‹_›
    · cases hs
  | publish => simp only [Sys.step, Sys.publish] at hs; split at hs <;> cases hs; exact .publish ‹_›
  | reply flushed =>
    simp only [Sys.step, Sys.reply] at hs
    split at hs <;> cases hs
    exact .reply ‹_›
  | persist n => obtain ⟨-, rfl⟩ := of_guard hs; exact .persist
  | crash n => obtain ⟨-, rfl⟩ := of_guard hs; exact .crash

section

variable (h : Watermark s)
include h

theorem Watermark.phase_of {phase : Phase} (hp : s.phase = phase) : PhaseOk { s with phase := phase } := by
  subst hp
  exact h.phase

/-- A submitted transaction names ids that were given out. -/
theorem Watermark.submit {r : Request} {owned : List InodeId} {kinds : InodeId → Option Bool}
    (hknown : r.others.flatten.all s.known = true)
    (hu : s.admitAll r.changes = some { s with owned := owned, kinds := kinds }) :
    Watermark { s with owned := owned, kinds := kinds, queue := s.queue ++ [r] } := by
  obtain ⟨howned, hkinds, hids⟩ := (admitAll_spec hu).2 h.owned h.kinds
  have hother : ∀ id ∈ r.others.flatten, id < s.nextId := by
    intro id hid
    have hk : s.known id = true := (all_eq_true.1 hknown) id hid
    simp only [Sys.known, Bool.or_eq_true, decide_eq_true_eq, contains_iff_mem, any_eq_true] at hk
    rcases hk with ((hk | hk) | hk) | ⟨w, hw, r', hr', hk⟩
    · subst hk
      have hroot : 1 ≤ s.db.nextInodeId := by
        rw [h.replayed]
        exact le_trans h.history.pos h.history.whole.1
      exact Nat.lt_of_lt_of_le hroot (le_trans h.stored_le h.emitted_le)
    · exact h.owned id hk
    · exact h.kinds id hk
    · have hlt := h.history.whole.2 w hw r' hr' id hk
      rw [← h.replayed] at hlt
      exact Nat.lt_of_lt_of_le hlt (le_trans h.stored_le h.emitted_le)
  refine h.grow rfl rfl rfl rfl le_rfl howned hkinds ?_ (h.phase.grow rfl rfl le_rfl rfl)
  refine h.queue.append fun r' hr' id hid => ?_
  rw [mem_singleton.1 hr'] at hid
  rcases mem_append.1 hid with hid | hid
  · obtain ⟨c, hc, rfl⟩ := mem_map.1 hid; exact hids c hc
  · exact hother id hid

theorem Watermark.advance {queue : List Request} {next : Nat} {phase : Phase} (hnext : s.nextId ≤ next)
    (hqueue : Below queue next) (hphase : PhaseOk { s with nextId := next, queue := queue, phase := phase }) :
    Watermark { s with nextId := next, queue := queue, phase := phase } :=
  h.grow rfl rfl rfl rfl hnext (fun id hid => Nat.lt_of_lt_of_le (h.owned id hid) hnext)
    (fun id hid => Nat.lt_of_lt_of_le (h.kinds id hid) hnext) hqueue hphase

/-- The watermark is read and noted. When it has not moved, it is the stored one. -/
theorem Watermark.stage {batch : List Request} {deltas : ShardDeltas} (hp : s.phase = .derived batch deltas)
    (hs : s.stage = some t) : Watermark t := by
  obtain ⟨hemit, hbelow⟩ := h.phase_of hp
  have hle := h.emitted_le
  have hst := h.stored_le
  rw [Sys.stage, hp] at hs
  cases hs
  refine ⟨h.history, h.replayed, ?_, ?_, h.owned, h.kinds, h.queue, ?_⟩
  · split
    · exact le_trans hst hle
    · exact hst
  · split
    · exact le_rfl
    · exact hle
  refine ⟨rfl, ?_, ?_⟩
  · split
    · exact hbelow
    · rename_i hno; exact hbelow.mono (by simpa using hno)
  · split
    · rfl
    rename_i hno
    refine ⟨rfl, hemit.resolve_right fun hlt => hno ?_⟩
    exact decide_eq_true hlt

/-- The batch lands with its watermark, or the stored one covers it. -/
theorem Watermark.stored_write {w : Write} {c : Bool} (hp : s.phase = .staged w c) :
    (s.db.write w).nextInodeId = s.lastEmittedCounter := by
  obtain ⟨-, -, hcounter⟩ := h.phase_of hp
  rw [nextInodeId_write]
  cases c with
  | true => rw [hcounter]; rfl
  | false => rw [hcounter.1]; exact hcounter.2

theorem step_watermark {a : Action} (hs : s.step a = some t) : Watermark t := by
  cases step_stepped hs with
  | allocate =>
    refine h.grow rfl rfl rfl rfl (Nat.le_succ _) ?_ ?_ (h.queue.mono (Nat.le_succ _))
      (h.phase.grow rfl rfl (Nat.le_succ _) rfl)
    · exact forall_mem_cons.2 ⟨Nat.lt_succ_self _, fun id hid => Nat.lt_succ_of_lt (h.owned id hid)⟩
    · exact fun id hid => Nat.lt_succ_of_lt (h.kinds id hid)
  | submit hknown hu => exact h.submit hknown hu
  | drain hp =>
    exact h.advance le_rfl (fun r hr => h.queue r (mem_of_mem_drop hr))
      ⟨h.phase_of hp, fun r hr => h.queue r (mem_of_mem_take hr)⟩
  | abandon hp => exact h.advance le_rfl h.queue (h.phase_of hp).1
  | derive hp => exact h.advance le_rfl h.queue ⟨(h.phase_of hp).1, (h.phase_of hp).2⟩
  | stage hp hs => exact h.stage hp hs
  | @fail _ w c hp =>
    -- a batch that fails burns an id when it had staged the watermark
    have hph := h.phase_of hp
    cases c with
    | true => exact h.advance (Nat.le_succ _) (h.queue.mono (Nat.le_succ _)) (.inr (Nat.lt_succ_of_le h.emitted_le))
    | false => exact h.advance le_rfl h.queue (.inl hph.2.2.2)
  | @apply _ w c hp =>
    obtain ⟨hmerged, hbelow, -⟩ := h.phase_of hp
    have hstored := h.stored_write hp
    refine ⟨h.history.snoc hmerged ?_ ?_, ?_, le_of_eq hstored, h.emitted_le, h.owned, h.kinds, h.queue, hstored⟩
    · rw [← h.replayed, hstored]; exact h.stored_le
    · rw [← h.replayed, hstored]; exact hbelow
    · rw [replay_append, h.replayed]
  | @skip _ w c hp hno =>
    -- nothing is written, so no watermark was staged
    refine h.advance le_rfl h.queue ?_
    have hstored := h.stored_write hp
    simp only [Write.anyOps, Bool.or_eq_true, not_or, Option.isSome_iff_ne_none, ne_eq, not_not] at hno
    rw [nextInodeId_write, hno.1.1.2] at hstored
    exact hstored
  | publish hp => exact ⟨h.history, h.replayed, h.stored_le, h.emitted_le, h.owned, h.kinds, h.queue, h.phase_of hp⟩
  | @reply flushed c hp =>
    have hle : s.nextId ≤ if (c && !flushed) = true then s.nextId + 1 else s.nextId := by
      split
      · exact Nat.le_succ _
      · exact le_rfl
    exact h.advance hle (h.queue.mono hle) (.inl (h.phase_of hp))
  | persist => exact h.grow rfl rfl rfl rfl le_rfl h.owned h.kinds h.queue (h.phase.grow rfl rfl le_rfl rfl)
  | crash => exact boot_watermark (h.history.take _)

end

theorem reach_watermark {C : Sys → Action → Prop}
    (h : Reach Sys.step C (Sys.boot (.format root) []) s) : Watermark s :=
  h.invariant (I := Watermark) (boot_watermark (format_history root)) fun _ _ _ hi _ => step_watermark hi

/-- **Inode ids are not reused.** Whatever prefix of the applied batches is durable, the counter stored in it is above
every inode id that a transaction of it names. -/
theorem ids_covered (h : Reach Sys.step anyStep (Sys.boot (.format root) []) s) (n : Nat) :
    ∀ w ∈ s.applied.take n, ∀ r ∈ w.requests, ∀ id ∈ r.ids, id < (s.base.replay (s.applied.take n)).nextInodeId :=
  (reach_watermark h).history.covered n

end

namespace Sample

def attrs : Attrs := ⟨⟨0, 0⟩, ⟨0, 0⟩, ⟨0, 0⟩, 0, 0, 0⟩

def root : DirectoryInode := ⟨attrs, 0, 0, none, 2⟩

def file (size : Nat) : Inode := .leaf ⟨.file size, attrs, none, none, 1⟩

def dir (entries : Nat) : Inode := .directory ⟨attrs, entries, 0, some [100], 2⟩

def commit : List Action := [.drain 1, .derive, .stage, .apply false, .publish, .reply true]

end Sample

/-- The create of inode 1 stages the watermark and fails to apply; a later transaction still names the inode. -/
def reemittedRun : List Action :=
  [.allocate, .submit ⟨[.create 1 (Sample.file 0)], []⟩, .drain 1, .derive, .stage, .fail .apply,
    .submit ⟨[], [[1]]⟩] ++ Sample.commit

theorem ids_covered_reemitted : ∃ s, Reach Sys.step anyStep (Sys.boot (.format Sample.root) []) s ∧
    s.applied.map (fun w => w.requests.map Request.ids) = [[[1]]] ∧
    ∀ w ∈ s.applied.take 1, ∀ r ∈ w.requests, ∀ id ∈ r.ids, id < (s.base.replay (s.applied.take 1)).nextInodeId := by
  have hreach : Reach Sys.step anyStep (Sys.boot (.format Sample.root) []) _ :=
    reach_of_run .init (l := reemittedRun) rfl
  exact ⟨_, hreach, rfl, ids_covered hreach 1⟩

end ZeroFS.Commit
