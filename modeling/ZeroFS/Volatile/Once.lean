import ZeroFS.Volatile.Readable

/-!
# A retried write takes effect once

A call whose operation has a recorded result is replayed: the lane submits nothing for it, but its bytes are staged and
published, so until the entry retires they hide what was written since. If nothing that overlaps the operation was
staged after it, reads see the file of a history that has every operation once.
-/

namespace ZeroFS.Volatile

open List Machine Option Writer

open SparseFile (written latest)

namespace Writer

variable (w : Writer)

/-- The call goes on to apply its operation, or has applied it. -/
@[simp]
def isOwner : Bool :=
  match w.phase with
  | .searched | .loaded | .measured => true
  | .prepared | .staged | .previewed | .published | .recorded | .accepted | .submitted | .committed
  | .settled | .completed
  | .retired => !w.batch.replayed
  | _ => false

/-- The plan is decided, and its bytes are not committed. -/
@[simp]
def isDecided : Bool :=
  match w.phase with
  | .prepared | .staged | .previewed | .published | .recorded | .accepted | .submitted =>
    !w.batch.replayed && !w.request.data.isEmpty
  | _ => false

@[simp]
def isDropped : Bool :=
  match w.phase with
  | .rolledBack | .removed => true
  | _ => false

@[simp]
def isReplay : Bool := w.isStaged && w.batch.replayed

variable {w}

theorem owner_of_effective (h : w.isEffective = true) : w.isOwner = true := by
  cases hp : w.phase <;> simp_all

theorem not_dropped_of_published (h : w.isPublished = true) : w.isDropped = false := by
  cases hp : w.phase <;> simp_all

/-- An owner holds the lock until its batch is on its way. -/
theorem owner_cases (h : w.isOwner = true) : w.holdsLock = true ∨ w.phase = .submitted ∨ w.isCommitted = true := by
  cases hp : w.phase <;> simp_all

end Writer

namespace FileState

variable {f₀ : SparseFile} {s s' : FileState} {i k : Nat} {w w' v : Writer} {a : Action} {request : IdentifiedWrite}

/-- `v` has the bytes of the request, does not meet them, or is not published. -/
def clear (request : IdentifiedWrite) (v : Writer) : Bool :=
  decide (v.request.entry = request.entry) || decide (v.request.stop ≤ request.offset) ||
    decide (request.stop ≤ v.request.offset) || v.isDropped

/-- The write that first carried an operation, and everything staged after it. -/
def sinceOriginal (s : FileState) (op : Nat) : List Nat :=
  s.log.dropWhile fun k => !(s.writers[k]?).any fun v => v.isEffective && decide (v.request.op = op)

/-- A replayed call is staged only if nothing that overlaps it was staged after the original. -/
def unshadowed (s : FileState) : Action → Bool
  | .stage i => (s.writers[i]?).all fun w =>
    !w.batch.replayed || (s.sinceOriginal w.request.op).all fun k => (s.writers[k]?).all (clear w.request)
  | _ => true

abbrev Unshadowed (s : FileState) (a : Action) : Prop := s.unshadowed a = true

/-- Since the write that a replayed entry repeats, nothing else has touched its bytes. -/
def Repeats (s : FileState) (k : Nat) (v : Writer) : Prop :=
  ∃ before j between after u, s.log = before ++ j :: (between ++ k :: after) ∧ s.At j u ∧ u.isEffective = true ∧
    u.request.op = v.request.op ∧ u.request.entry = v.request.entry ∧
    ∀ x ∈ between, ∀ y, s.At x y → clear v.request y = true

/-- One writer owns each operation; the others repeat it. -/
structure Once (s : FileState) : Prop where
  owner : ∀ j k v w, s.At j v → s.At k w → v.isOwner = true → w.isOwner = true →
    w.request.op ≠ 0 → v.request.op = w.request.op → j = k
  decided : ∀ k v, s.At k v → v.isDecided = true → v.request.stop ≤ u64Max
  ledger : ∀ k v, s.At k v → v.isCommitted = true → v.request.op ≠ 0 →
    (s.recorded.get v.request.op).isSome = true
  replays : ∀ k v, s.At k v → v.isReplay = true → Repeats s k v

/-! ## Steps that decide nothing -/

/-- The standing of a writer does not grow. -/
def Below (w' w : Writer) : Prop :=
  w'.request = w.request ∧ (w'.isOwner = true → w.isOwner = true) ∧ (w'.isDecided = true → w.isDecided = true) ∧
    (w'.isCommitted = true → w.isCommitted = true) ∧ (w'.isReplay = true → w.isReplay = true) ∧
    (w.isDropped = true → w'.isDropped = true)

theorem below_outside (hp : isOutside w'.phase = true ∨ w'.phase = .locked) (hreq : w'.request = w.request)
    (hdrop : w.isDropped = false) : Below w' w := by
  have hlow : w'.isOwner = false ∧ w'.isDecided = false ∧ w'.isCommitted = false ∧ w'.isReplay = false := by
    unfold isOutside at hp
    cases hq : w'.phase <;> simp_all
  obtain ⟨h1, h2, h3, h4⟩ := hlow
  exact ⟨hreq, by rw [h1]; exact nofun, by rw [h2]; exact nofun, by rw [h3]; exact nofun, by rw [h4]; exact nofun,
    by rw [hdrop]; exact nofun⟩

/-- The steps of a batch on its way that neither look up nor commit. -/
inductive OnWay : WritePhase → WritePhase → Prop
  | along {p q} : Along p q → OnWay p q
  | load : OnWay .searched .loaded
  | measure : OnWay .loaded .measured
  | submit : OnWay .accepted .submitted
  | retire : OnWay .completed .retired
  | rollBack : OnWay .staged .rolledBack
  | remove : OnWay .rolledBack .removed

theorem below_onWay {p : WritePhase} (hp : w.phase = p) (hway : OnWay p w'.phase) (hreq : w'.request = w.request)
    (hbatch : w'.batch = w.batch) : Below w' w := by
  generalize hq : w'.phase = q at hway
  cases hway with
  | along hway => cases hway <;> simp [Below, hp, hq, hreq, hbatch]
  | _ => simp [Below, hp, hq, hreq, hbatch]

theorem clear_mono (hreq : w'.request = w.request) (hdrop : w.isDropped = true → w'.isDropped = true)
    (h : clear request w = true) : clear request w' = true := by
  unfold clear at h ⊢
  rw [hreq]
  revert h hdrop
  cases w.isDropped <;> cases w'.isDropped <;> simp

theorem Repeats.moves (h : Repeats s k v) (hm : Moves s s')
    (hdrop : ∀ x y y', s.At x y → s'.At x y' → y.isDropped = true → y'.isDropped = true)
    (hreq : w'.request = v.request) (hlogged : ∀ x ∈ s.log, ∃ y, s.At x y) : Repeats s' k w' := by
  obtain ⟨before, j, between, after, u, hlog, hu, heff, hop, hentry, hclear⟩ := h
  obtain ⟨l, hl⟩ := hm.log
  obtain ⟨u', hu', hureq, hukeep, -⟩ := hm.writer j u hu
  have hpub := Bool.and_eq_true_iff.1 heff
  refine ⟨before, j, between, after ++ l, u', by rw [hl, hlog]; simp, hu', ?_, by rw [hureq, hreq, hop],
    by rw [hureq, hreq, hentry], ?_⟩
  · rw [isEffective, (hukeep hpub.1).1, (hukeep hpub.1).2]; exact hpub.2
  intro x hx y' hy'
  obtain ⟨y, hy⟩ := hlogged x (by rw [hlog]; simp [hx])
  obtain ⟨y'', hy'', hyreq, -, -⟩ := hm.writer x y hy
  cases hy'.symm.trans hy''
  rw [hreq]
  exact clear_mono hyreq (hdrop x y y' hy hy') (hclear x hx y hy)

/-- No writer rises, a new one has only been called, and no result is forgotten. -/
structure Quiet (s s' : FileState) : Prop where
  writer : ∀ k v', s'.At k v' →
    (∃ v, s.At k v ∧ Below v' v) ∨ (s.writers[k]? = none ∧ v'.phase = .called)
  recorded : ∀ op, (s.recorded.get op).isSome = true → (s'.recorded.get op).isSome = true

theorem Quiet.frame (hw : s'.writers = s.writers) (hrec : s'.recorded = s.recorded) : Quiet s s' where
  writer k v hv := .inl ⟨v, at_eq hw ▸ hv, rfl, id, id, id, id, id⟩
  recorded op h := by rw [hrec]; exact h

theorem Quiet.set (hw : s.At i w) (hs : s'.writers = s.writers.set i w') (hbelow : Below w' w)
    (hrec : ∀ op, (s.recorded.get op).isSome = true → (s'.recorded.get op).isSome = true) : Quiet s s' where
  writer k v hv := by
    rcases Slots.cases_set hs hw hv with ⟨rfl, rfl⟩ | ⟨-, hv⟩
    · exact .inl ⟨w, hw, hbelow⟩
    · exact .inl ⟨v, hv, rfl, id, id, id, id, id⟩
  recorded := hrec

theorem Quiet.dropped (h : Quiet s s') (x : Nat) (y y' : Writer) (hy : s.At x y) (hy' : s'.At x y')
    (hdrop : y.isDropped = true) : y'.isDropped = true := by
  rcases h.writer x y' hy' with ⟨z, hz, hbelow⟩ | ⟨hnone, -⟩
  · cases hy.symm.trans hz; exact hbelow.2.2.2.2.2 hdrop
  · cases hy.symm.trans hnone

theorem Once.quiet (h : Once s) (hok : Ok f₀ s) (hm : Moves s s') (hq : Quiet s s') : Once s' where
  owner j k v w hv hw hvo hwo hop heq := by
    rcases hq.writer j v hv with ⟨v₀, hv₀, hvb⟩ | ⟨-, hp⟩
    · rcases hq.writer k w hw with ⟨w₀, hw₀, hwb⟩ | ⟨-, hp⟩
      · exact h.owner j k v₀ w₀ hv₀ hw₀ (hvb.2.1 hvo) (hwb.2.1 hwo) (by rw [← hwb.1]; exact hop)
          (by rw [← hvb.1, ← hwb.1]; exact heq)
      · simp [hp] at hwo
    · simp [hp] at hvo
  decided k v hv hd := by
    rcases hq.writer k v hv with ⟨v₀, hv₀, hvb⟩ | ⟨-, hp⟩
    · rw [hvb.1]; exact h.decided k v₀ hv₀ (hvb.2.2.1 hd)
    · simp [hp] at hd
  ledger k v hv hc hop := by
    rcases hq.writer k v hv with ⟨v₀, hv₀, hvb⟩ | ⟨-, hp⟩
    · rw [hvb.1] at hop ⊢; exact hq.recorded _ (h.ledger k v₀ hv₀ (hvb.2.2.2.1 hc) hop)
    · simp [hp] at hc
  replays k v hv hr := by
    rcases hq.writer k v hv with ⟨v₀, hv₀, hvb⟩ | ⟨-, hp⟩
    · exact (h.replays k v₀ hv₀ (hvb.2.2.2.2.1 hr)).moves hm hq.dropped hvb.1 hok.logged
    · simp [hp] at hr

section

variable {l : List Nat} {g : Nat → Option OverlayEntry} {pos : Nat}

theorem recorded_recordOp {op op' b : Nat} (h : (s.recorded.get op').isSome = true) :
    ((s.recordOp op b).get op').isSome = true := by
  unfold recordOp
  split
  · exact h
  by_cases hop : op' = op
  · rw [hop, Table.get_put_self]; rfl
  · rw [Table.get_put_ne hop]; exact h

/-! ## Steps that decide -/

theorem overlapsExtents_self {request' : IdentifiedWrite} (hentry : request.entry = request'.entry)
    (hdata : request.data ≠ []) (hstop : request.stop ≤ u64Max) : request.overlapsExtents request' = true := by
  obtain ⟨hoff, hd⟩ := Prod.mk.inj hentry
  have hlen := length_pos_iff.2 hdata
  have hspan : extentSpan request.offset request.data.length =
      some (request.offset / extentSize, (request.offset + request.data.length - 1) / extentSize) := by
    unfold extentSpan
    rw [checkedAdd_of_le hstop]
    dsimp only
    rw [if_neg (by omega)]
  unfold IdentifiedWrite.overlapsExtents
  rw [← hoff, ← hd, hspan]
  have hle : request.offset / extentSize ≤ (request.offset + request.data.length - 1) / extentSize :=
    Nat.div_le_div_right (by omega)
  simp [hle]

theorem samePayload_entry (hok : Ok f₀ s) (hv : s.At k v) (hw : s.At i w) (hop : w.request.op ≠ 0)
    (heq : v.request.op = w.request.op) : v.request.entry = w.request.entry :=
  (samePayload_stop (hok.payload k i v w hv hw hop heq)).1

/-- **A lookup that finds nothing finds no other owner**: one before its submission would hold the lock, one in flight
would be waited for, and a committed one has its result recorded. -/
theorem Once.no_owner (h : Once s) (hok : Ok f₀ s) (hw : s.At i w) (hp : w.phase = .locked) (hop : w.request.op ≠ 0)
    (hfree : s.inflightOverlap w.request = false) (hnone : s.recordedOp w.request.op = none) (hv : s.At k v)
    (hown : v.isOwner = true) (heq : v.request.op = w.request.op) : False := by
  rcases owner_cases hown with hlock | hsub | hcom
  · have hi := (hok.writer i w hw).lock.1 (by simp [hp])
    have hk := (hok.writer k v hv).lock.1 hlock
    cases hi.symm.trans hk
    cases hw.symm.trans hv
    simp [hp] at hown
  · have hdata := (hok.writer k v hv).nonempty (by simp [hsub])
    have hlive := (hok.writer k v hv).live hsub
    have hstop := h.decided k v hv (by simpa [hsub, hlive] using hdata)
    have hover := overlapsExtents_self (samePayload_entry hok hv hw hop heq) hdata hstop
    refine Bool.eq_false_iff.1 hfree (any_eq_true.2 ⟨v, mem_of_getElem? hv, ?_⟩)
    rw [hsub, hover]
    rfl
  · have hrec := h.ledger k v hv hcom (by rw [heq]; exact hop)
    rw [recordedOp, if_neg hop, ← heq] at hnone
    rw [hnone] at hrec
    cases hrec

/-- One writer is replaced by another of the same request. -/
theorem Once.set (h : Once s) (hok : Ok f₀ s) (hm : Moves s s') (hw : s.At i w) (hs : s'.writers = s.writers.set i w')
    (hreq : w'.request = w.request) (hdrop : w.isDropped = false)
    (howner : w'.isOwner = true → ∀ k v, s.At k v → v.isOwner = true → w.request.op ≠ 0 →
      v.request.op = w.request.op → k = i)
    (hdecided : w'.isDecided = true → w.request.stop ≤ u64Max)
    (hrec : ∀ op, (s.recorded.get op).isSome = true → (s'.recorded.get op).isSome = true)
    (hledger : w'.isCommitted = true → w.request.op ≠ 0 → (s'.recorded.get w.request.op).isSome = true)
    (hreplay : w'.isReplay = true → Repeats s' i w') : Once s' := by
  have hcases : ∀ {k v}, s'.At k v → (k = i ∧ v = w') ∨ (k ≠ i ∧ s.At k v) :=
    fun hv => Slots.cases_set hs hw hv
  refine ⟨fun j k v u hv hu hvo huo hop heq => ?_, fun k v hv hd => ?_, fun k v hv hc hop => ?_, fun k v hv hr => ?_⟩
  · rcases hcases hv with ⟨rfl, rfl⟩ | ⟨-, hv'⟩ <;> rcases hcases hu with ⟨rfl, rfl⟩ | ⟨-, hu'⟩
    · rfl
    · exact (howner hvo k u hu' huo (by rw [← hreq, heq]; exact hop) (by rw [← heq, hreq])).symm
    · exact howner huo j v hv' hvo (by rw [← hreq]; exact hop) (by rw [heq, hreq])
    · exact h.owner j k v u hv' hu' hvo huo hop heq
  · rcases hcases hv with ⟨rfl, rfl⟩ | ⟨-, hv'⟩
    · rw [hreq]; exact hdecided hd
    · exact h.decided k v hv' hd
  · rcases hcases hv with ⟨rfl, rfl⟩ | ⟨-, hv'⟩
    · rw [hreq] at hop ⊢; exact hledger hc hop
    · exact hrec _ (h.ledger k v hv' hc hop)
  rcases hcases hv with ⟨rfl, rfl⟩ | ⟨-, hv'⟩
  · exact hreplay hr
  refine (h.replays k v hv' hr).moves hm (fun x y y' hy hy' hyd => ?_) rfl hok.logged
  rcases hcases hy' with ⟨rfl, rfl⟩ | ⟨-, hy'⟩
  · cases hw.symm.trans hy; cases hdrop.symm.trans hyd
  · cases hy.symm.trans hy'; exact hyd

theorem Once.keep (h : Once s) (hw : s.At i w) (hown : w.isOwner = true) (k : Nat) (v : Writer) (hv : s.At k v)
    (hvo : v.isOwner = true) (hop : w.request.op ≠ 0) (heq : v.request.op = w.request.op) : k = i :=
  h.owner k i v w hv hw hvo hown hop heq

theorem mem_dropWhile_split {p : Nat → Bool} {j : Nat} (hj : j ∈ l) (hp : p j = false) :
    ∃ before x after, l = before ++ x :: after ∧ p x = false ∧ l.dropWhile p = x :: after := by
  induction l with
  | nil => cases hj
  | cons y l ih =>
    cases hy : p y with
    | false => exact ⟨[], y, l, rfl, hy, by rw [dropWhile_cons, hy]; rfl⟩
    | true =>
      rcases mem_cons.1 hj with rfl | hj
      · rw [hp] at hy; cases hy
      · obtain ⟨before, x, after, rfl, hx, hdrop⟩ := ih hj
        exact ⟨y :: before, x, after, rfl, hx, by rw [dropWhile_cons, hy]; exact hdrop⟩

/-- A replayed call that is staged in the clear repeats the original. -/
theorem repeats_of_unshadowed (hok : Ok f₀ s) (hw : s.At i w) (hrep : w.batch.replayed = true)
    (hc : (s.sinceOriginal w.request.op).all (fun k => (s.writers[k]?).all (clear w.request)) = true)
    (hlog : s'.log = s.log ++ [i]) (hkeep : ∀ k, k ∈ s.log → s'.writers[k]? = s.writers[k]?)
    (hreq : w'.request = w.request) : Repeats s' i w' := by
  obtain ⟨hop, j, u, hu, heff, heq, -⟩ := (hok.writer i w hw).replay hrep
  have hstaged := staged_of_published (Bool.and_eq_true_iff.1 heff).1
  obtain ⟨before, x, after, hsplit, hx, hdrop⟩ := mem_dropWhile_split (p := fun k => !(s.writers[k]?).any fun v =>
    v.isEffective && decide (v.request.op = w.request.op)) ((hok.writer j u hu).logged.1 hstaged)
      (by rw [hu, any_some, heff, heq]; simp)
  obtain ⟨y, hy, hyp⟩ := (any_eq_true _ _).1 (Eq.mp (Bool.not_eq_false' _) hx)
  obtain ⟨hyeff, hyop⟩ := Bool.and_eq_true_iff.1 hyp
  rw [decide_eq_true_eq] at hyop
  have hxlog : x ∈ s.log := by rw [hsplit]; simp
  refine ⟨before, x, after, [], y, by rw [hlog, hsplit]; simp, (hkeep x hxlog).trans hy, hyeff,
    by rw [hreq]; exact hyop, ?_, ?_⟩
  · rw [hreq]; exact samePayload_entry hok hy hw hop hyop
  intro z hz v hv
  rw [At, hkeep z (by rw [hsplit]; simp [hz])] at hv
  have := all_eq_true.1 hc z (by unfold sinceOriginal; rw [hdrop]; exact mem_cons_of_mem _ hz)
  rw [hv] at this
  rw [hreq]
  exact this

theorem step_once (h : Once s) (hok : Ok f₀ s) (hc : Unshadowed s a) (hs : Stepped s a s') : Once s' := by
  have hm := step_moves hs
  -- the steps that decide nothing
  have hset : ∀ {j : Nat} {w w' : Writer}, s.At j w → s'.writers = s.writers.set j w' → s'.recorded = s.recorded →
      Below w' w → Once s' := fun hw hs hrec hb => h.quiet hok hm (.set hw hs hb fun op h => by rw [hrec]; exact h)
  cases hs with
  | idle ha hw hstill hr => exact h.quiet hok hm (.frame hw hstill.recorded)
  | call hall =>
    refine h.quiet hok hm ⟨fun k v hv => ?_, fun _ => id⟩
    rcases Slots.cases_snoc hv with hv | ⟨rfl, rfl⟩
    · exact .inl ⟨v, hv, rfl, id, id, id, id, id⟩
    · exact .inr ⟨getElem?_eq_none le_rfl, rfl⟩
  | @outside _ _ j w q hw hp hq hs hstill hr =>
    refine hset hw hs hstill.recorded (below_outside (.inl hq) rfl ?_)
    unfold isOutside at hp
    cases hq : w.phase <;> simp_all
  | replay hw hp hrec => exact hset hw rfl rfl (by rcases hp with hp | hp <;> simp [Below, replayedBatch, hp])
  | acquire hw hp hfree => exact hset hw rfl rfl (below_outside (.inr rfl) rfl (by simp [hp]))
  | search hw hp hfree hnone =>
    refine h.set hok hm hw rfl rfl (by simp [hp]) (fun _ k v hv hvo hop heq => ?_) (by simp) (fun _ => id)
      (by simp) (by simp)
    exact (h.no_owner hok hw hp hop hfree hnone hv hvo heq).elim
  | loadNil hw hp hempty => exact hset hw rfl rfl (by simp [Below, hp, hempty])
  | load hw hp => exact hset hw rfl rfl (below_onWay hp .load rfl rfl)
  | measure hw hp => exact hset hw rfl rfl (below_onWay hp .measure rfl rfl)
  | plan hw hp hstop =>
    exact h.set hok hm hw rfl rfl (by simp [hp]) (fun _ => h.keep hw (by simp [hp])) (fun _ => hstop) (fun _ => id)
      (by simp) (by simp)
  | @stage j w entries hw hp hdata hrun =>
    cases hrep : w.batch.replayed with
    | false => exact hset hw rfl rfl (by simp [Below, hp, hrep])
    | true =>
      refine h.set hok hm hw rfl rfl (by simp [hp]) (by simp [hrep]) (by simp [hrep]) (fun _ => id) (by simp)
        fun _ => ?_
      dsimp only [Unshadowed, unshadowed] at hc
      rw [hw, all_some, hrep] at hc
      refine repeats_of_unshadowed hok hw hrep hc rfl (fun k hk => Slots.get_set_ne rfl ?_) rfl
      rintro rfl
      exact hok.not_mem_log hw (by simp [hp]) hk
  | along hw hway hs hstill hr => exact hset hw hs hstill.recorded (below_onWay rfl (.along hway) rfl rfl)
  | record hw hp =>
    exact h.quiet hok hm (.set hw rfl (below_onWay hp (.along .record) rfl rfl) fun op h => recorded_recordOp h)
  | @refuse j w keep cache hw href =>
    refine hset hw rfl rfl (below_outside (.inl rfl) rfl ?_)
    cases hp : w.phase <;> simp_all
  | rollBack hw hp => exact hset hw rfl rfl (below_onWay hp .rollBack rfl rfl)
  | submitReplay hw hp hhead hrep => exact hset hw rfl rfl (by simp [Below, hp, hrep])
  | submit hw hp hhead hrep => exact hset hw rfl rfl (below_onWay hp .submit rfl rfl)
  | @commit j w hw hp =>
    have hlive := (hok.writer j w hw).live hp
    refine h.set hok hm hw rfl rfl (by simp [hp]) (fun _ => h.keep hw (by simp [hp, hlive])) (by simp)
      (fun op => recorded_recordOp)
      (fun _ hop => ?_) (by simp [hlive])
    unfold commitWriter recordOp
    dsimp only
    split
    · rename_i hold; exact hold.resolve_left hop
    · rw [Table.get_put_self]; rfl
  | retire hw hhead hpin hp =>
    rcases hp with ⟨hp, rfl⟩ | ⟨hp, rfl⟩
    · exact hset hw rfl rfl (below_onWay hp .retire rfl rfl)
    · exact hset hw rfl rfl (below_onWay hp .remove rfl rfl)

theorem boot_once (f₀ : SparseFile) : Once { file := f₀ } where
  owner j k v w hv := by cases hv
  decided k v hv := by cases hv
  ledger k v hv := by cases hv
  replays k v hv := by cases hv

theorem reach_once (h : Machine.Reach step Unshadowed { file := f₀ } s) : Ok f₀ s ∧ Once s :=
  h.invariant (I := fun s => Ok f₀ s ∧ Once s) ⟨boot_ok f₀, boot_once f₀⟩
    fun _ _ _ hinv hc hs => ⟨step_ok hinv.1 (stepped hs), step_once hinv.2 hinv.1 hc (stepped hs)⟩

/-! ## The last write at a position -/

theorem exists_last_cover {b : UInt8} (h : latest (l.filterMap g) pos = some b) :
    ∃ l₁ k l₂ e, l = l₁ ++ k :: l₂ ∧ g k = some e ∧ written e pos = some b ∧ latest (l₂.filterMap g) pos = none := by
  induction l with
  | nil => cases h
  | cons x l ih =>
    cases hl : latest (l.filterMap g) pos with
    | some c =>
      have hcb : c = b := by
        rw [← singleton_append, filterMap_append, SparseFile.latest_append, hl] at h
        simpa using h
      subst hcb
      obtain ⟨l₁, k, l₂, e, rfl, hk, hb, hnone⟩ := ih hl
      exact ⟨x :: l₁, k, l₂, e, rfl, hk, hb, hnone⟩
    | none =>
      cases hx : g x with
      | none => rw [filterMap_cons_none hx, hl] at h; cases h
      | some e =>
        rw [filterMap_cons_some hx, latest, hl, none_or] at h
        exact ⟨[], x, l, e, rfl, hx, h, hl⟩

theorem latest_eq_none_iff :
    latest (l.filterMap g) pos = none ↔ ∀ k ∈ l, ∀ e, g k = some e → written e pos = none := by
  refine ⟨fun h k hk e he => ?_, fun h => ?_⟩
  · by_contra hne
    have := latest_isSome (mem_filterMap.2 ⟨k, hk, he⟩) (isSome_iff_ne_none.2 hne)
    rw [h] at this
    cases this
  · cases hl : latest (l.filterMap g) pos with
    | none => rfl
    | some b =>
      obtain ⟨e, he, hb⟩ := mem_of_latest hl
      obtain ⟨k, hk, hg⟩ := mem_filterMap.1 he
      rw [h k hk e hg] at hb
      cases hb

theorem latest_split (g : Nat → Option OverlayEntry) (l₁ l₂ : List Nat) (k pos : Nat) :
    latest ((l₁ ++ k :: l₂).filterMap g) pos =
      (latest (l₂.filterMap g) pos).or (((g k).bind fun e => written e pos).or (latest (l₁.filterMap g) pos)) := by
  rw [filterMap_append, SparseFile.latest_append]
  cases hk : g k with
  | none => rw [filterMap_cons_none hk, bind_none, none_or]
  | some e => rw [filterMap_cons_some hk, latest, bind_some, Option.or_assoc]

end

section

variable {p : Writer → Bool} {e : OverlayEntry} {pos : Nat}

theorem written_clear (hclear : clear request v = true) (hpub : v.isPublished = true)
    (hin : (written request.entry pos).isSome = true) (hv : (written v.request.entry pos).isSome = true) :
    v.request.entry = request.entry := by
  have h1 := written_lt hin
  have h2 := written_lt hv
  rw [clear, not_dropped_of_published hpub] at hclear
  simp only [Bool.or_false, Bool.or_eq_true, decide_eq_true_eq] at hclear
  rcases hclear with (hentry | hbefore) | hbehind
  · exact hentry
  · omega
  · omega

/-- A replayed entry has the bytes that the writes before it left. -/
theorem Repeats.latest_eq {before : List Nat} {after : List Nat} (h : Repeats s k v) (hnodup : s.log.Nodup)
    (hlog : s.log = before ++ k :: after) {b : UInt8} (hb : written v.request.entry pos = some b) :
    latest (before.filterMap (s.pick isEffective)) pos = some b := by
  obtain ⟨before', j, between, after', u, hlog', hu, heff, -, hentry, hclear⟩ := h
  have hin : (written v.request.entry pos).isSome = true := by rw [hb]; rfl
  rw [hlog] at hlog' hnodup
  obtain ⟨hk1, hk2⟩ : k ∉ before ∧ k ∉ after := by
    rw [nodup_append] at hnodup
    exact ⟨fun hk => hnodup.2.2 k hk k (by simp) rfl, (nodup_cons.1 hnodup.2.1).1⟩
  have hsame : before = before' ++ j :: between := by
    rw [show before' ++ j :: (between ++ k :: after') = (before' ++ j :: between) ++ k :: after' by simp] at hlog'
    exact ((append_cons_inj_of_notMem hk1 hk2).1 hlog').1
  rw [hsame, latest_split]
  cases hl : latest (between.filterMap (s.pick isEffective)) pos with
  | none => rw [pick_of hu heff, none_or, bind_some, hentry, hb]; rfl
  | some c =>
    obtain ⟨e, he, hc⟩ := mem_of_latest hl
    obtain ⟨x, hx, hpick⟩ := mem_filterMap.1 he
    obtain ⟨y, hy, hyeff, rfl⟩ := pick_eq_some hpick
    rw [written_clear (hclear x hx y hy) (Bool.and_eq_true_iff.1 hyeff).1 hin (by rw [hc]; rfl), hb] at hc
    rw [some_or, hc]

/-! ## What reads see -/

/-- **The visible bytes** are those of the effective writes in the order in which they were staged. -/
theorem Once.visible_byte (h : Once s) (hok : Ok f₀ s) (pos : Nat) :
    (latest s.snapshot pos).getD (s.file.byte pos) = (f₀.writeAll (s.writesWith isEffective)).byte pos := by
  rw [hok.bytes pos, SparseFile.byte_writeAll, SparseFile.byte_writeAll]
  have hlast : (latest s.snapshot pos).or (latest (s.writesWith isCommitted) pos) =
      latest (s.writesWith isEffective) pos := by
    obtain ⟨past, hpast, hgone⟩ := hok.lane
    have heff : s.writesWith isEffective = (past ++ s.entries).filterMap (s.pick isEffective) := by rw [← hpast]; rfl
    have hcom : s.writesWith isCommitted = (past ++ s.entries).filterMap (s.pick isCommitted) := by rw [← hpast]; rfl
    rw [snapshot_eq]
    cases hl : latest (s.entries.filterMap (s.pick Writer.isPublished)) pos with
    | some b =>
      rw [some_or]
      obtain ⟨l₁, k, l₂, e, hentries, hpick, hb, hnone⟩ := exists_last_cover hl
      obtain ⟨v, hv, hpub, rfl⟩ := pick_eq_some hpick
      have hlog : s.log = (past ++ l₁) ++ k :: l₂ := by rw [hpast, hentries, append_assoc]
      have hafter : latest (l₂.filterMap (s.pick isEffective)) pos = none := by
        refine latest_eq_none_iff.2 fun x hx e he => ?_
        obtain ⟨y, hy, hyeff, rfl⟩ := pick_eq_some he
        exact latest_eq_none_iff.1 hnone x hx _ (pick_of hy (Bool.and_eq_true_iff.1 hyeff).1)
      rw [heff, ← hpast, hlog, latest_split, hafter, none_or]
      cases hrep : v.batch.replayed with
      | false =>
        have hveff : v.isEffective = true := by rw [isEffective, hpub, hrep]; rfl
        rw [pick_of hv hveff, bind_some, hb, some_or]
      | true =>
        have hvnot : v.isEffective = false := by rw [isEffective, hrep, Bool.not_true, Bool.and_false]
        have hreplay : v.isReplay = true := by rw [isReplay, staged_of_published hpub, hrep]; rfl
        rw [pick_of_not hv hvnot, bind_none, none_or, (h.replays k v hv hreplay).latest_eq hok.nodup hlog hb]
    | none =>
      -- whatever the overlay does not cover was written by calls whose entries are gone
      have hnone : ∀ p : Writer → Bool, (∀ v, p v = true → v.isPublished = true) →
          latest (s.entries.filterMap (s.pick p)) pos = none := by
        intro p hp
        refine latest_eq_none_iff.2 fun x hx e he => ?_
        obtain ⟨y, hy, hyp, rfl⟩ := pick_eq_some he
        exact latest_eq_none_iff.1 hl x hx _ (pick_of hy (hp y hyp))
      have heffPub : ∀ v : Writer, v.isEffective = true → v.isPublished = true :=
        fun v hv => (Bool.and_eq_true_iff.1 hv).1
      have hcomEff : ∀ v : Writer, v.isCommitted = true → v.isEffective = true :=
        fun v hv => effective_of_submitted (submitted_of_committed hv)
      rw [heff, hcom, filterMap_append, filterMap_append, SparseFile.latest_append, SparseFile.latest_append,
        hnone _ heffPub, hnone _ fun v hv => heffPub v (hcomEff v hv), none_or, none_or, none_or]
      congr 1
      refine filterMap_congr fun k hk => ?_
      obtain ⟨v, hv, hg⟩ := hgone k hk
      cases he : v.isEffective with
      | true => rw [pick_of hv he, pick_of hv (committed_of_gone he hg)]
      | false =>
        refine (pick_of_not hv ?_).trans (pick_of_not hv he).symm
        by_contra hne
        rw [hcomEff v (Bool.not_eq_false _ ▸ hne)] at he
        cases he
  rw [← hlast]
  cases latest s.snapshot pos <;> rfl

theorem Ok.mem_writesWith (h : Ok f₀ s) (hv : s.At k v) (hp : p v = true) (hstaged : v.isStaged = true) :
    v.request.entry ∈ s.writesWith p :=
  mem_filterMap.2 ⟨k, (h.writer k v hv).logged.1 hstaged, pick_of hv hp⟩

theorem of_mem_writesWith (he : e ∈ s.writesWith p) :
    ∃ k v, s.At k v ∧ p v = true ∧ e = v.request.entry := by
  obtain ⟨k, -, hk⟩ := mem_filterMap.1 he
  obtain ⟨v, hv, hp, rfl⟩ := pick_eq_some hk
  exact ⟨k, v, hv, hp, rfl⟩

end

/-- The size that `visible_size` returns for the stored one. -/
def visibleSize (s : FileState) : Nat := max s.file.size (max s.dirtyEnd s.attrsSize)

theorem Ok.visibleSize_eq (h : Ok f₀ s) : s.visibleSize = (f₀.writeAll (s.writesWith isEffective)).size := by
  have hstop : ∀ k v, s.At k v → v.isEffective = true →
      v.request.stop ≤ (f₀.writeAll (s.writesWith isEffective)).size := by
    intro k v hv heff
    have hstaged := staged_of_published (Bool.and_eq_true_iff.1 heff).1
    exact SparseFile.stop_le_writeAll f₀ (h.mem_writesWith hv heff hstaged) ((h.writer k v hv).nonempty hstaged)
  have hfile : s.file.size ≤ (f₀.writeAll (s.writesWith isEffective)).size := by
    rw [h.size]
    refine SparseFile.size_writeAll_le (SparseFile.size_le_writeAll _ _) fun e he => ?_
    obtain ⟨k, v, hv, hsub, rfl⟩ := of_mem_writesWith he
    exact hstop k v hv (effective_of_submitted hsub)
  refine Nat.le_antisymm ?_ ?_
  · have hattrs : ∀ k v, s.At k v → v.isEffective = true →
        v.batch.attrsSize ≤ (f₀.writeAll (s.writesWith isEffective)).size := by
      intro k v hv heff
      have hv' := hstop k v hv heff
      rcases planned_or_submitted heff with hp | hsub
      · have hdata := (h.writer k v hv).nonempty (staged_of_published (Bool.and_eq_true_iff.1 heff).1)
        have := (h.writer k v hv).planned hp hdata
        omega
      · exact Nat.le_trans ((h.writer k v hv).submitted hsub).2 hfile
    have hn := fun (k : Nat) (v : Writer) (hv : s.At k v) (heff : v.isEffective = true) =>
      And.intro (hstop k v hv heff) (hattrs k v hv heff)
    have hdirty : s.dirtyEnd ≤ _ := dirtyEnd_le fun k v hv hpub => (h.published_le hn hv hpub).1
    have hattr : s.attrsSize ≤ _ := attrsSize_le fun k v hv hpub => (h.published_le hn hv hpub).2
    unfold visibleSize
    omega
  · unfold visibleSize
    refine SparseFile.size_writeAll_le ?_ fun e he => ?_
    · have := SparseFile.size_le_writeAll f₀ (s.writesWith isSubmitted)
      rw [← h.size] at this
      omega
    obtain ⟨k, v, hv, heff, rfl⟩ := of_mem_writesWith he
    show v.request.stop ≤ _
    have hpub := (Bool.and_eq_true_iff.1 heff).1
    obtain ⟨past, hpast, hgone⟩ := h.lane
    have hlog := (h.writer k v hv).logged.1 (staged_of_published hpub)
    rw [hpast] at hlog
    rcases mem_append.1 hlog with hold | hnew
    · obtain ⟨u, hu, hg⟩ := hgone k hold
      cases hv.symm.trans hu
      have := ((h.writer k v hv).submitted (submitted_of_committed (committed_of_gone heff hg))).1
      omega
    · have := stop_le_dirtyEnd hnew hv hpub
      omega

theorem Ok.byte_beyond (h : Ok f₀ s) (hzero : ∀ pos, f₀.size ≤ pos → f₀.byte pos = 0) {pos : Nat}
    (hpos : s.file.size ≤ pos) : s.file.byte pos = 0 := by
  rw [h.bytes pos, SparseFile.byte_writeAll]
  have hnone : latest (s.log.filterMap (s.pick isCommitted)) pos = none := by
    refine latest_eq_none_iff.2 fun k _ e he => ?_
    obtain ⟨v, hv, hcom, rfl⟩ := pick_eq_some he
    have hle := ((h.writer k v hv).submitted (submitted_of_committed hcom)).1
    refine SparseFile.written_eq_none_iff.2 fun hin => ?_
    have : pos < v.request.stop := hin.2
    omega
  show (latest (s.log.filterMap (s.pick isCommitted)) pos).getD (f₀.byte pos) = 0
  rw [hnone]
  refine hzero pos (Nat.le_trans ?_ hpos)
  rw [h.size]
  exact SparseFile.size_le_writeAll _ _

/-- `read_file_visible`, with nothing else happening in between: the bytes, and whether they reach the end of the
file. -/
def readVisible (s : FileState) (offset count : Nat) : List UInt8 × Bool :=
  if offset ≥ s.visibleSize then ([], true)
  else
    let length := min count (s.visibleSize - offset)
    let canonicalLen := if offset ≥ s.file.size then 0 else min length (s.file.size - offset)
    let base := (range canonicalLen).map (fun n => s.file.byte (offset + n)) ++ replicate (length - canonicalLen) 0
    let data :=
      if s.runtime.isNone then base
      else match fullyCovered offset length s.snapshot with
        | some data => data
        | none => s.snapshot.foldl (applyEntry offset) base
    (data, decide (s.visibleSize ≤ offset + length))

/-- The stored bytes of a range, with zeros beyond the size. -/
theorem Ok.base_eq (h : Ok f₀ s) (hzero : ∀ pos, f₀.size ≤ pos → f₀.byte pos = 0) (offset length : Nat) :
    (range (if offset ≥ s.file.size then 0 else min length (s.file.size - offset))).map
      (fun n => s.file.byte (offset + n)) ++
      replicate (length - if offset ≥ s.file.size then 0 else min length (s.file.size - offset)) 0 =
    (range length).map fun n => s.file.byte (offset + n) := by
  generalize hc : (if offset ≥ s.file.size then 0 else min length (s.file.size - offset)) = c
  have hle : c ≤ length := by split at hc <;> omega
  obtain ⟨d, rfl⟩ := Nat.exists_eq_add_of_le hle
  rw [Nat.add_sub_cancel_left, range_add, map_append, List.map_map]
  congr 1
  refine ext_getElem (by simp) fun n hn hn' => ?_
  rw [getElem_replicate, getElem_map, getElem_range, Function.comp_apply]
  refine (h.byte_beyond hzero ?_).symm
  rw [length_replicate] at hn
  split at hc <;> omega

/-- **What a read sees** is the file of the effective writes. -/
theorem Once.readVisible_eq (h : Once s) (hok : Ok f₀ s) (hzero : ∀ pos, f₀.size ≤ pos → f₀.byte pos = 0)
    (offset count : Nat) : s.readVisible offset count = (f₀.writeAll (s.writesWith isEffective)).read offset count := by
  unfold readVisible SparseFile.read
  rw [hok.visibleSize_eq]
  split
  · rfl
  dsimp only
  rw [hok.base_eq hzero]
  generalize min count ((f₀.writeAll (s.writesWith isEffective)).size - offset) = length
  congr 1
  refine ext_getElem? fun n => ?_
  rw [getElem?_map]
  split
  · -- no runtime: the overlay is empty
    rename_i hnone
    have hempty : s.snapshot = [] := by
      unfold snapshot entries
      rw [isNone_iff_eq_none.1 hnone]
      rfl
    rw [getElem?_map]
    congr 1
    funext m
    rw [← h.visible_byte hok, hempty]
    rfl
  · split
    · rename_i data hdata
      obtain ⟨hlen, hbytes⟩ := fullyCovered_spec hdata
      by_cases hn : n < length
      · obtain ⟨b, hb, hd⟩ := hbytes n hn
        rw [hd, getElem?_range hn, map_some, ← h.visible_byte hok, hb]
        rfl
      · rw [getElem?_eq_none (by omega), getElem?_eq_none (by simpa using hn)]; rfl
    · rw [getElem?_applyEntries, getElem?_map, Option.map_map]
      by_cases hn : n < length
      · rw [getElem?_range hn, map_some, map_some, ← h.visible_byte hok]; rfl
      · rw [getElem?_eq_none (by simpa using hn)]; rfl

/-! ## Runs -/

/-- The requests that took effect, in the order in which they were staged. -/
def history (s : FileState) : List IdentifiedWrite :=
  s.log.filterMap fun k => (s.writers[k]?).bind fun w => if w.isEffective then some w.request else none

theorem writesWith_history (s : FileState) : s.writesWith isEffective = s.history.map (·.entry) := by
  unfold writesWith history pick
  rw [map_filterMap]
  refine filterMap_congr fun k _ => ?_
  cases s.writers[k]? with
  | none => rfl
  | some v => simp only [bind_some]; split <;> rfl

theorem mem_history (hlog : k ∈ s.log) (hv : s.At k v) (heff : v.isEffective = true)
    (hreq : v.request = request) : request ∈ s.history :=
  mem_filterMap.2 ⟨k, hlog, by rw [hv, bind_some, if_pos heff, hreq]⟩

theorem Once.nodup (h : Once s) (hok : Ok f₀ s) : ((s.history.map (·.op)).filter (· ≠ 0)).Nodup := by
  unfold history
  rw [map_filterMap, filter_filterMap]
  refine hok.nodup.filterMap fun j k op hj hk => ?_
  have hcases : ∀ {k : Nat}, op ∈ (((s.writers[k]?).bind fun w => if w.isEffective then some w.request else none).map
      (·.op)).filter (fun op => decide (op ≠ 0)) → ∃ v, s.At k v ∧ v.isEffective = true ∧
      v.request.op = op ∧ op ≠ 0 := by
    intro k hk
    obtain ⟨hk, hne⟩ := filter_eq_some_iff.1 hk
    obtain ⟨request, hr, rfl⟩ := map_eq_some_iff.1 hk
    obtain ⟨v, hv, hr⟩ := bind_eq_some_iff.1 hr
    split at hr <;> cases hr
    exact ⟨v, hv, ‹_›, rfl, of_decide_eq_true hne⟩
  obtain ⟨v, hv, hveff, hvop, hne⟩ := hcases hj
  obtain ⟨w, hw, hweff, hwop, -⟩ := hcases hk
  exact h.owner j k v w hv hw (owner_of_effective hveff) (owner_of_effective hweff) (by rw [hwop]; exact hne)
    (by rw [hvop, hwop])

/-- **Operations take effect once**: what reads see is at any time the file of a history that has every operation at
most once, and the operation of every acknowledged call; and when no entry is left in the overlay the stored file is
that one. -/
theorem retries_take_effect_once (hzero : ∀ pos, f₀.size ≤ pos → f₀.byte pos = 0)
    (h : Machine.Reach step Unshadowed { file := f₀ } s) :
    ((s.history.map (·.op)).filter (· ≠ 0)).Nodup ∧
    (∀ (k : Nat) (v : Writer), s.writers[k]? = some v → v.isPublished = true →
      ∃ request ∈ s.history, request.op = v.request.op ∧ request.entry = v.request.entry) ∧
    (∀ offset count, s.readVisible offset count = (f₀.writeAll (s.history.map (·.entry))).read offset count) ∧
    (s.entries = [] → s.file.size = (f₀.writeAll (s.history.map (·.entry))).size ∧
      ∀ pos, s.file.byte pos = (f₀.writeAll (s.history.map (·.entry))).byte pos) := by
  obtain ⟨hok, honce⟩ := reach_once h
  refine ⟨honce.nodup hok, fun k v hv hpub => ?_, fun offset count => ?_, fun hempty => ?_⟩
  · have hstaged := staged_of_published hpub
    cases hrep : v.batch.replayed with
    | false =>
      exact ⟨v.request, mem_history ((hok.writer k v hv).logged.1 hstaged) hv (by rw [isEffective, hpub, hrep]; rfl)
        rfl, rfl, rfl⟩
    | true =>
      obtain ⟨before, j, between, after, u, hlog, hu, heff, hop, hentry, -⟩ :=
        honce.replays k v hv (by rw [isReplay, hstaged, hrep]; rfl)
      exact ⟨u.request, mem_history (by rw [hlog]; simp) hu heff rfl, hop, hentry⟩
  · rw [← writesWith_history]; exact honce.readVisible_eq hok hzero offset count
  have hsnap : s.snapshot = [] := by rw [snapshot_eq, hempty]; rfl
  have hnone : ∀ pos, s.file.byte pos = (f₀.writeAll (s.writesWith isEffective)).byte pos := by
    intro pos
    rw [← honce.visible_byte hok, hsnap]
    rfl
  rw [← writesWith_history]
  refine ⟨?_, hnone⟩
  rw [hok.size]
  congr 2
  -- every effective write has left the overlay, so it was submitted
  obtain ⟨past, hpast, hgone⟩ := hok.lane
  refine filterMap_congr fun k hk => ?_
  rw [hpast, hempty, append_nil] at hk
  obtain ⟨v, hv, hg⟩ := hgone k hk
  rw [pick, pick, hv, bind_some, bind_some]
  cases he : v.isEffective with
  | true => rw [submitted_of_committed (committed_of_gone he hg)]
  | false =>
    cases hsub : v.isSubmitted with
    | false => rfl
    | true => rw [effective_of_submitted hsub] at he; cases he

/-- The byte 7 at the start of the file, as operation 5. -/
def operation (identity : RequestIdentity) : IdentifiedWrite := ⟨5, 0, [7], identity, .canonicalDedup⟩

/-- A call is acknowledged with the recorded result. -/
def replayed (i : Nat) : List Action :=
  [.consult i, .lookup i, .reserve i, .check i, .stage i, .preview i, .publish i, .record i, .accept i]

/-- The lane takes an entry. -/
def taken (i : Nat) : List Action := [.submit i, .commit i, .settle i, .complete i, .retire i]

theorem retries_take_effect_once_twice : ∃ s, Machine.Reach step Unshadowed { file := ⟨0, fun _ => 0⟩ } s ∧
    s.writers.map (·.request.op) = [5, 5] ∧ s.history = [operation (.nineP 0 5)] ∧
    s.readVisible 0 1 = ((⟨0, fun _ => 0⟩ : SparseFile).writeAll [(0, [7])]).read 0 1 := by
  have hreach : Machine.Reach step Unshadowed { file := ⟨0, fun _ => 0⟩ } _ :=
    reach_of_run .init (l := .call (operation (.nineP 0 5)) :: acknowledges 0 ++ taken 0 ++ .call
      (operation (.directTagged 0 5)) :: replayed 1) rfl
  exact ⟨_, hreach, rfl, rfl, (retries_take_effect_once (fun _ _ => rfl) hreach).2.2.1 0 1⟩

/-- **A replay hides a newer write**: operation 5 writes 7 and is drained, then another write puts 9 there, then
operation 5 is retried under another identity. Until its entry retires, reads see the 7 again. -/
theorem replay_shadows_newer_write : ∃ r s t u,
    run step { file := ⟨0, fun _ => 0⟩ } (.call (operation (.nineP 0 5)) :: acknowledges 0 ++ taken 0) = some r ∧
    run step r (.call ⟨0, 0, [9], .directOneShot 0, .oneShot⟩ :: acknowledges 1 ++ taken 1) = some s ∧
    run step s (.call (operation (.directTagged 0 5)) :: replayed 2) = some t ∧
    run step t [.submit 2, .settle 2, .complete 2, .retire 2] = some u ∧
    r.readVisible 0 1 = ([7], true) ∧ s.readVisible 0 1 = ([9], true) ∧ t.readVisible 0 1 = ([7], true) ∧
    u.readVisible 0 1 = ([9], true) ∧
    ((⟨0, fun _ => 0⟩ : SparseFile).writeAll (t.history.map (·.entry))).read 0 1 = ([9], true) :=
  ⟨_, _, _, _, rfl, rfl, rfl, rfl, rfl, rfl, rfl, rfl, rfl⟩

end FileState

end ZeroFS.Volatile
