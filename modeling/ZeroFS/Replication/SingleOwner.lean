import ZeroFS.Lib.Slots
import ZeroFS.Replication.LeaderRecord

/-!
# Single ownership

Every write in flight builds on a value that the register once held and takes effect only on top of it, so the history
of the register is a chain of steps (`Next`) whatever is lost, late or repeated.
-/

namespace ZeroFS.Ownership

open Machine Register List Option

namespace OwnershipRecord

variable (r : OwnershipRecord)

def incarnation : Nat := r.owner.incarnation

/-- The writer epoch that the next active owner has to pass. -/
def floor : Nat :=
  match r.state with
  | .claiming h | .opening h => h.writerEpochFloor
  | .active _ writerEpoch => writerEpoch

def isActive : Bool := !r.inHandoff

end OwnershipRecord

/-- `d` may replace `r`. -/
structure Follows (r d : OwnershipRecord) : Prop where
  generation : r.generation ≤ d.generation
  floor : r.floor ≤ d.floor
  active : d.isActive = true → r.floor < d.floor

/-- `d` replaced `r` after the values `p`, as another step of the same attempt or as a new one. -/
structure Next (p : List OwnershipRecord) (r d : OwnershipRecord) : Prop where
  follows : Follows r d
  attempt : d.incarnation = r.incarnation ∨ ∀ x ∈ p, x.incarnation ≠ d.incarnation

/-! ## The records that a client writes -/

theorem checkedSucc_eq {n m : Nat} (h : checkedSucc n = some m) : m = n + 1 := by
  unfold checkedSucc at h
  split at h
  · exact (some.inj h).symm
  · cases h

theorem claimBase_eq (r : OwnershipRecord) : r.claimBase.1 = r.generation ∧ r.claimBase.2.1 = r.floor := by
  obtain ⟨g, st⟩ := r
  cases st <;> exact ⟨rfl, rfl⟩

theorem claimRecord_spec {s : Sys} {nodeId : String} {cur : Option RecordSnapshot} {d : OwnershipRecord}
    (h : s.claimRecord nodeId cur = some d) :
    d.incarnation = s.nextIncarnation ∧ (∃ h, d.state = .claiming h) ∧ ∀ r v, cur = some (r, v) → Follows r d := by
  obtain ⟨g, hg, h⟩ := bind_eq_some_iff.1 h
  obtain ⟨-, rfl⟩ := of_guard h
  refine ⟨rfl, ⟨_, rfl⟩, ?_⟩
  rintro r v rfl
  have hbase := claimBase_eq r
  have hsucc : g = r.claimBase.1 + 1 := checkedSucc_eq hg
  refine ⟨?_, ?_, nofun⟩
  · rw [hsucc, hbase.1]; exact Nat.le_succ _
  · show r.floor ≤ r.claimBase.2.1; rw [hbase.2]

/-- The phase of a handoff. -/
def inPhase (opening : Bool) (r : OwnershipRecord) : Prop :=
  if opening then ∃ h, r.state = .opening h else ∃ h, r.state = .claiming h

theorem inPhase_claiming {opening : Bool} {g : Nat} {h : Handoff} :
    inPhase opening ⟨g, .claiming h⟩ ↔ opening = false := by
  cases opening <;> simp [inPhase]

theorem inPhase_opening {opening : Bool} {g : Nat} {h : Handoff} :
    inPhase opening ⟨g, .opening h⟩ ↔ opening = true := by
  cases opening <;> simp [inPhase]

theorem renewedHandoff_spec {r d : OwnershipRecord} (h : r.renewedHandoff = some d) :
    Follows r d ∧ d.incarnation = r.incarnation ∧ d.generation = r.generation ∧ ∀ opening, inPhase opening r →
    inPhase opening d := by
  obtain ⟨g, st⟩ := r
  cases st with
  | claiming hd =>
    obtain ⟨n, _, rfl⟩ := map_eq_some_iff.1 h
    exact ⟨⟨le_rfl, le_rfl, nofun⟩, rfl, rfl, fun opening hp => inPhase_claiming.2 (inPhase_claiming.1 hp)⟩
  | opening hd =>
    obtain ⟨n, _, rfl⟩ := map_eq_some_iff.1 h
    exact ⟨⟨le_rfl, le_rfl, nofun⟩, rfl, rfl, fun opening hp => inPhase_opening.2 (inPhase_opening.1 hp)⟩
  | active o e => cases h

theorem sameAttempt_spec {r d : OwnershipRecord} (h : r.sameAttempt d = true) :
    d.incarnation = r.incarnation ∧ d.generation = r.generation ∧ ∀ opening, inPhase opening r → inPhase opening d := by
  obtain ⟨g, st⟩ := r
  obtain ⟨g', st'⟩ := d
  unfold OwnershipRecord.sameAttempt at h
  simp only [Bool.and_eq_true, decide_eq_true_eq] at h
  obtain ⟨rfl, h⟩ := h
  have howner : ∀ {x y : Handoff}, x.isSameAttemptAs y = true → y.owner = x.owner := by
    intro x y hxy
    simp only [Handoff.isSameAttemptAs, Bool.and_eq_true, decide_eq_true_eq] at hxy
    exact hxy.1.1.1.symm
  split at h
  · exact ⟨congrArg Owner.incarnation (howner h), rfl, fun opening hp => inPhase_claiming.2 (inPhase_claiming.1 hp)⟩
  · exact ⟨congrArg Owner.incarnation (howner h), rfl, fun opening hp => inPhase_opening.2 (inPhase_opening.1 hp)⟩
  · cases h

/-! ## The invariant -/

/-- A write builds on a value that the register has held, and on none of a later attempt of its own. -/
structure PutOk (s : Sys) (put : Put) : Prop where
  known : put.desired.incarnation < s.nextIncarnation
  follows : ∀ v, put.mode = .update v → ∃ r, s.log[v]? = some r ∧ Follows r put.desired ∧
    (put.desired.incarnation = r.incarnation ∨ ∀ j x, s.log[j]? = some x → x.incarnation = put.desired.incarnation →
      v < j)
  result : ∀ v, put.result = some v → s.log[v]? = some put.desired

/-- The write that a task has sent leads where its kind says. -/
def Leads (l : HandoffLease) (d : OwnershipRecord) : Kind → Prop
  | .renew => inPhase l.opening d
  | .beginOpen => inPhase true d
  | .activate _ => True

def TaskOk (s : Sys) (l : HandoffLease) : Prop :=
  match l.task with
  | .free | .retry _ => True
  | .sent kind p d =>
    (∃ put, s.puts[p]? = some put ∧ put.desired = d) ∧ Leads l d kind ∧ d.incarnation = l.state.record.incarnation ∧
      d.generation = l.generation
  | .failed kind d _ => Leads l d kind ∧ d.incarnation = l.state.record.incarnation ∧ d.generation = l.generation

/-- What a lease has between its writes, whoever holds its lock. -/
def Standing (s : Sys) (l : HandoffLease) : Prop :=
  s.log[l.state.version]? = some l.state.record ∧ l.state.record.generation = l.generation ∧
    inPhase l.opening l.state.record

/-- A lease, with the write that it may have sent. -/
structure LeaseOk (s : Sys) (l : HandoffLease) : Prop where
  standing : Standing s l
  task : TaskOk s l

theorem LeaseOk.task_of {s : Sys} {l : HandoffLease} (h : LeaseOk s l) {task : Task} (ht : l.task = task) :
    TaskOk s { l with task := task } := by
  subst ht
  exact h.task

def ClientOk (s : Sys) : Client → Prop
  | .observing _ observed => s.log[observed.2]? = some observed.1
  | .ready _ cur => ∀ r v, cur = some (r, v) → s.log[v]? = some r
  | .claiming p d => (∃ put, s.puts[p]? = some put ∧ put.desired = d) ∧ ∃ h, d.state = .claiming h
  | .claimFailed d => ∃ h, d.state = .claiming h
  | .lease l => LeaseOk s l
  | .active _ => True
  | .gone => True

/-- The attempt that a client stands for. -/
def Client.attempt : Client → Option Nat
  | .claiming _ d | .claimFailed d | .active d => some d.incarnation
  | .lease l => some l.state.record.incarnation
  | _ => none

/-- The history goes on from `base`. -/
structure Inv (base : List OwnershipRecord) (s : Sys) : Prop where
  base : base <+: s.log
  linked : Linked Next s.log
  known : ∀ x ∈ s.log, x.incarnation < s.nextIncarnation
  puts : ∀ put ∈ s.puts, PutOk s put
  clients : ∀ c x, s.clients.get c = some x → ClientOk s x
  attempts : ∀ c x i, s.clients.get c = some x → x.attempt = some i → i < s.nextIncarnation
  distinct : ∀ c c' x x' i, s.clients.get c = some x → s.clients.get c' = some x' → x.attempt = some i →
    x'.attempt = some i → c = c'

/-! ## Frames -/

variable {base : List OwnershipRecord} {s t : Sys}

section

variable {x y : Client} {c v i j : Nat} {d r r' : OwnershipRecord} {l : HandoffLease} {kind : Kind}
  {record : Option OwnershipRecord} {marker : Option LeaderMarker}

theorem PutOk.same {put : Put} (h : PutOk s put) (hlog : t.log = s.log)
    (hnext : s.nextIncarnation ≤ t.nextIncarnation) : PutOk t put := by
  refine ⟨Nat.lt_of_lt_of_le h.known hnext, ?_, ?_⟩
  · rw [hlog]; exact h.follows
  · rw [hlog]; exact h.result

/-- A client's conditions survive when the log and the list of writes only grow. -/
theorem ClientOk.grow (h : ClientOk s x) (hlog : ∀ (v : Nat) r, s.log[v]? = some r → t.log[v]? = some r)
    (hputs : ∀ (p : Nat) put, s.puts[p]? = some put → ∃ put', t.puts[p]? = some put' ∧ put'.desired = put.desired) :
    ClientOk t x := by
  have hput : ∀ {p : Nat} {d : OwnershipRecord}, (∃ put, s.puts[p]? = some put ∧ put.desired = d) →
      ∃ put, t.puts[p]? = some put ∧ put.desired = d := by
    rintro p d ⟨put, hp, rfl⟩
    exact hputs p put hp
  cases x with
  | observing nodeId observed => exact hlog _ _ h
  | ready nodeId cur => exact fun r v hc => hlog _ _ (h r v hc)
  | claiming p d => exact ⟨hput h.1, h.2⟩
  | claimFailed d => exact h
  | lease l =>
    refine ⟨⟨hlog _ _ h.standing.1, h.standing.2⟩, ?_⟩
    have ht := h.task
    unfold TaskOk at ht ⊢
    split at ht
    · trivial
    · trivial
    · exact ⟨hput ht.1, ht.2⟩
    · exact ht
  | active d => trivial
  | gone => trivial

section

variable (h : Inv base s)
include h

/-- One client changes; nobody else stands for its attempt. -/
theorem Inv.setClient (hx : ClientOk s x)
    (hatt : ∀ i, x.attempt = some i → i < s.nextIncarnation ∧ ∀ c' y, s.clients.get c' = some y →
      y.attempt = some i → c' = c) : Inv base (s.setClient c x) := by
  have hsame : ∀ {y : Client}, ClientOk s y → ClientOk (s.setClient c x) y :=
    fun hy => hy.grow (fun _ _ h => h) fun _ put hp => ⟨put, hp, rfl⟩
  refine ⟨h.base, h.linked, h.known, fun put hp => (h.puts put hp).same rfl le_rfl, ?_, ?_, ?_⟩
  · intro c' y hy
    rcases Table.cases_put hy with ⟨_, rfl⟩ | ⟨_, hy⟩
    · exact hsame hx
    · exact hsame (h.clients c' y hy)
  · intro c' y i hy hi
    rcases Table.cases_put hy with ⟨_, rfl⟩ | ⟨_, hy⟩
    · exact (hatt i hi).1
    · exact h.attempts c' y i hy hi
  intro c₁ c₂ y₁ y₂ i hy₁ hy₂ hi₁ hi₂
  rcases Table.cases_put hy₁ with ⟨rfl, rfl⟩ | ⟨_, hold₁⟩
  · rcases Table.cases_put hy₂ with ⟨rfl, _⟩ | ⟨_, hold₂⟩
    · rfl
    · exact ((hatt i hi₁).2 c₂ y₂ hold₂ hi₂).symm
  · rcases Table.cases_put hy₂ with ⟨rfl, rfl⟩ | ⟨_, hold₂⟩
    · exact (hatt i hi₂).2 c₁ y₁ hold₁ hi₁
    · exact h.distinct c₁ c₂ y₁ y₂ i hold₁ hold₂ hi₁ hi₂

theorem Inv.moved (hc : s.clients.get c = some y) (hx : ClientOk s x)
    (hatt : y.attempt = x.attempt) : Inv base (s.setClient c x) := by
  refine h.setClient hx fun i hi => ?_
  have hy : y.attempt = some i := hatt.trans hi
  exact ⟨h.attempts c y i hc hy, fun c' z hz hzi => h.distinct c' c z y i hz hc hzi hy⟩

theorem Inv.idle (hx : ClientOk s x) (hatt : x.attempt = none) : Inv base (s.setClient c x) := by
  refine h.setClient hx fun i hi => ?_
  rw [hatt] at hi
  cases hi

theorem Inv.gone (c : Nat) : Inv base (s.setClient c .gone) := h.idle trivial rfl

theorem Inv.draw : Inv base { s with nextIncarnation := s.nextIncarnation + 1 } := by
  refine ⟨h.base, h.linked, fun x hx => Nat.lt_succ_of_lt (h.known x hx),
    fun put hp => (h.puts put hp).same rfl (Nat.le_succ _), ?_,
    fun c x i hx hi => Nat.lt_succ_of_lt (h.attempts c x i hx hi), h.distinct⟩
  intro c x hx
  exact (h.clients c x hx).grow (fun _ _ h => h) fun _ put hp => ⟨put, hp, rfl⟩

theorem Inv.send {mode : PutMode} (hput : PutOk s ⟨d, mode, none⟩) : Inv base (s.send d mode) := by
  refine ⟨h.base, h.linked, h.known, ?_, ?_, h.attempts, h.distinct⟩
  · intro put hp
    rcases mem_append.1 hp with hp | hp
    · exact (h.puts put hp).same rfl le_rfl
    · rw [mem_singleton.1 hp]; exact hput.same rfl le_rfl
  · intro c x hx
    refine (h.clients c x hx).grow (fun _ _ h => h) fun p put hp => ⟨put, ?_, rfl⟩
    exact getElem?_append_of_some _ hp

end

theorem send_get (d : OwnershipRecord) (mode : PutMode) :
    (s.send d mode).puts[s.puts.length]? = some ⟨d, mode, none⟩ := by
  show (s.puts ++ [_])[s.puts.length]? = _
  rw [List.getElem?_append_right le_rfl, Nat.sub_self]
  rfl

/-- The store performs a write that builds on its current value. -/
theorem Inv.execute {p : Nat} (h : Inv base s) (hs : s.execute p = some t) : Inv base t := by
  obtain ⟨put, hp, rfl⟩ := map_eq_some_iff.1 hs
  split
  · rename_i hacc
    have hok := h.puts put (mem_of_getElem? hp)
    have hgrow : ∀ v r, s.log[v]? = some r → (s.log ++ [put.desired])[v]? = some r :=
      fun v r hv => getElem?_append_of_some _ hv
    have hlast : (s.log ++ [put.desired])[s.log.length]? = some put.desired := by
      rw [List.getElem?_append_right le_rfl, Nat.sub_self]
      rfl
    refine ⟨h.base.trans (prefix_append _ _), ?_, ?_, ?_, ?_, h.attempts, h.distinct⟩
    · refine h.linked.snoc fun n r hlen hr => ?_
      cases hmode : put.mode with
      | create =>
        rw [hmode] at hacc
        have hnil : s.log = [] := by simpa [accepts] using hacc
        rw [hnil] at hlen
        cases hlen
      | update v =>
        rw [hmode] at hacc
        have hv : s.log.length = v + 1 := by simpa [accepts] using hacc
        obtain ⟨r', hr', hfollows, hatt⟩ := hok.follows v hmode
        obtain rfl : n = v := by omega
        rw [hr] at hr'
        cases hr'
        refine ⟨hfollows, hatt.imp_right fun hnew x hx heq => ?_⟩
        obtain ⟨j, hj⟩ := mem_iff_getElem?.1 hx
        have hjv := hnew j x hj heq
        have hjl := (List.getElem?_eq_some_iff.1 hj).1
        omega
    · intro x hx
      rcases mem_append.1 hx with hx | hx
      · exact h.known x hx
      · rw [mem_singleton.1 hx]; exact hok.known
    · have hput : ∀ q, PutOk s q →
          PutOk { s with log := s.log ++ [put.desired], puts := s.puts.set p { put with result := some s.log.length } }
          q := by
        intro q hq
        refine ⟨hq.known, fun v hv => ?_, fun v hv => hgrow v _ (hq.result v hv)⟩
        obtain ⟨r, hr, hfollows, hatt⟩ := hq.follows v hv
        refine ⟨r, hgrow v r hr, hfollows, hatt.imp_right fun hnew j x hx heq => ?_⟩
        rcases getElem?_snoc hx with hx | ⟨rfl, _⟩
        · exact hnew j x hx heq
        · exact (List.getElem?_eq_some_iff.1 hr).1
      intro q hq
      rcases mem_or_eq_of_mem_set hq with hq | rfl
      · exact hput q (h.puts q hq)
      have hbase := hput put hok
      refine ⟨hbase.known, hbase.follows, fun v hv => ?_⟩
      cases hv
      exact hlast
    · intro c x hx
      exact (h.clients c x hx).grow hgrow fun q put' hq => Slots.exists_set rfl hp id ⟨put', hq, rfl⟩
  · exact h

/-! ## Claims -/

theorem readSnapshot_eq (h : s.readSnapshot = some (some (r, v))) :
    s.log[v]? = some r ∧ s.log.length = v + 1 := by
  unfold Sys.readSnapshot at h
  split at h
  · cases h
  rename_i snapshot hcur
  split at h
  · cases h; exact current_eq hcur
  · cases h

theorem Inv.claim {nodeId : String} {force recoveryOnly : Bool} (h : Inv base s)
    (hs : s.claim c nodeId force recoveryOnly = some t) : Inv base t := by
  unfold Sys.claim at hs
  split at hs
  · cases hs
  obtain ⟨cur, hcur, rfl⟩ := map_eq_some_iff.1 hs
  dsimp only
  split
  · exact h.gone c
  cases cur with
  | none => exact h.idle nofun rfl
  | some observed =>
    have hlog := (readSnapshot_eq hcur).1
    dsimp only
    split
    · exact h.idle hlog rfl
    refine h.idle (fun r v hrv => ?_) rfl
    cases hrv
    exact hlog

theorem Inv.recheck (h : Inv base s) (hs : s.recheck c = some t) : Inv base t := by
  unfold Sys.recheck at hs
  split at hs
  · rename_i nodeId observed hc
    split at hs
    · split at hs
      · cases hs
        refine h.idle (fun r v hrv => ?_) rfl
        cases hrv
        exact h.clients c _ hc
      · cases hs; exact h.gone c
    · cases hs; exact h.gone c
  · cases hs

/-- A claim sends its first write under an incarnation that nobody has used. -/
theorem Inv.sendClaim (h : Inv base s) (hs : s.sendClaim c = some t) : Inv base t := by
  unfold Sys.sendClaim at hs
  split at hs
  · rename_i nodeId cur hc
    have hok := h.clients c _ hc
    split at hs
    · cases hs; exact h.gone c
    rename_i d hd
    obtain ⟨hinc, hclaiming, hfollows⟩ := claimRecord_spec hd
    cases hs
    have hnew : ∀ x ∈ s.log, x.incarnation ≠ d.incarnation := fun x hx => by
      rw [hinc]
      exact Nat.ne_of_lt (h.known x hx)
    have hput : PutOk { s with nextIncarnation := s.nextIncarnation + 1 } ⟨d, Sys.claimMode cur, none⟩ := by
      refine ⟨?_, fun v hv => ?_, nofun⟩
      · rw [hinc]; exact Nat.lt_succ_self _
      cases cur with
      | none => cases hv
      | some snapshot =>
        cases hv
        refine ⟨_, hok _ _ rfl, hfollows _ _ rfl, .inr fun j x hx heq => ?_⟩
        exact absurd heq (hnew x (mem_of_getElem? hx))
    have hclient : ClientOk (Sys.send { s with nextIncarnation := s.nextIncarnation + 1 } d (Sys.claimMode cur))
        (.claiming s.puts.length d) := ⟨⟨_, send_get d _, rfl⟩, hclaiming⟩
    refine (h.draw.send hput).setClient hclient fun i hi => ?_
    obtain rfl : d.incarnation = i := some.inj hi
    refine ⟨hput.known, fun c' y hy hatt => ?_⟩
    have hlt := h.attempts c' y _ hy hatt
    rw [hinc] at hlt
    exact absurd hlt (Nat.lt_irrefl _)
  · cases hs

theorem Inv.startLease (h : Inv base s) (hc : s.clients.get c = some y) (hy : y.attempt = some d.incarnation)
    (hd : ∃ h, d.state = .claiming h) (hlog : s.log[v]? = some d) : Inv base (s.startLease c d v) :=
  h.moved hc ⟨⟨hlog, rfl, hd⟩, trivial⟩ hy

/-! ## Leases -/

theorem Inv.between (h : Inv base s) (hc : s.clients.get c = some y)
    (hy : y.attempt = some l.state.record.incarnation) (hl : Standing s l) (htask : TaskOk s l) :
    Inv base (s.setClient c (.lease l)) :=
  h.moved hc ⟨hl, htask⟩ hy

theorem taskOk_free (h : l.task = .free) : TaskOk s l := by
  unfold TaskOk
  rw [h]
  trivial

section

variable (h : Inv base s)
include h

theorem Inv.applied (hc : s.clients.get c = some (.lease l)) (hlog : s.log[v]? = some d) (hleads : Leads l d kind)
    (hinc : d.incarnation = l.state.record.incarnation) (hgen : d.generation = l.generation) :
    Inv base (s.applied c l kind d v) := by
  have hatt : (Client.lease l).attempt = some d.incarnation := congrArg some hinc.symm
  cases kind with
  | renew | beginOpen => exact h.between hc hatt ⟨hlog, hgen, hleads⟩ trivial
  | activate e => exact h.moved hc trivial hatt

theorem Inv.again (hc : s.clients.get c = some y)
    (hy : y.attempt = some l.state.record.incarnation) (hl : Standing s l) : Inv base (s.again c l kind) := by
  cases kind <;> exact h.between hc hy hl trivial

/-- The condition failed: the record is a later revision of the attempt, or the lease is over. -/
theorem Inv.changed {actual : Option RecordSnapshot} (hc : s.clients.get c = some (.lease l))
    (hread : s.readSnapshot = some actual) : Inv base (s.changed c l kind actual) := by
  have hl : LeaseOk s l := h.clients c _ hc
  unfold Sys.changed
  split
  · rename_i snapshot hsnap
    obtain ⟨rfl, hsame⟩ := filter_eq_some_iff.1 hsnap
    obtain ⟨hinc, hgen, hphase⟩ := sameAttempt_spec hsame
    exact h.again hc (congrArg some hinc.symm) ⟨(readSnapshot_eq hread).1, hgen.trans hl.standing.2.1,
      hphase _ hl.standing.2.2⟩
  · cases kind with
    | renew => exact h.between hc rfl hl.standing trivial
    | beginOpen | activate e => exact h.gone c

/-- The lease sends its next write, on top of its own record. -/
theorem Inv.transition (hc : s.clients.get c = some y) (hy : y.attempt = some l.state.record.incarnation)
    (hl : Standing s l) (hfollows : Follows l.state.record d) (hinc : d.incarnation = l.state.record.incarnation)
    (hd : d.generation = l.generation) (hleads : Leads l d kind) : Inv base (s.transition c l kind d) := by
  unfold Sys.transition
  split
  · have hput : PutOk s ⟨d, .update l.state.version, none⟩ := by
      refine ⟨?_, fun v hv => ?_, nofun⟩
      · rw [hinc]; exact h.known _ (mem_of_getElem? hl.1)
      · cases hv; exact ⟨_, hl.1, hfollows, .inl hinc⟩
    exact (h.send hput).between hc hy hl ⟨⟨_, send_get d _, rfl⟩, hleads, hinc, hd⟩
  · exact h.again hc hy hl

theorem Inv.ok (hs : s.ok c = some t) : Inv base t := by
  unfold Sys.ok at hs
  split at hs
  · rename_i p d hc
    obtain ⟨put, hp, hs⟩ := bind_eq_some_iff.1 hs
    obtain ⟨v, hv, hs⟩ := bind_eq_some_iff.1 hs
    cases hs
    obtain ⟨⟨put', hp', rfl⟩, hclaiming⟩ := h.clients c _ hc
    rw [hp] at hp'
    cases hp'
    exact h.startLease hc rfl hclaiming ((h.puts put (mem_of_getElem? hp)).result v hv)
  · rename_i l hc
    have hl : LeaseOk s l := h.clients c _ hc
    split at hs
    · rename_i kind p d htk
      obtain ⟨put, hp, hs⟩ := bind_eq_some_iff.1 hs
      obtain ⟨v, hv, hs⟩ := bind_eq_some_iff.1 hs
      cases hs
      obtain ⟨⟨put', hp', rfl⟩, hleads, hinc, hgen⟩ := hl.task_of htk
      rw [hp] at hp'
      cases hp'
      exact h.applied hc ((h.puts put (mem_of_getElem? hp)).result v hv) hleads hinc hgen
    · cases hs
  · cases hs

theorem Inv.err {definite : Bool} (hs : s.err c definite = some t) : Inv base t := by
  unfold Sys.err at hs
  split at hs
  · rename_i p d hc; cases hs; exact h.moved hc (h.clients c _ hc).2 rfl
  · rename_i l hc
    have hl : LeaseOk s l := h.clients c _ hc
    split at hs
    · rename_i kind p d htk; cases hs; exact h.between hc rfl hl.standing (hl.task_of htk).2
    · cases hs
  · cases hs

/-- After an error the client takes its own record for success, and a later revision of its attempt for its own. -/
theorem Inv.reread {readable : Bool} (hs : s.reread c readable = some t) : Inv base t := by
  unfold Sys.reread at hs
  split at hs
  · rename_i d hc
    split at hs
    · rename_i snapshot hread
      split at hs
      · rename_i hcond
        cases hs
        simp only [Bool.and_eq_true, decide_eq_true_eq] at hcond
        obtain ⟨-, rfl⟩ := hcond
        exact h.startLease hc rfl (h.clients c _ hc) (readSnapshot_eq hread).1
      · cases hs; exact h.gone c
    · cases hs; exact h.gone c
  · rename_i l hc
    have hl : LeaseOk s l := h.clients c _ hc
    split at hs
    · rename_i kind d definite htk
      obtain ⟨hleads, hinc, hgen⟩ := hl.task_of htk
      have hagain : Inv base (s.again c l kind) := h.again hc rfl hl.standing
      split at hs
      · cases hs; exact hagain
      rename_i actual hread
      split at hs
      · split at hs
        · rename_i snapshot hsnap
          cases hs
          obtain ⟨rfl, hd⟩ := filter_eq_some_iff.1 hsnap
          rw [decide_eq_true_eq] at hd
          subst hd
          exact h.applied hc (readSnapshot_eq hread).1 hleads hinc hgen
        · split at hs
          · cases hs; exact h.changed hc hread
          · cases hs; exact hagain
      · cases hs; exact hagain
    · cases hs
  · cases hs

theorem Inv.renew (hs : s.renew c = some t) : Inv base t := by
  unfold Sys.renew at hs
  split at hs
  · rename_i l hc
    have hl : LeaseOk s l := h.clients c _ hc
    split at hs
    · rename_i htk
      split at hs
      · cases hs
      split at hs
      · cases hs; exact h.between hc rfl hl.standing (taskOk_free htk)
      split at hs
      · cases hs; exact h.between hc rfl hl.standing (taskOk_free htk)
      rename_i d hd
      cases hs
      obtain ⟨hfollows, hinc, hgen, hphase⟩ := renewedHandoff_spec hd
      exact h.transition hc rfl hl.standing hfollows hinc (hgen.trans hl.standing.2.1) (hphase _ hl.standing.2.2)
    · cases hs
  · cases hs

/-- One round of `begin_open_after`: the same attempt under the same generation, now opening. -/
theorem Inv.beginOpen (hs : s.beginOpen c = some t) : Inv base t := by
  unfold Sys.beginOpen at hs
  split at hs
  · rename_i l hc
    have hl : LeaseOk s l := h.clients c _ hc
    split at hs
    · cases hs
    have hround : ∀ g hd, l.state.record.renewedHandoff = some ⟨g, .claiming hd⟩ →
        Inv base (s.transition c l .beginOpen ⟨l.generation, .opening hd⟩) := by
      intro g hd hrenewed
      obtain ⟨hfollows, hinc, -, -⟩ := renewedHandoff_spec hrenewed
      have hopening : Follows l.state.record ⟨l.generation, .opening hd⟩ :=
        ⟨Nat.le_of_eq hl.standing.2.1, hfollows.floor, nofun⟩
      exact h.transition hc rfl hl.standing hopening hinc rfl ⟨hd, rfl⟩
    repeat' split at hs
    all_goals cases hs
    all_goals first | exact h.gone c | exact hround _ _ ‹_›
  · cases hs

/-- One round of `activate`: the writer epoch passes the attempt's floor. -/
theorem Inv.activate {e : Nat} (hs : s.activate c e = some t) : Inv base t := by
  unfold Sys.activate at hs
  split at hs
  · rename_i l hc
    have hl : LeaseOk s l := h.clients c _ hc
    split at hs
    · cases hs
    have hround : ∀ hd, l.state.record.state = .opening hd → hd.writerEpochFloor < e →
        Inv base (s.transition c { l with renewing := false } (.activate e) ⟨l.generation, .active hd.owner e⟩) := by
      intro hd hstate hfloor
      have hfl : l.state.record.floor = hd.writerEpochFloor := by
        unfold OwnershipRecord.floor
        rw [hstate]
      have howner : l.state.record.owner = hd.owner := by
        unfold OwnershipRecord.owner
        rw [hstate]
      have hactive : Follows l.state.record ⟨l.generation, .active hd.owner e⟩ := by
        refine ⟨Nat.le_of_eq hl.standing.2.1, ?_, fun _ => ?_⟩
        · rw [hfl]; exact Nat.le_of_lt hfloor
        · rw [hfl]; exact hfloor
      exact h.transition hc rfl hl.standing hactive (congrArg Owner.incarnation howner.symm) rfl trivial
    repeat' split at hs
    all_goals cases hs
    all_goals first | exact h.gone c | exact hround _ ‹_› ‹_›
  · cases hs

theorem Inv.validateOpening (hs : s.validateOpening c = some t) : Inv base t := by
  unfold Sys.validateOpening at hs
  split at hs
  · rename_i l hc
    have hl : LeaseOk s l := h.clients c _ hc
    split at hs
    · rename_i htk
      split at hs
      · cases hs
      split at hs
      · cases hs; exact h
      split at hs
      · cases hs; exact h
      rename_i actual hread
      split at hs
      · rename_i snapshot hsnap
        cases hs
        obtain ⟨rfl, hsame⟩ := filter_eq_some_iff.1 hsnap
        obtain ⟨hinc, hgen, hphase⟩ := sameAttempt_spec hsame
        exact h.between hc (congrArg some hinc.symm) ⟨(readSnapshot_eq hread).1, hgen.trans hl.standing.2.1,
          hphase _ hl.standing.2.2⟩ (taskOk_free htk)
      · cases hs; exact h.between hc rfl hl.standing (taskOk_free htk)
    · cases hs
  · cases hs

/-! ## Runs -/

theorem step_inv {a : Action} (hs : s.step a = some t) : Inv base t := by
  cases a with
  | claim c nodeId force recoveryOnly => exact h.claim hs
  | recheck c => exact h.recheck hs
  | sendClaim c => exact h.sendClaim hs
  | execute p => exact h.execute hs
  | ok c => exact h.ok hs
  | err c definite => exact h.err hs
  | reread c readable => exact h.reread hs
  | renew c => exact h.renew hs
  | beginOpen c => exact h.beginOpen hs
  | activate c e => exact h.activate hs
  | validateOpening c => exact h.validateOpening hs
  | drop c => obtain ⟨_, _, rfl⟩ := map_eq_some_iff.1 hs; exact h.gone c

end

theorem boot_inv (record : Option OwnershipRecord) (marker : Option LeaderMarker) :
    Inv [] (Sys.boot record marker) := by
  have hnone : ∀ {c : Nat} {x : Client} {P : Prop}, (Sys.boot record marker).clients.get c = some x → P :=
    fun h => by cases h
  refine ⟨ nil_prefix, ?_, ?_, nofun, fun _ _ h => hnone h, fun _ _ _ h => hnone h, fun _ _ _ _ _ h => hnone h⟩
  · cases record with
    | none => exact linked_nil
    | some r => exact linked_singleton r
  intro x hx
  cases record with
  | none => cases hx
  | some r => rw [mem_singleton.1 hx]; exact Nat.lt_succ_self _

theorem run_inv (h : Inv base s) (hr : Reach Sys.step anyStep s t) : Inv base t :=
  hr.invariant (I := Inv base) h fun _ _ _ hi _ hs => step_inv hi hs

theorem reach_inv
    (h : Reach Sys.step anyStep (Sys.boot record marker) s) : Inv s.log s :=
  { run_inv (boot_inv record marker) h with base := prefix_rfl }

theorem Inv.generation_le (h : Inv base s) (hij : i ≤ j) (hr : s.log[i]? = some r)
    (hr' : s.log[j]? = some r') : r.generation ≤ r'.generation :=
  h.linked.le (fun _ _ _ hn => hn.follows.generation) hij hr hr'

/-- An active record passes the writer epochs of all before it. -/
theorem Inv.epoch_lt (h : Inv base s) (hij : i < j) (hr : s.log[i]? = some r)
    (hr' : s.log[j]? = some r') (hactive : r'.isActive = true) : r.floor < r'.floor := by
  obtain ⟨k, rfl⟩ : ∃ k, j = k + 1 := ⟨j - 1, by omega⟩
  obtain ⟨hlt, _⟩ := List.getElem?_eq_some_iff.1 hr'
  have hk : s.log[k]? = some s.log[k] := List.getElem?_eq_getElem (by omega)
  have hle := h.linked.le (f := OwnershipRecord.floor) (fun _ _ _ hn => hn.follows.floor) (Nat.le_of_lt_succ hij) hr hk
  exact Nat.lt_of_le_of_lt hle ((h.linked k _ r' hk hr').follows.active hactive)

theorem validateActive_eq {o : OwnershipRecord} (h : s.validateActive o = true) :
    ∃ v, s.readSnapshot = some (some (o, v)) := by
  unfold Sys.validateActive at h
  split at h
  · rename_i snapshot hread
    rw [decide_eq_true_eq] at h
    subst h
    exact ⟨_, hread⟩
  · cases h

/-- Who has been replaced does not write again. -/
theorem Inv.replaced (h : Inv base s) (hij : i < j) (hr : base[i]? = some r)
    (hr' : base[j]? = some r') (hne : r'.incarnation ≠ r.incarnation) {k : Nat} {x : OwnershipRecord} (hjk : j < k)
    (hx : s.log[k]? = some x) : x.incarnation ≠ r.incarnation := by
  obtain ⟨l, hl⟩ := h.base
  have hgrow : ∀ {n : Nat} {y : OwnershipRecord}, base[n]? = some y → s.log[n]? = some y := fun hy => by
    rw [← hl]
    exact getElem?_append_of_some l hy
  intro heq
  have hattempt : ∀ p r d, Next p r d → d.incarnation = r.incarnation ∨ ∀ x ∈ p, x.incarnation ≠ d.incarnation :=
    fun _ _ _ hn => hn.attempt
  exact hne ((h.linked.contiguous hattempt hij hjk (hgrow hr) (hgrow hr') hx heq.symm).trans heq)

/-- **Single ownership.** However the nodes' claims, renewals and activations interleave with the store's writes and
lost responses: the generation never falls, each active record has a greater writer epoch than those before it, at most
one `ActiveOwnership` validates, and a token whose record another attempt has replaced never changes the record
again. -/
theorem single_ownership {s : Sys} (h : Reach Sys.step anyStep (Sys.boot record marker) s) :
    (∀ (i j : Nat) r r', i ≤ j → s.log[i]? = some r → s.log[j]? = some r' → r.generation ≤ r'.generation) ∧
    (∀ (i j : Nat) g g' o o' e e', i < j → s.log[i]? = some ⟨g, .active o e⟩ → s.log[j]? = some ⟨g', .active o' e'⟩ →
      e < e') ∧
    (∀ c c' o o', s.clients.get c = some (.active o) → s.clients.get c' = some (.active o') →
      s.validateActive o = true → s.validateActive o' = true → c = c' ∧ o = o') ∧
    (∀ c l (j : Nat) r, s.clients.get c = some (.lease l) → l.state.version < j → s.log[j]? = some r →
      r.owner.incarnation ≠ l.state.record.owner.incarnation → ∀ t, Reach Sys.step anyStep s t → ∀ (k : Nat) r', j < k →
      t.log[k]? = some r' → r'.owner.incarnation ≠ l.state.record.owner.incarnation) := by
  have hinv := reach_inv h
  refine ⟨fun i j r r' => hinv.generation_le, fun i j g g' o o' e e' hij hr hr' => hinv.epoch_lt hij hr hr' rfl, ?_, ?_⟩
  · intro c c' o o' hc hc' ho ho'
    obtain ⟨v, hv⟩ := validateActive_eq ho
    obtain ⟨v', hv'⟩ := validateActive_eq ho'
    rw [hv] at hv'
    cases hv'
    exact ⟨hinv.distinct c c' _ _ o.incarnation hc hc' rfl rfl, rfl⟩
  · intro c l j r hc hlt hj hne t ht k r' hjk hk
    have hl : LeaseOk s l := hinv.clients c _ hc
    exact (run_inv hinv ht).replaced hlt hl.standing.1 hj hne hjk hk

end

/-- Node `a` claims and has sent its opening write when node `b` claims by force. -/
def takeover : List Action :=
  [.claim 0 "a" false false, .sendClaim 0, .execute 0, .ok 0, .beginOpen 0, .claim 1 "b" true false,
    .sendClaim 1, .execute 2]

/-- The write of `a` that is still on its way never takes effect. -/
theorem single_ownership_takeover :
    ∃ s, run (guarded Sys.step anyStep) (Sys.boot none none) takeover = some s ∧
      s.log.map (fun r => r.owner.incarnation) = [1, 2] ∧ s.puts.map (fun put => put.result) = [some 0, none, some 1] ∧
      ∀ t, Reach Sys.step anyStep s t → ∀ (k : Nat) r', 1 < k → t.log[k]? = some r' → r'.owner.incarnation ≠ 1 := by
  obtain ⟨s, hs, hlog, hputs, l, r, hl, hversion, hr, hold, hnew⟩ : ∃ s, run (guarded Sys.step anyStep)
    (Sys.boot none none) takeover = some s ∧ s.log.map (fun r => r.owner.incarnation) = [1, 2] ∧
    s.puts.map (fun put => put.result) = [some 0, none, some 1] ∧ ∃ l r, s.clients.get 0 = some (.lease l) ∧
    l.state.version = 0 ∧ s.log[1]? = some r ∧ l.state.record.owner.incarnation = 1 ∧ r.owner.incarnation = 2 :=
    ⟨_, rfl, rfl, rfl, _, _, rfl, rfl, rfl, rfl, rfl⟩
  refine ⟨s, hs, hlog, hputs, fun t ht k r' hk hr' => ?_⟩
  rw [← hold]
  have hlt : l.state.version < 1 := by omega
  have hne : r.owner.incarnation ≠ l.state.record.owner.incarnation := by omega
  exact (single_ownership (reach_of_run .init hs)).2.2.2 0 l 1 r hl hlt hr hne t ht k r' hk hr'

end ZeroFS.Ownership
