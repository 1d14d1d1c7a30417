import ZeroFS.Commit.Shards

/-!
# Usage statistics

The byte counters are right in every run whose totals stay below `2^63`. The inode counters follow the changes instead:
a transaction that was submitted against a queued create stores an inode that nobody counts when the create's batch
fails.
-/

namespace ZeroFS.Commit

open Machine Updates List Table Option

/-! ## What is on its way -/

def Phase.batch : Phase → List Request
  | .merged batch | .derived batch _ => batch
  | .staged w _ => w.requests
  | _ => []

def Sys.pending (s : Sys) : List Request := s.phase.batch ++ s.queue

def ChangeOk (kinds : InodeId → Option Bool) : Change → Prop
  | .create id inode => id ≠ 0 ∧ kinds id = some inode.isFile
  | .save id inode => kinds id = some inode.isFile
  | .delete id => id ≠ 0

section

variable {kinds : InodeId → Option Bool} {c : Change}

theorem ChangeOk.mono {kinds' : InodeId → Option Bool} (h : ∀ id v, kinds id = some v → kinds' id = some v)
    (hc : ChangeOk kinds c) : ChangeOk kinds' c := by
  cases c with
  | create id inode => exact ⟨hc.1, h _ _ hc.2⟩
  | save id inode => exact h _ _ hc
  | delete id => exact hc

theorem ChangeOk.image (hc : ChangeOk kinds c) {i : Inode} (hi : c.image = some i) :
    kinds c.id = some i.isFile := by
  cases c with
  | create id inode => cases hi; exact hc.2
  | save id inode => cases hi; exact hc
  | delete id => cases hi

end

def createsOf (cs : List Change) : List InodeId := cs.filterMap Change.created

/-- Every image, stored or on its way, is of the kind its inode was created with. -/
structure Kinds (s : Sys) : Prop where
  owned_nodup : s.owned.Nodup
  owned_new : ∀ id ∈ s.owned, s.kinds id = none ∧ id ≠ 0
  changes : ∀ r ∈ s.pending, ∀ c ∈ r.changes, ChangeOk s.kinds c
  rows : ∀ id i, s.db.inodes.get id = some i → s.kinds id = some i.isFile

theorem boot_kinds (base : Db) (ws : List Write) : Kinds (Sys.boot base ws) where
  owned_nodup := nodup_nil
  owned_new := nofun
  changes := nofun
  rows := fun id i h => by
    show ((base.replay ws).inodes.get id).map Inode.isFile = _
    rw [show (base.replay ws).inodes.get id = some i from h]
    rfl

/-- What admitting the changes of a transaction leaves. -/
structure Admitted (s t : Sys) (cs : List Change) : Prop where
  owned_nodup : t.owned.Nodup
  owned_sub : ∀ id ∈ t.owned, id ∈ s.owned
  owned_new : ∀ id ∈ t.owned, t.kinds id = none
  kinds : ∀ id v, s.kinds id = some v → t.kinds id = some v
  changes : ∀ c ∈ cs, ChangeOk t.kinds c
  creates : (createsOf cs).Nodup ∧ ∀ id ∈ createsOf cs, id ∈ s.owned

theorem admitAll_admitted : ∀ {cs : List Change} {s t : Sys}, s.admitAll cs = some t → s.owned.Nodup →
    (∀ id ∈ s.owned, s.kinds id = none ∧ id ≠ 0) → Admitted s t cs := by
  intro cs
  induction cs with
  | nil =>
    intro s t h hn ho
    cases h
    exact ⟨hn, fun _ h => h, fun id h => (ho id h).1, fun _ _ h => h, nofun, nodup_nil, nofun⟩
  | cons c cs ih =>
    intro s t h hn ho
    unfold Sys.admitAll at h
    split at h
    · rename_i hc
      -- Only a create notes a kind, at an id that is the caller's own.
      have hown : ∀ {id}, c.created = some id → id ∈ s.owned := by
        intro id hcr
        cases c <;> cases hcr
        simpa [Sys.admits] using hc
      have hkeep : ∀ id v, s.kinds id = some v → Sys.noteKind s.kinds c id = some v := by
        intro id v hv
        rw [noteKind_of_ne fun hcr => by cases (ho id (hown hcr)).1.symm.trans hv]
        exact hv
      have ho' : ∀ id ∈ s.owned.erase c.id, Sys.noteKind s.kinds c id = none ∧ id ≠ 0 := by
        intro id hid
        obtain ⟨hne, hmem⟩ := hn.mem_erase_iff.1 hid
        rw [noteKind_of_ne fun hcr => hne (Change.created_eq hcr)]
        exact ho id hmem
      have hrest := ih h (hn.erase _) ho'
      have hok : ChangeOk (Sys.noteKind s.kinds c) c := by
        cases c with
        | create id' inode => exact ⟨(ho id' (hown rfl)).2, by simp [Sys.noteKind]⟩
        | save id' inode => simpa [Sys.admits, ChangeOk, Sys.noteKind] using hc
        | delete id' =>
          have hc' : id' ≠ 0 ∧ (s.kinds id').isSome = true := by simpa [Sys.admits] using hc
          exact hc'.1
      refine ⟨hrest.owned_nodup, fun id hid => mem_of_mem_erase (hrest.owned_sub id hid), hrest.owned_new,
        fun id v hv => hrest.kinds id v (hkeep id v hv), forall_mem_cons.2 ⟨hok.mono hrest.kinds, hrest.changes⟩, ?_⟩
      have hsub : ∀ id ∈ createsOf cs, id ∈ s.owned := fun id hid => mem_of_mem_erase (hrest.creates.2 id hid)
      unfold createsOf at hrest hsub ⊢
      cases hcr : c.created with
      | none => rw [filterMap_cons_none hcr]; exact ⟨hrest.creates.1, hsub⟩
      | some id =>
        rw [filterMap_cons_some hcr]
        refine ⟨nodup_cons.2 ⟨fun hmem => ?_, hrest.creates.1⟩, forall_mem_cons.2 ⟨hown hcr, hsub⟩⟩
        exact (hn.mem_erase_iff.1 (hrest.creates.2 id hmem)).1 (Change.created_eq hcr)
    · cases h

/-! ## What a step can do -/

/-- Nothing is given out, stored or published; a batch may be dropped. -/
structure Quiet (s t : Sys) : Prop where
  base : t.base = s.base
  applied : t.applied = s.applied
  db : t.db = s.db
  owned : t.owned = s.owned
  kinds : t.kinds = s.kinds
  pending : t.pending.Sublist s.pending

/-- The ways a step can go on. -/
inductive Went (s t : Sys) (a : Action) : Prop
  | quiet (h : Quiet s t)
  | allocated (h : t = { s with nextId := s.nextId + 1, owned := s.nextId :: s.owned })
  | submitted (r : Request) (u : Sys) (h : s.admitAll r.changes = some u) (ht : t = { u with queue := u.queue ++ [r] })
  | wrote (w : Write) (staged : Bool) (hp : s.phase = .staged w staged) (ha : ∃ stamped, a = .apply stamped)
      (h : t = { s with applied := s.applied ++ [w], db := s.db.write w, phase := .applied w staged })
  | crashed (n : Nat) (h : t = Sys.boot s.base (s.applied.take n))

section

variable {s t : Sys} {a : Action} {w : Write} {staged : Bool}

theorem pending_of_phase {p : Phase} (h : s.phase = p) : s.pending = p.batch ++ s.queue := by
  unfold Sys.pending
  rw [h]

theorem pending_submit (owned : List InodeId) (kinds : InodeId → Option Bool) (r : Request) :
    Sys.pending { s with owned := owned, kinds := kinds, queue := s.queue ++ [r] } = s.pending ++ [r] :=
  (append_assoc ..).symm

/-- The worker gives up its batch, or goes on with the same one. -/
theorem Quiet.of_phase (hbase : t.base = s.base) (happlied : t.applied = s.applied) (hdb : t.db = s.db)
    (howned : t.owned = s.owned) (hkinds : t.kinds = s.kinds) (hqueue : t.queue = s.queue)
    (hbatch : t.phase.batch = [] ∨ t.phase.batch = s.phase.batch) : Quiet s t := by
  refine ⟨hbase, happlied, hdb, howned, hkinds, ?_⟩
  unfold Sys.pending
  rw [hqueue]
  rcases hbatch with hb | hb
  · rw [hb]; exact sublist_append_right _ _
  · rw [hb]

theorem step_went (hs : s.step a = some t) : Went s t a := by
  cases step_stepped hs with
  | allocate => exact .allocated rfl
  | submit _ hu => exact .submitted _ _ hu rfl
  | @drain n hp =>
    refine .quiet ⟨rfl, rfl, rfl, rfl, rfl, ?_⟩
    rw [pending_of_phase hp, pending_of_phase rfl]
    show (s.queue.take n ++ s.queue.drop n).Sublist ([] ++ s.queue)
    rw [take_append_drop, nil_append]
  | abandon | fail | skip | publish | reply => exact .quiet (.of_phase rfl rfl rfl rfl rfl rfl (.inl rfl))
  | derive hp => exact .quiet (.of_phase rfl rfl rfl rfl rfl rfl (.inr (by rw [hp]; rfl)))
  | stage hp hs =>
    rw [Sys.stage, hp] at hs
    cases hs
    exact .quiet (.of_phase rfl rfl rfl rfl rfl rfl (.inr (by rw [hp]; rfl)))
  | @apply stamped w c hp => exact .wrote w c hp ⟨stamped, rfl⟩ rfl
  | persist => exact .quiet (.of_phase rfl rfl rfl rfl rfl rfl (.inr rfl))
  | crash => exact .crashed _ rfl

/-! ## Kinds -/

theorem image_kind (h : Kinds s) (hp : s.phase = .staged w staged) {id : InodeId} {i : Inode}
    (hi : (mergeUpdates w.requests).get id = some (some i)) : s.kinds id = some i.isFile := by
  rw [get_mergeUpdates] at hi
  obtain ⟨r, hr, hmem⟩ := mem_flatMap.1 (mem_of_newest hi)
  obtain ⟨c, hc, heq⟩ := mem_map.1 hmem
  have hpend : r ∈ s.pending := by
    rw [pending_of_phase hp]
    exact mem_append_left _ hr
  obtain ⟨rfl, himage⟩ := Prod.mk.inj heq
  exact (h.changes r hpend c hc).image himage

theorem images_sameKind (h : Kinds s) (hp : s.phase = .staged w staged) :
    ∀ p ∈ images w.requests, SameKind s.db.inodes p := by
  intro p hmem i i' hi hi'
  have himage := mem_images.1 hmem
  rw [hi] at himage
  have hk := image_kind h hp himage
  rw [h.rows p.1 i' hi'] at hk
  exact (some.inj hk).symm

theorem step_kinds (hwm : Watermark s) (h : Kinds s) (hs : s.step a = some t) : Kinds t := by
  rcases step_went hs with hq | rfl | ⟨r, u, hu, rfl⟩ | ⟨w, staged, hp, _, rfl⟩ | ⟨n, rfl⟩
  · refine ⟨hq.owned ▸ h.owned_nodup, ?_, fun r hr => ?_, ?_⟩
    · rw [hq.owned, hq.kinds]; exact h.owned_new
    · rw [hq.kinds]; exact h.changes r (hq.pending.subset hr)
    · rw [hq.db, hq.kinds]; exact h.rows
  · refine ⟨nodup_cons.2 ⟨fun hmem => ?_, h.owned_nodup⟩, forall_mem_cons.2 ⟨⟨?_, ?_⟩, h.owned_new⟩, h.changes, h.rows⟩
    · exact Nat.lt_irrefl _ (hwm.owned _ hmem)
    · by_contra hne; exact Nat.lt_irrefl _ (hwm.kinds _ (isSome_iff_ne_none.2 hne))
    · have hpos : 0 < s.db.nextInodeId := by
        rw [hwm.replayed]
        exact Nat.lt_of_lt_of_le hwm.history.pos hwm.history.whole.1
      exact Nat.ne_of_gt (Nat.lt_of_lt_of_le hpos (le_trans hwm.stored_le hwm.emitted_le))
  · have had := admitAll_admitted hu h.owned_nodup h.owned_new
    obtain ⟨owned, kinds, rfl⟩ := admitAll_eq hu
    refine ⟨had.owned_nodup, fun id hid => ⟨had.owned_new id hid, (h.owned_new id (had.owned_sub id hid)).2⟩,
      fun r' hr' => ?_, fun id i hi => had.kinds id _ (h.rows id i hi)⟩
    rw [pending_submit (s := s), mem_append, mem_singleton] at hr'
    rcases hr' with hr' | rfl
    · exact fun c hc => (h.changes r' hr' c hc).mono had.kinds
    · exact had.changes
  · have hmerged : w.updates = mergeUpdates w.requests := (hwm.phase_of hp).1
    refine ⟨h.owned_nodup, h.owned_new, fun r hr => h.changes r ?_, fun id i hi => ?_⟩
    · exact mem_append_right _ hr
    have hget : (s.db.write w).inodes.get id = some i := hi
    rw [get_write, hmerged] at hget
    cases hu : (mergeUpdates w.requests).get id with
    | none => rw [hu] at hget; exact h.rows id i hget
    | some v => rw [hu] at hget; cases hget; exact image_kind h hp hu
  · exact boot_kinds _ _

/-! ## Staged and published counters -/

end

/-- The counters in memory are the stored ones. -/
def Synced (s : Sys) : Prop := ∀ shard, s.stats.at shard = s.db.shards.at shard

def Staging (s : Sys) : Prop :=
  match s.phase with
  | .derived batch deltas => deltas = shardDeltas s.db.inodes batch ∧ Synced s
  | .staged w _ => StagedFor s.db s.stats w ∧ Synced s
  | .applied w _ => ∀ shard, (s.stats.putAll w.shards).at shard = s.db.shards.at shard
  | _ => Synced s

theorem putAll_congr {t t' : Shards} (h : ∀ shard, t.at shard = t'.at shard) (l : List (Nat × StatsShardData))
    (shard : Nat) : (t.putAll l).at shard = (t'.putAll l).at shard := by
  unfold Shards.putAll Shards.at
  rw [get_foldl_put, get_foldl_put]
  cases newest l shard with
  | none => exact h shard
  | some v => rfl

theorem Staging.same {s t : Sys} (h : Staging s) (hphase : t.phase = s.phase) (hdb : t.db = s.db)
    (hstats : t.stats = s.stats) : Staging t := by
  unfold Staging Synced at h ⊢
  rw [hphase, hdb, hstats]
  exact h

theorem Staging.of {s : Sys} (h : Staging s) {phase : Phase} (hp : s.phase = phase) :
    Staging { s with phase := phase } := by
  subst hp
  exact h

theorem step_staging {s t : Sys} {a : Action} (h : Staging s) (hs : s.step a = some t) : Staging t := by
  cases step_stepped hs with
  | allocate | submit | persist => exact h.same rfl rfl rfl
  | drain hp => exact h.of hp
  | abandon hp => have hsync := h.of hp; exact hsync
  | derive hp => exact ⟨rfl, h.of hp⟩
  | stage hp hs =>
    obtain ⟨hdeltas, hsync⟩ := h.of hp
    rw [Sys.stage, hp] at hs
    cases hs
    exact ⟨⟨rfl, by rw [hdeltas]⟩, hsync⟩
  | fail hp => exact (h.of hp).2
  | @apply _ w c hp => exact fun shard => putAll_congr (h.of hp).2 w.shards shard
  | @skip _ w c hp hno =>
    -- Nothing was staged, so there is nothing to publish.
    intro shard
    have hnil : w.shards = [] := by
      simp only [Write.anyOps, Bool.or_eq_true, not_or] at hno
      simpa using hno.1.2
    rw [hnil]
    exact (h.of hp).2 shard
  | publish hp => exact h.of hp
  | reply hp => exact h.of hp
  | crash => exact fun _ => rfl

/-! ## The byte counters -/

/-- The totals stay below `2^63` through the batch that is written. -/
def withinBounds (s : Sys) : Action → Bool
  | .apply _ =>
    match s.phase with
    | .staged w _ => within s.db.inodes (changesOf w.requests)
    | _ => true
  | _ => true

abbrev WithinBounds (s : Sys) (a : Action) : Prop := withinBounds s a = true

theorem withinBounds_apply {s : Sys} {w : Write} {staged stamped : Bool} (hp : s.phase = .staged w staged)
    (h : WithinBounds s (.apply stamped)) : within s.db.inodes (changesOf w.requests) = true := by
  unfold WithinBounds withinBounds at h
  rw [hp] at h
  exact h

/-- A fact about the store that holds for every prefix of the history. -/
def Throughout (s : Sys) (P : Db → Prop) : Prop := ∀ n, P (s.base.replay (s.applied.take n))

theorem Throughout.now {s : Sys} {P : Db → Prop} (h : Throughout s P) (hwm : Watermark s) : P s.db := by
  have := h s.applied.length
  rw [take_length, ← hwm.replayed] at this
  exact this

theorem Throughout.step {s t : Sys} {a : Action} {P : Db → Prop} (h : Throughout s P) (hwm : Watermark s)
    (hs : s.step a = some t)
    (hwrite : ∀ w staged, s.phase = .staged w staged → (∃ stamped, a = .apply stamped) → P s.db → P (s.db.write w)) :
    Throughout t P := by
  rcases step_went hs with hq | rfl | ⟨r, u, hu, rfl⟩ | ⟨w, staged, hp, ha, rfl⟩ | ⟨n, rfl⟩
  · unfold Throughout; rw [hq.base, hq.applied]; exact h
  · exact h
  · obtain ⟨owned, kinds, rfl⟩ := admitAll_eq hu; exact h
  · intro n
    by_cases hn : n ≤ s.applied.length
    · rw [take_append_of_le_length hn]; exact h n
    · rw [take_of_length_le (by simp; omega), replay_append, ← hwm.replayed]
      exact hwrite w staged hp ha (h.now hwm)
  · intro m
    show P (s.base.replay ((s.applied.take n).take m))
    rw [take_take]
    exact h _

/-- What the byte counters rest on. -/
structure BytesInv (s : Sys) : Prop where
  watermark : Watermark s
  kinds : Kinds s
  staging : Staging s
  bytes : Throughout s BytesRight

theorem boot_bytesInv (root : DirectoryInode) : BytesInv (Sys.boot (.format root) []) where
  watermark := boot_watermark (format_history root)
  kinds := boot_kinds _ _
  staging := fun _ => rfl
  bytes := fun n shard => by
    rw [show (Sys.boot (.format root) []).applied = [] from rfl, take_nil]
    have hput := sum_put (sizeIn shard) empty 0 (.directory root)
    have hsize : Inode.size (.directory root) = 0 := rfl
    simp only [get_empty, elim_none, sum_empty, sizeIn, hsize, ite_self] at hput
    exact hput.symm

theorem step_bytesInv {s t : Sys} {a : Action} (h : BytesInv s) (hc : WithinBounds s a) (hs : s.step a = some t) :
    BytesInv t := by
  refine ⟨step_watermark h.watermark hs, step_kinds h.watermark h.kinds hs, step_staging h.staging hs,
    h.bytes.step h.watermark hs ?_⟩
  rintro w staged hp ⟨stamped, rfl⟩ hb
  have hst := h.staging.of hp
  exact hb.write hst.1 hst.2 (images_sameKind h.kinds hp) (withinBounds_apply hp hc)

theorem totals_bytes {db : Db} {t : Shards} (ht : ∀ shard, t.at shard = db.shards.at shard) (hb : BytesRight db) :
    t.getTotals.1 = committedBytes db.inodes := by
  have hmap : ((range statsShards).map fun i => (t.at i).usedBytes) = (range statsShards).map (bytesIn db.inodes) :=
    map_congr_left fun shard _ => by rw [ht, hb shard]
  rw [← bytesIn_sum, ← hmap]
  rfl

theorem totals_inodes {db : Db} {t : Shards} (ht : ∀ shard, t.at shard = db.shards.at shard) (hi : InodesRight db) :
    t.getTotals.2 = committedInodes db.inodes := by
  have hmap : ((range statsShards).map fun i => (t.at i).usedInodes) = (range statsShards).map (inodesIn db.inodes) :=
    map_congr_left fun shard _ => by rw [ht, hi shard]
  rw [← inodesIn_sum, ← hmap]
  rfl

/-- A batch is written and its counters are not published yet. -/
def Phase.landing : Phase → Bool
  | .applied _ _ => true
  | _ => false

theorem Staging.synced {s : Sys} (h : Staging s) (hp : s.phase.landing = false) : Synced s := by
  unfold Staging at h
  split at h
  · exact h.2
  · exact h.2
  · rename_i heq; rw [heq] at hp; cases hp
  · exact h

/-- The byte counters are right whatever batches fail. -/
theorem bytes_right {root : DirectoryInode} {s : Sys} (h : Reach Sys.step WithinBounds (Sys.boot (.format root) []) s) :
    s.db.shards.getTotals.1 = committedBytes s.db.inodes ∧
      (s.phase.landing = false → s.stats.getTotals.1 = committedBytes s.db.inodes) := by
  have hinv := h.invariant (I := BytesInv) (boot_bytesInv root) fun _ _ _ hi hc hs => step_bytesInv hi hc hs
  have hb := hinv.bytes.now hinv.watermark
  exact ⟨totals_bytes (fun _ => rfl) hb, fun hp => totals_bytes (hinv.staging.synced hp) hb⟩

/-! ## The inode counters -/

/-- Every change of an inode finds it there. -/
def grounded (t : Table InodeId Inode) : List Change → Bool
  | [] => true
  | .create id inode :: cs => grounded (t.put id inode) cs
  | .save id inode :: cs => (t.get id).isSome && grounded (t.put id inode) cs
  | .delete id :: cs => (t.get id).isSome && grounded (t.del id) cs

section

variable {t : Table InodeId Inode} {cs : List Change}

theorem grounded_cons {c : Change} (h : grounded t (c :: cs) = true) :
    grounded (t.set c.id c.image) cs = true ∧ ((∀ id inode, c ≠ .create id inode) → t.get c.id ≠ none) := by
  cases c with
  | create id inode => exact ⟨h, fun hno => absurd rfl (hno id inode)⟩
  | save id inode | delete id =>
    simp only [grounded, Bool.and_eq_true] at h
    exact ⟨h.2, fun _ => isSome_iff_ne_none.1 h.1⟩

theorem applyChanges_created (h : grounded t cs = true) {id : InodeId}
    (hid : (applyChanges t cs).get id ≠ none) : t.get id ≠ none ∨ id ∈ createsOf cs := by
  induction cs generalizing t with
  | nil => exact .inl hid
  | cons c cs ih =>
    obtain ⟨hrest, hthere⟩ := grounded_cons h
    rcases ih hrest hid with hget | hmem
    · by_cases heq : id = c.id
      · subst heq
        cases c with
        | create id' inode => exact .inr mem_cons_self
        | save id' inode => exact .inl (hthere nofun)
        | delete id' => exact .inl (hthere nofun)
      · rw [get_set, if_neg heq] at hget; exact .inl hget
    · refine .inr ?_
      cases c with
      | create id' inode => exact mem_cons_of_mem _ hmem
      | save id' inode => exact hmem
      | delete id' => exact hmem

theorem fitsAll_of_grounded (h : grounded t cs = true) {kinds : InodeId → Option Bool}
    (hok : ∀ c ∈ cs, ChangeOk kinds c) (hnodup : (createsOf cs).Nodup) (hnew : ∀ id ∈ createsOf cs, t.get id = none) :
    FitsAll t cs := by
  induction cs generalizing t with
  | nil => trivial
  | cons c cs ih =>
    obtain ⟨hrest, hthere⟩ := grounded_cons h
    obtain ⟨hc, hcs⟩ := forall_mem_cons.1 hok
    -- What is created later is still absent after `c`.
    have hafter : ∀ id ∈ createsOf cs, t.get id = none → id ≠ c.id → (t.set c.id c.image).get id = none := by
      intro id _ hnone hne
      rw [get_set, if_neg hne]
      exact hnone
    cases c with
    | create id' inode =>
      obtain ⟨hnot, hnodup'⟩ := nodup_cons.1 hnodup
      obtain ⟨hnew', hnews⟩ := forall_mem_cons.1 hnew
      refine ⟨⟨hnew', hc.1⟩, ih hrest hcs hnodup' fun id hid => hafter id hid (hnews id hid) ?_⟩
      rintro rfl
      exact hnot hid
    | save id' inode =>
      refine ⟨hthere nofun, ih hrest hcs hnodup fun id hid => hafter id hid (hnew id hid) ?_⟩
      rintro rfl
      exact hthere nofun (hnew _ hid)
    | delete id' =>
      refine ⟨⟨hthere nofun, hc⟩, ih hrest hcs hnodup fun id hid => hafter id hid (hnew id hid) ?_⟩
      rintro rfl
      exact hthere nofun (hnew _ hid)

end

/-- No transaction is applied to an inode that is not there. -/
def groundedStep (s : Sys) : Action → Bool
  | .apply _ =>
    match s.phase with
    | .staged w _ => grounded s.db.inodes (changesOf w.requests)
    | _ => true
  | _ => true

abbrev UsageKept (s : Sys) (a : Action) : Prop := WithinBounds s a ∧ groundedStep s a = true

/-- The inodes that are on their way are new. -/
structure Fresh (s : Sys) : Prop where
  nodup : (createsOf (changesOf s.pending)).Nodup
  absent : ∀ id ∈ createsOf (changesOf s.pending), s.db.inodes.get id = none

theorem createsOf_append (cs cs' : List Change) : createsOf (cs ++ cs') = createsOf cs ++ createsOf cs' := by
  unfold createsOf
  rw [filterMap_append]

theorem createsOf_kind {s : Sys} (h : Kinds s) {id : InodeId} (hid : id ∈ createsOf (changesOf s.pending)) :
    s.kinds id ≠ none := by
  obtain ⟨c, hc, heq⟩ := mem_filterMap.1 hid
  obtain ⟨r, hr, hcr⟩ := mem_flatMap.1 hc
  have hok := h.changes r hr c hcr
  cases c with
  | create id' inode => cases heq; rw [hok.2]; exact nofun
  | save id' inode | delete id' => cases heq

theorem step_fresh {s t : Sys} {a : Action} (hk : Kinds s) (h : Fresh s)
    (hg : ∀ w staged, s.phase = .staged w staged → (∃ stamped, a = .apply stamped) →
      w.updates = mergeUpdates w.requests ∧ grounded s.db.inodes (changesOf w.requests) = true)
    (hs : s.step a = some t) : Fresh t := by
  rcases step_went hs with hq | rfl | ⟨r, u, hu, rfl⟩ | ⟨w, staged, hp, ha, rfl⟩ | ⟨n, rfl⟩
  · have hsub : (createsOf (changesOf t.pending)).Sublist (createsOf (changesOf s.pending)) :=
      (hq.pending.flatMap _).filterMap _
    refine ⟨hsub.nodup h.nodup, fun id hid => ?_⟩
    rw [hq.db]
    exact h.absent id (hsub.subset hid)
  · exact ⟨h.nodup, h.absent⟩
  · have had := admitAll_admitted hu hk.owned_nodup hk.owned_new
    obtain ⟨owned, kinds, rfl⟩ := admitAll_eq hu
    have hcreates : createsOf (changesOf (s.pending ++ [r])) =
        createsOf (changesOf s.pending) ++ createsOf r.changes := by
      rw [changesOf, flatMap_append, createsOf_append, flatMap_cons, flatMap_nil, append_nil]
      rfl
    have hnew : ∀ id ∈ createsOf r.changes, s.kinds id = none :=
      fun id hid => (hk.owned_new id (had.creates.2 id hid)).1
    refine ⟨?_, ?_⟩
    · rw [pending_submit (s := s), hcreates]
      refine nodup_append.2 ⟨h.nodup, had.creates.1, fun id hid id' hid' heq' => ?_⟩
      subst heq'
      exact createsOf_kind hk hid (hnew id hid')
    rw [pending_submit (s := s), hcreates]
    intro id hid
    rcases mem_append.1 hid with hid | hid
    · exact h.absent id hid
    by_contra hne
    obtain ⟨i, hi⟩ := ne_none_iff_exists'.1 hne
    have := hk.rows id i hi
    rw [hnew id hid] at this
    cases this
  · obtain ⟨hmerged, hgr⟩ := hg w staged hp ha
    have hsplit : createsOf (changesOf s.pending) = createsOf (changesOf w.requests) ++ createsOf
        (changesOf s.queue) := by
      rw [pending_of_phase hp, changesOf, flatMap_append, createsOf_append]
      rfl
    have hn := h.nodup
    rw [hsplit, nodup_append] at hn
    refine ⟨hn.2.1, fun id hid => ?_⟩
    have hid' : id ∈ createsOf (changesOf s.queue) := hid
    by_contra hne
    have hget : (s.db.write w).inodes.get id = (applyChanges s.db.inodes (changesOf w.requests)).get id := by
      rw [← get_setAll_images, images, ← hmerged]
      rfl
    rw [show Sys.db { s with applied := s.applied ++ [w], db := s.db.write w, phase := .applied w staged } =
      s.db.write w from rfl, hget] at hne
    rcases applyChanges_created hgr hne with hold | hnew
    · exact hold (h.absent id (by rw [hsplit]; exact mem_append_right _ hid'))
    · exact hn.2.2 id hnew id hid' rfl
  · exact ⟨nodup_nil, fun _ hid => absurd hid not_mem_nil⟩

/-- The same for the inode counters. -/
structure UsageInv (s : Sys) : Prop where
  bytes : BytesInv s
  fresh : Fresh s
  inodes : Throughout s InodesRight

theorem boot_usageInv (root : DirectoryInode) : UsageInv (Sys.boot (.format root) []) where
  bytes := boot_bytesInv root
  fresh := ⟨nodup_nil, nofun⟩
  inodes := fun n shard => by
    rw [show (Sys.boot (.format root) []).applied = [] from rfl, take_nil]
    have hput := sum_put (fun id (_ : Inode) => if id ≠ 0 ∧ shardOf id = shard then 1 else 0) empty 0 (.directory root)
    exact hput.symm

theorem step_usageInv {s t : Sys} {a : Action} (h : UsageInv s) (hc : UsageKept s a) (hs : s.step a = some t) :
    UsageInv t := by
  have hgr : ∀ w staged, s.phase = .staged w staged → (∃ stamped, a = .apply stamped) →
      grounded s.db.inodes (changesOf w.requests) = true := by
    rintro w staged hp ⟨stamped, rfl⟩
    have hg := hc.2
    unfold groundedStep at hg
    rw [hp] at hg
    exact hg
  refine ⟨step_bytesInv h.bytes hc.1 hs,
    step_fresh h.bytes.kinds h.fresh (fun w staged hp ha => ⟨(h.bytes.staging.of hp).1.updates, hgr w staged hp ha⟩) hs,
    h.inodes.step h.bytes.watermark hs ?_⟩
  rintro w staged hp ⟨stamped, rfl⟩ hi
  have hst := h.bytes.staging.of hp
  have hpend : w.requests.Sublist s.pending := by
    rw [pending_of_phase hp]
    exact sublist_append_left _ _
  have hsub : (createsOf (changesOf w.requests)).Sublist (createsOf (changesOf s.pending)) :=
    (hpend.flatMap _).filterMap _
  have hok : ∀ c ∈ changesOf w.requests, ChangeOk s.kinds c := by
    intro c hcm
    obtain ⟨r, hr, hcr⟩ := mem_flatMap.1 hcm
    exact h.bytes.kinds.changes r (hpend.subset hr) c hcr
  exact hi.write hst.1 hst.2 (fitsAll_of_grounded (hgr w staged hp ⟨stamped, rfl⟩) hok (hsub.nodup h.fresh.nodup)
    fun id hid => h.fresh.absent id (hsub.subset hid)) (withinBounds_apply hp hc.1)

/-- **Usage statistics.** In every run whose totals stay below `2^63` and in which no transaction is applied to an inode
that is not there, the stored shard counters sum to the sizes of the committed files and the number of committed inodes,
and so do the counters in memory once the batch is published. -/
theorem usage_right {root : DirectoryInode} {s : Sys} (h : Reach Sys.step UsageKept (Sys.boot (.format root) []) s) :
    s.db.shards.getTotals = (committedBytes s.db.inodes, committedInodes s.db.inodes) ∧
      (s.phase.landing = false → s.stats.getTotals = (committedBytes s.db.inodes, committedInodes s.db.inodes)) := by
  have hinv := h.invariant (I := UsageInv) (boot_usageInv root) fun _ _ _ hi hc hs => step_usageInv hi hc hs
  have hb := hinv.bytes.bytes.now hinv.bytes.watermark
  have hi := hinv.inodes.now hinv.bytes.watermark
  refine ⟨Prod.ext (totals_bytes (fun _ => rfl) hb) (totals_inodes (fun _ => rfl) hi), fun hp => ?_⟩
  have hsync := hinv.bytes.staging.synced hp
  exact Prod.ext (totals_bytes hsync hb) (totals_inodes hsync hi)

/-- A create and an update behind it, in two batches. -/
def countedRun : List Action :=
  [.allocate, .submit ⟨[.create 1 (Sample.file 0)], []⟩] ++ Sample.commit ++
    [.submit ⟨[.save 1 (Sample.file 5)], []⟩] ++ Sample.commit

theorem usage_right_counted : ∃ s, Reach Sys.step UsageKept (Sys.boot (.format Sample.root) []) s ∧
    s.db.shards.getTotals = (5, 1) ∧ s.stats.getTotals = (5, 1) := by
  have hreach : Reach Sys.step UsageKept (Sys.boot (.format Sample.root) []) _ :=
    reach_of_run .init (l := countedRun) rfl
  obtain ⟨hstored, hmem⟩ := usage_right hreach
  exact ⟨_, hreach, hstored.trans (by decide +kernel), (hmem rfl).trans (by decide +kernel)⟩

/-- A `mkdir` below the root is in one batch with an update of file 1, whose committed size cannot be read; the batch is
dropped. A `create` in the new directory, which it has read from the overlay, is submitted before that and saves the
directory with its entry. -/
def uncountedRun : List Action :=
  countedRun ++ [.allocate, .submit ⟨[.create 2 (Sample.dir 0), .save 0 (.directory Sample.root)], []⟩,
    .submit ⟨[.save 1 (Sample.file 7)], []⟩, .drain 2, .allocate,
    .submit ⟨[.create 3 (Sample.file 0), .save 2 (Sample.dir 1)], []⟩, .deriveErr] ++ Sample.commit

/-- Three inodes are committed, and nobody has counted the directory. -/
theorem uncounted_inode : (run (guarded Sys.step WithinBounds) (Sys.boot (.format Sample.root) []) uncountedRun).map
    (fun s => (s.phase.landing, (s.db.inodes.get 2).isSome, committedInodes s.db.inodes, s.db.shards.getTotals,
      s.stats.getTotals)) = some (false, true, 3, (5, 2), (5, 2)) := by decide +kernel

theorem bytes_right_uncounted : ∃ s, Reach Sys.step WithinBounds (Sys.boot (.format Sample.root) []) s ∧
    committedBytes s.db.inodes = 5 := by
  have hr : Reach Sys.step WithinBounds (Sys.boot (.format Sample.root) []) _ :=
    reach_of_run .init (l := uncountedRun) rfl
  exact ⟨_, hr, (bytes_right hr).1.symm.trans (by decide +kernel)⟩

end ZeroFS.Commit
