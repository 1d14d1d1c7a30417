import ZeroFS.Volatile.Steps

/-!
# Reads of acknowledged writes

A read samples the size of the inode, then that of the overlay, and the entries and extents last. If a write is
materialized and retired between the first two, the read misses it, unless no entry that ends above the sampled size is
retired before the runtime is pinned.
-/

namespace ZeroFS.Volatile

open List Machine Option Writer

open SparseFile (written latest)

namespace FileState

variable {f₀ : SparseFile} {s s' : FileState} {i k : Nat} {w w' v : Writer} {a : Action}

/-! ## What a step keeps -/

/-- Requests, published batches, commits and the log stay. -/
structure Moves (s s' : FileState) : Prop where
  log : ∃ l, s'.log = s.log ++ l
  writer : ∀ k v, s.At k v → ∃ v', s'.At k v' ∧ v'.request = v.request ∧
    (v.isPublished = true → v'.isPublished = true ∧ v'.batch = v.batch) ∧ (v.isCommitted = true → v'.isCommitted = true)

theorem Moves.frame (hw : s'.writers = s.writers) (hlog : s'.log = s.log) : Moves s s' where
  log := ⟨[], by rw [hlog, append_nil]⟩
  writer k v hv := ⟨v, by rw [at_eq hw]; exact hv, rfl, fun hp => ⟨hp, rfl⟩, id⟩

theorem Moves.set (hw : s.At i w) (hs : s'.writers = s.writers.set i w') (hlog : ∃ l, s'.log = s.log ++ l)
    (hreq : w'.request = w.request) (hpub : w.isPublished = true → w'.isPublished = true ∧ w'.batch = w.batch)
    (hcom : w.isCommitted = true → w'.isCommitted = true) : Moves s s' where
  log := hlog
  writer k v hv := by
    by_cases hk : k = i
    · subst hk; cases hw.symm.trans hv; exact ⟨w', Slots.get_set_self hs hw, hreq, hpub, hcom⟩
    · exact ⟨v, (Slots.get_set_ne hs hk).trans hv, rfl, fun hp => ⟨hp, rfl⟩, id⟩

theorem Moves.early (hw : s.At i w) (hs : s'.writers = s.writers.set i w') (hlog : ∃ l, s'.log = s.log ++ l)
    (hreq : w'.request = w.request) (hpub : w.isPublished = false) : Moves s s' := by
  refine .set hw hs hlog hreq (by rw [hpub]; exact nofun) fun hcom => ?_
  have := effective_of_submitted (submitted_of_committed hcom)
  rw [isEffective, hpub] at this
  cases this

theorem Moves.along {q : WritePhase} (hw : s.At i w) (hway : Along w.phase q)
    (hs : s'.writers = s.writers.set i { w with phase := q }) (hlog : s'.log = s.log) : Moves s s' := by
  refine .set hw hs ⟨[], by rw [hlog, append_nil]⟩ rfl (fun hpub => ⟨?_, rfl⟩) fun hcom => ?_ <;>
    generalize hp : w.phase = p at hway <;> cases hway <;> simp_all

theorem step_moves (hs : Stepped s a s') : Moves s s' := by
  have hnil : ∀ l : List Nat, ∃ l', l = l ++ l' := fun l => ⟨[], (append_nil l).symm⟩
  cases hs with
  | idle ha hw hstill hr => exact .frame hw hstill.log
  | call hall => exact ⟨hnil _, fun k v hv => ⟨v, Slots.get_snoc hv, rfl, fun hp => ⟨hp, rfl⟩, id⟩⟩
  | outside hw hp hq hs hstill hr => exact .early hw hs (by rw [hstill.log]; exact hnil _) rfl (standing_outside hp).2
  | replay hw hp hrec => exact .early hw rfl (hnil _) rfl (by rcases hp with hp | hp <;> simp [hp])
  | acquire hw hp hfree | search hw hp hfree hnone | loadNil hw hp hempty | load hw hp | measure hw hp
    | plan hw hp hstop | rollBack hw hp =>
    exact .early hw rfl (hnil _) rfl (by simp [hp])
  | stage hw hp hdata hrun => exact .early hw rfl ⟨[_], rfl⟩ rfl (by simp [hp])
  | along hw hway hs hstill hr => exact .along hw hway hs hstill.log
  | record hw hp | submitReplay hw hp hhead hrep | submit hw hp hhead hrep | commit hw hp =>
    exact .set hw rfl (hnil _) rfl (fun _ => ⟨rfl, rfl⟩) (by simp [hp])
  | refuse hw href => exact .early hw rfl (hnil _) rfl (not_published_of_refusable href)
  | retire hw hhead hpin hp =>
    rcases hp with ⟨hp, rfl⟩ | ⟨hp, rfl⟩
    · exact .set hw rfl (hnil _) rfl (fun _ => ⟨rfl, rfl⟩) (by simp [hp])
    · exact .early hw rfl (hnil _) rfl (by simp [hp])

/-! ## Bytes of later writes -/

/-- A write that is `k`, or was staged after it, has this byte at the position. -/
def LaterByte (s : FileState) (k pos : Nat) (b : UInt8) : Prop :=
  ∃ before after k', s.log = before ++ k :: after ∧ k' ∈ k :: after ∧ ∃ v, s.At k' v ∧
    written v.request.entry pos = some b

section

variable {pos : Nat} {b : UInt8} {ws : List (Nat × List UInt8)}

theorem LaterByte.moves (h : s.LaterByte k pos b) (hm : Moves s s') : s'.LaterByte k pos b := by
  obtain ⟨before, after, k', hlog, hk', v, hv, hb⟩ := h
  obtain ⟨l, hl⟩ := hm.log
  obtain ⟨v', hv', hreq, -, -⟩ := hm.writer k' v hv
  refine ⟨before, after ++ l, k', by rw [hl, hlog, append_assoc, cons_append], ?_, v', hv', by rw [hreq]; exact hb⟩
  exact mem_append_left _ hk'

theorem latest_isSome {e : Nat × List UInt8} (he : e ∈ ws) (hpos : (written e pos).isSome = true) :
    (latest ws pos).isSome = true := by
  induction ws with
  | nil => cases he
  | cons x ws ih =>
    rw [latest]
    rcases mem_cons.1 he with rfl | he
    · cases latest ws pos <;> simp [hpos]
    · simp [ih he]

theorem mem_of_latest (h : latest ws pos = some b) :
    ∃ e ∈ ws, written e pos = some b := by
  induction ws with
  | nil => cases h
  | cons x ws ih =>
    rw [latest] at h
    cases hl : latest ws pos with
    | none => rw [hl, none_or] at h; exact ⟨x, mem_cons_self, h⟩
    | some c =>
      rw [hl, some_or] at h
      cases h
      obtain ⟨e, he, hb⟩ := ih hl
      exact ⟨e, mem_cons_of_mem _ he, hb⟩

/-- The last of the selected writes that cover a position is not before a selected one that covers it. -/
theorem later_of_latest (g : Nat → Option OverlayEntry) (before after : List Nat) {e : OverlayEntry}
    (hk : g k = some e) (hpos : (written e pos).isSome = true) :
    ∃ b, latest ((before ++ k :: after).filterMap g) pos = some b ∧ ∃ k' ∈ k :: after, ∃ e', g k' = some e' ∧
    written e' pos = some b := by
  have hmem : e ∈ (k :: after).filterMap g := mem_filterMap.2 ⟨k, mem_cons_self, hk⟩
  obtain ⟨b, hb⟩ := isSome_iff_exists.1 (latest_isSome hmem hpos)
  obtain ⟨e', he', hb'⟩ := mem_of_latest hb
  obtain ⟨k', hk', hg⟩ := mem_filterMap.1 he'
  refine ⟨b, ?_, k', hk', e', hg, hb'⟩
  rw [filterMap_append, SparseFile.latest_append, hb]
  rfl

/-- A committed write, or a later one, has the byte of the store. -/
theorem Ok.store_later (h : Ok f₀ s) (hv : s.At k v) (hcom : v.isCommitted = true)
    (hpos : (written v.request.entry pos).isSome = true) : s.LaterByte k pos (s.file.byte pos) := by
  have hstaged := staged_of_published
    (Bool.and_eq_true_iff.1 (effective_of_submitted (submitted_of_committed hcom))).1
  obtain ⟨before, after, hlog⟩ := append_of_mem ((h.writer k v hv).logged.1 hstaged)
  obtain ⟨b, hb, k', hk', e', hg, hb'⟩ := later_of_latest (s.pick isCommitted) before after (pick_of hv hcom) hpos
  obtain ⟨u, hu, -, rfl⟩ := pick_eq_some hg
  refine ⟨before, after, k', hlog, hk', u, hu, ?_⟩
  rw [hb', h.bytes pos, SparseFile.byte_writeAll, writesWith, hlog, hb]
  rfl

/-- An entry of the overlay that covers the position hides it, or a later one does. -/
theorem Ok.overlay_later (h : Ok f₀ s) (hmem : k ∈ s.entries) (hv : s.At k v) (hpub : v.isPublished = true)
    (hpos : (written v.request.entry pos).isSome = true) :
    ∃ b, latest s.snapshot pos = some b ∧ s.LaterByte k pos b := by
  obtain ⟨past, hpast, -⟩ := h.lane
  obtain ⟨before, after, hentries⟩ := append_of_mem hmem
  obtain ⟨b, hb, k', hk', e', hg, hb'⟩ :=
    later_of_latest (s.pick Writer.isPublished) before after (pick_of hv hpub) hpos
  obtain ⟨u, hu, -, rfl⟩ := pick_eq_some hg
  exact ⟨b, by rw [snapshot_eq, hentries]; exact hb, past ++ before, after, k', by rw [hpast, hentries, append_assoc],
    hk', u, hu, hb'⟩

/-- Every entry of the overlay was staged after the writes that have left it. -/
theorem Ok.overlay_after (h : Ok f₀ s) (hlog : k ∈ s.log) (hmem : k ∉ s.entries) (hb : latest s.snapshot pos = some b) :
    s.LaterByte k pos b := by
  obtain ⟨past, hpast, -⟩ := h.lane
  rw [hpast] at hlog
  obtain ⟨before, after, hold⟩ := append_of_mem ((mem_append.1 hlog).resolve_right hmem)
  obtain ⟨e, he, hbyte⟩ := mem_of_latest hb
  obtain ⟨k', u, hk', hu, -, rfl⟩ := mem_snapshot he
  refine ⟨before, after ++ s.entries, k', by rw [hpast, hold, append_assoc, cons_append], ?_, u, hu, hbyte⟩
  exact mem_cons_of_mem _ (mem_append_right _ hk')

/-! ## A read -/

end

/-- A write of its own that was visible when the read started. -/
def Known (s : FileState) (r : Reader) (k : Nat) (v : Writer) : Prop :=
  k ∈ r.since ∧ s.At k v ∧ v.batch.replayed = false

/-- The answer of a read: it reaches the end of every write that it knows if it says that it is at the end, and it has
each of their bytes, or one of a later write. -/
def Answered (s : FileState) (r : Reader) (data : List UInt8) (eof : Bool) : Prop :=
  ∀ k v, Known s r k v → (eof = true → v.request.stop ≤ r.offset + data.length) ∧
    ∀ pos, r.offset ≤ pos → pos < r.offset + r.count → (written v.request.entry pos).isSome = true →
      ∃ b, data[pos - r.offset]? = some b ∧ s.LaterByte k pos b

/-- The writes that the read knows are published. -/
def Since (s : FileState) (r : Reader) : Prop := ∀ k ∈ r.since, k ∈ s.log ∧ ∃ v, s.At k v ∧ v.isPublished = true

/-- What the sizes that a read has sampled say about the writes that it knows. -/
structure Sampled (s : FileState) (r : Reader) : Prop where
  since : Since s r
  exposed : r.isExposed = true ∨ r.isPinned = true → ∀ k v, Known s r k v → v.request.stop ≤ r.canonical ∨ k ∈ s.entries
  measured : r.phase = .measured → ∀ k v, Known s r k v → v.request.stop ≤ max r.canonical r.dirty
  sized : r.phase = .sized ∨ r.phase = .attached ∨ r.phase = .bare ∨ r.isPinned = true →
    r.length = min r.count (r.visible - r.offset) ∧ ∀ k v, Known s r k v → v.request.stop ≤ r.visible
  bare : r.phase = .bare → ∀ k v, Known s r k v → v.request.stop ≤ r.canonical ∧ v.isCommitted = true

/-- What a reader knows of the writes before it. -/
structure ReaderOk (s : FileState) (r : Reader) : Prop extends Sampled s r where
  base : r.base.length ≤ r.canonicalLen ∧ (r.phase ≠ .bare → r.phase ≠ .fetching → r.phase ≠ .finished → r.base = [])
  bytes : ∀ n b, r.base[n]? = some b → ∀ k v, Known s r k v → (written v.request.entry (r.offset + n)).isSome = true →
    (r.phase = .fetching ∧ k ∈ s.entries) ∨ s.LaterByte k (r.offset + n) b ∨ r.phase = .finished
  result : ∀ data eof, r.result = some (data, eof) → r.phase = .finished ∧ Answered s r data eof

section

variable {r : Reader} {pos : Nat} {data : List UInt8}

theorem Known.moves_iff (hr : Since s r) (hm : Moves s s') (hk : Known s' r k w') : ∃ v, Known s r k v ∧
    w'.request = v.request ∧ v.isPublished = true ∧ (v.isCommitted = true → w'.isCommitted = true) := by
  obtain ⟨hmem, hw', hrep⟩ := hk
  obtain ⟨-, v, hv, hpub⟩ := hr k hmem
  obtain ⟨v', hv', hreq, hkeep, hcom⟩ := hm.writer k v hv
  cases hw'.symm.trans hv'
  exact ⟨v, ⟨hmem, hv, by rw [← (hkeep hpub).2]; exact hrep⟩, hreq, hpub, hcom⟩

/-- A step of something else keeps what a read relies on, unless it takes away an entry that the read still needs. -/
theorem ReaderOk.moves (h : ReaderOk s r) (hm : Moves s s')
    (hentries : ∀ k v, Known s r k v → k ∈ s.entries → k ∈ s'.entries ∨
      (r.isPinned = false ∧ (r.isExposed = true → v.request.stop ≤ r.canonical))) : ReaderOk s' r where
  since k hk := by
    obtain ⟨hlog, v, hv, hpub⟩ := h.since k hk
    obtain ⟨v', hv', -, hkeep, -⟩ := hm.writer k v hv
    obtain ⟨l, hl⟩ := hm.log
    exact ⟨by rw [hl]; exact mem_append_left _ hlog, v', hv', (hkeep hpub).1⟩
  exposed hphase k w hk := by
    obtain ⟨v, hv, hreq, -, -⟩ := hk.moves_iff h.since hm
    rw [hreq]
    rcases h.exposed hphase k v hv with hle | hmem
    · exact .inl hle
    rcases hentries k v hv hmem with hmem | ⟨hpin, hexp⟩
    · exact .inr hmem
    · rw [hpin] at hphase; exact .inl (hexp (hphase.resolve_right (by decide)))
  measured hphase k w hk := by
    obtain ⟨v, hv, hreq, -, -⟩ := hk.moves_iff h.since hm
    rw [hreq]
    exact h.measured hphase k v hv
  sized hphase := by
    obtain ⟨hlen, hstop⟩ := h.sized hphase
    refine ⟨hlen, fun k w hk => ?_⟩
    obtain ⟨v, hv, hreq, -, -⟩ := hk.moves_iff h.since hm
    rw [hreq]
    exact hstop k v hv
  bare hphase k w hk := by
    obtain ⟨v, hv, hreq, -, hcom⟩ := hk.moves_iff h.since hm
    obtain ⟨hle, hc⟩ := h.bare hphase k v hv
    exact ⟨by rw [hreq]; exact hle, hcom hc⟩
  base := h.base
  bytes n b hb k w hk hpos := by
    obtain ⟨v, hv, hreq, -, -⟩ := hk.moves_iff h.since hm
    rw [hreq] at hpos
    rcases h.bytes n b hb k v hv hpos with ⟨hphase, hmem⟩ | hlater | hfin
    · rcases hentries k v hv hmem with hmem | ⟨hpin, -⟩
      · exact .inl ⟨hphase, hmem⟩
      simp [hphase] at hpin
    · exact .inr (.inl (hlater.moves hm))
    · exact .inr (.inr hfin)
  result data eof hres := by
    obtain ⟨hphase, hans⟩ := h.result data eof hres
    refine ⟨hphase, fun k w hk => ?_⟩
    obtain ⟨v, hv, hreq, -, -⟩ := hk.moves_iff h.since hm
    obtain ⟨heof, hbytes⟩ := hans k v hv
    rw [hreq]
    refine ⟨heof, fun pos hge hlt hpos => ?_⟩
    obtain ⟨b, hb, hlater⟩ := hbytes pos hge hlt hpos
    exact ⟨b, hb, hlater.moves hm⟩

theorem written_lt {request : IdentifiedWrite} (h : (written request.entry pos).isSome = true) :
    request.offset ≤ pos ∧ pos < request.stop := by
  by_contra hne
  rw [SparseFile.written_eq_none_iff.2 hne] at h
  cases h

/-- A known write is in the overlay, or committed. -/
theorem Ok.known (h : Ok f₀ s) (hsince : Since s r) (hk : Known s r k v) :
    v.isPublished = true ∧ k ∈ s.log ∧ (k ∈ s.entries ∨ v.isCommitted = true) := by
  obtain ⟨hmem, hv, hrep⟩ := hk
  obtain ⟨hlog, u, hu, hpub⟩ := hsince k hmem
  cases hv.symm.trans hu
  obtain ⟨past, hpast, hall⟩ := h.lane
  refine ⟨hpub, hlog, ?_⟩
  rw [hpast] at hlog
  rcases mem_append.1 hlog with hold | hnew
  · obtain ⟨u, hu, hgone⟩ := hall k hold
    cases hv.symm.trans hu
    exact .inr (committed_of_gone (by rw [isEffective, hpub, hrep]; rfl) hgone)
  · exact .inl hnew

theorem answered_of (hlength : r.length = min r.count (r.visible - r.offset))
    (hstop : ∀ k v, Known s r k v → v.request.stop ≤ r.visible) (hlen : data.length = r.length)
    (hbytes : ∀ k v, Known s r k v → ∀ n, n < r.length → (written v.request.entry (r.offset + n)).isSome = true →
      ∃ b, data[n]? = some b ∧ s.LaterByte k (r.offset + n) b) :
    Answered s r data (decide (r.visible ≤ r.offset + r.length)) := by
  intro k v hk
  have hle := hstop k v hk
  refine ⟨fun heof => ?_, fun pos hge hlt hpos => ?_⟩
  · rw [decide_eq_true_eq] at heof; omega
  have hin := written_lt hpos
  obtain ⟨n, rfl⟩ : ∃ n, pos = r.offset + n := ⟨pos - r.offset, by omega⟩
  obtain ⟨b, hb, hlater⟩ := hbytes k v hk n (by omega) hpos
  exact ⟨b, by rw [Nat.add_sub_cancel_left]; exact hb, hlater⟩

theorem ReaderOk.fresh (h : ReaderOk s r) (hp : r.phase ≠ .bare ∧ r.phase ≠ .fetching ∧ r.phase ≠ .finished) :
    r.base = [] ∧ r.result = none := by
  refine ⟨h.base.2 hp.1 hp.2.1 hp.2.2, ?_⟩
  cases hres : r.result with
  | none => rfl
  | some answer => exact absurd (h.result answer.1 answer.2 hres).1 hp.2.2

theorem ReaderOk.of_fresh (hfresh : r.base = [] ∧ r.result = none) (h : Sampled s r) : ReaderOk s r where
  toSampled := h
  base := ⟨by rw [hfresh.1]; exact Nat.zero_le _, fun _ _ _ => hfresh.1⟩
  bytes n b hb := by
    rw [hfresh.1] at hb
    cases hb
  result data eof hres := by
    rw [hfresh.2] at hres
    cases hres

theorem ReaderOk.of_result {eof : Bool} (hp : r.phase = .finished) (hres : r.result = some (data, eof))
    (since : Since s r) (hbase : r.base.length ≤ r.canonicalLen) (hans : Answered s r data eof) : ReaderOk s r where
  since := since
  exposed hq := by simp [hp] at hq
  measured hq := by simp [hp] at hq
  sized hq := by simp [hp] at hq
  bare hq := by simp [hp] at hq
  base := ⟨hbase, fun _ _ hne => absurd hp hne⟩
  bytes n b hb k v hk hpos := .inr (.inr hp)
  result data' eof' hres' := by
    cases hres.symm.trans hres'
    exact ⟨hp, hans⟩

theorem readerOk_start (h : Ok f₀ s) (offset count : Nat) :
    ReaderOk s { offset := offset, count := count, since := s.log.filter s.isPublished } := by
  refine .of_fresh ⟨rfl, rfl⟩ ⟨fun k hk => ?_, by simp, nofun, by simp, nofun⟩
  obtain ⟨hlog, hpub⟩ := mem_filter.1 hk
  obtain ⟨v, hv⟩ := h.logged k hlog
  rw [isPublished, hv] at hpub
  exact ⟨hlog, v, hv, hpub⟩

section

variable (h : ReaderOk s r)
include h

theorem ReaderOk.sample (hok : Ok f₀ s) (hp : r.phase = .started) :
    ReaderOk s { r with phase := .sampled, canonical := s.file.size } := by
  refine .of_fresh (h.fresh (by simp [hp])) ⟨h.since, fun _ k v hk => ?_, nofun, by simp, nofun⟩
  obtain ⟨-, -, hmem | hcom⟩ := hok.known h.since hk
  · exact .inr hmem
  · exact .inl ((hok.writer k v hk.2.1).submitted (submitted_of_committed hcom)).1

theorem ReaderOk.measure (hok : Ok f₀ s) (hp : r.phase = .sampled) :
    ReaderOk s { r with phase := .measured, dirty := s.dirtyEnd } := by
  have hexp := h.exposed (.inl (by simp [hp]))
  refine .of_fresh (h.fresh (by simp [hp])) ⟨h.since, fun _ => hexp, fun _ k v hk => ?_, by simp, nofun⟩
  rcases hexp k v hk with hle | hmem
  · exact Nat.le_trans hle (Nat.le_max_left _ _)
  · exact Nat.le_trans (stop_le_dirtyEnd hmem hk.2.1 (hok.known h.since hk).1) (Nat.le_max_right _ _)

/-- The visible size is at least the end of every known write: a read that starts there misses none. -/
theorem ReaderOk.past (hp : r.phase = .measured) (hpast : max r.canonical (max r.dirty s.attrsSize) ≤ r.offset) :
    ReaderOk s { r with phase := .finished, result := some ([], true) } := by
  have hnil := (h.fresh (by simp [hp])).1
  refine .of_result rfl rfl h.since (by dsimp only; rw [hnil]; exact Nat.zero_le _) fun k v hk => ?_
  have hle := h.measured hp k v hk
  refine ⟨fun _ => ?_, fun pos hge _ hpos => ?_⟩
  · dsimp only [length_nil]; omega
  have := written_lt hpos
  dsimp only at hge
  omega

theorem ReaderOk.size (hp : r.phase = .measured) {visible : Nat}
    (hvisible : visible = max r.canonical (max r.dirty s.attrsSize)) :
    ReaderOk s { r with phase := .sized, visible := visible, length := min r.count (visible - r.offset) } := by
  refine .of_fresh (h.fresh (by simp [hp])) ⟨h.since, fun _ => h.exposed (.inl (by simp [hp])), nofun,
    fun _ => ⟨rfl, fun k v hk => ?_⟩, nofun⟩
  have hle := h.measured hp k v hk
  dsimp only
  omega

/-- Without a runtime every known write has been committed. -/
theorem ReaderOk.attach (hok : Ok f₀ s) (hp : r.phase = .sized) :
    ReaderOk s { r with phase := if s.runtime.isSome then .attached else .bare } := by
  have hexp := h.exposed (.inl (by simp [hp]))
  refine .of_fresh (h.fresh (by simp [hp])) ⟨h.since, fun _ => hexp, fun hq => ?_, fun _ => h.sized (.inl hp),
    fun hq k v hk => ?_⟩
  · split at hq <;> cases hq
  split at hq
  · cases hq
  rename_i hruntime
  have hnone : ∀ k, k ∉ s.entries := by
    intro k hmem
    unfold entries at hmem
    rw [not_isSome_iff_eq_none.1 hruntime] at hmem
    cases hmem
  exact ⟨(hexp k v hk).resolve_right (hnone k), (hok.known h.since hk).2.2.resolve_left (hnone k)⟩

theorem ReaderOk.pin (hp : r.phase = .attached) : ReaderOk s { r with phase := .pinned } := by
  exact .of_fresh (h.fresh (by simp [hp])) ⟨h.since, fun _ => h.exposed (.inl (by simp [hp])), nofun,
    fun _ => h.sized (.inr (.inl hp)), nofun⟩

end

/-- An entry over the position has the byte of a known write, or of a later one. -/
theorem Ok.snapshot_later (h : Ok f₀ s) (hsince : Since s r) (hk : Known s r k v) {b : UInt8}
    (hpos : (written v.request.entry pos).isSome = true) (hb : latest s.snapshot pos = some b) :
    s.LaterByte k pos b := by
  obtain ⟨hpub, hlog, -⟩ := h.known hsince hk
  by_cases hmem : k ∈ s.entries
  · obtain ⟨b', hb', hlater⟩ := h.overlay_later hmem hk.2.1 hpub hpos
    cases hb.symm.trans hb'
    exact hlater
  · exact h.overlay_after hlog hmem hb

section

variable (h : ReaderOk s r)
include h

theorem ReaderOk.covered (hok : Ok f₀ s) (hp : r.phase = .pinned)
    (hdata : fullyCovered r.offset r.length s.snapshot = some data) : ReaderOk s (r.finish data) := by
  obtain ⟨hlen, hbytes⟩ := fullyCovered_spec hdata
  obtain ⟨hlength, hstop⟩ := h.sized (.inr (.inr (.inr (by simp [hp]))))
  refine .of_result rfl rfl h.since h.base.1 (answered_of hlength hstop hlen fun k v hk n hn hpos => ?_)
  obtain ⟨b, hb, hd⟩ := hbytes n hn
  exact ⟨b, hd, hok.snapshot_later h.since hk hpos hb⟩

theorem ReaderOk.uncovered (hp : r.phase = .pinned) : ReaderOk s { r with phase := .fetching } := by
  have hpin : r.isPinned = true := by simp [hp]
  exact .of_fresh (h.fresh (by simp [hp])) ⟨h.since, fun _ => h.exposed (.inr hpin), nofun,
    fun _ => h.sized (.inr (.inr (.inr hpin))), nofun⟩

/-- One more byte of the extents: a known write that the overlay does not hide has been committed. -/
theorem ReaderOk.fetch (hok : Ok f₀ s) (hp : r.phase = .bare ∨ r.phase = .fetching)
    (hlt : r.base.length < r.canonicalLen) :
    ReaderOk s { r with base := r.base ++ [s.file.byte (r.offset + r.base.length)] } where
  toSampled := { h.toSampled with }
  base := by
    refine ⟨by dsimp only; rw [length_append]; exact hlt, fun hb hf _ => ?_⟩
    exact absurd hp (not_or.2 ⟨hb, hf⟩)
  bytes n b hb k v hk hpos := by
    rcases Nat.lt_trichotomy n r.base.length with hn | hn | hn
    · rw [getElem?_append_left hn] at hb; exact h.bytes n b hb k v hk hpos
    · subst hn
      rw [getElem?_concat_length] at hb
      cases hb
      have hcases := (hok.known h.since hk).2.2
      rcases hp with hp | hp
      · exact .inr (.inl (hok.store_later hk.2.1 (h.bare hp k v hk).2 hpos))
      · exact hcases.imp (fun hmem => ⟨hp, hmem⟩) fun hcom => .inl (hok.store_later hk.2.1 hcom hpos)
    · rw [getElem?_eq_none (by rw [length_append]; exact hn)] at hb; cases hb
  result data eof hres := by
    obtain ⟨hfin, -⟩ := h.result data eof hres
    rw [hfin] at hp
    rcases hp with hp | hp <;> cases hp

/-- The bytes of the store that were asked for are there, and zeros follow. -/
theorem ReaderOk.filled (hfull : r.canonicalLen ≤ r.base.length) :
    (r.base ++ replicate (r.length - r.base.length) 0).length = r.length ∧
    ∀ n, r.offset + n < r.canonical → n < r.length →
      ∃ b, r.base[n]? = some b ∧ (r.base ++ replicate (r.length - r.base.length) 0)[n]? = some b := by
  have hle := h.base.1
  have heq : r.base.length = r.canonicalLen := Nat.le_antisymm hle hfull
  unfold Reader.canonicalLen at heq
  refine ⟨?_, fun n hcan hn => ?_⟩
  · rw [length_append, length_replicate]; split at heq <;> omega
  · have hlt : n < r.base.length := by split at heq <;> omega
    exact ⟨r.base[n], getElem?_eq_getElem hlt, by rw [getElem?_append_left hlt, getElem?_eq_getElem hlt]⟩

theorem ReaderOk.bareFinish (hp : r.phase = .bare) (hfull : r.canonicalLen ≤ r.base.length) :
    ReaderOk s (r.finish (r.base ++ replicate (r.length - r.base.length) 0)) := by
  obtain ⟨hlen, hbase⟩ := h.filled hfull
  obtain ⟨hlength, hstop⟩ := h.sized (.inr (.inr (.inl hp)))
  refine .of_result rfl rfl h.since h.base.1 (answered_of hlength hstop hlen fun k v hk n hn hpos => ?_)
  have hin := written_lt hpos
  have hle := (h.bare hp k v hk).1
  dsimp only [Reader.finish] at hin hpos
  obtain ⟨b, hb, hd⟩ := hbase n (by omega) hn
  refine ⟨b, hd, ?_⟩
  rcases h.bytes n b hb k v hk hpos with ⟨hq, -⟩ | hlater | hq
  · rw [hp] at hq; cases hq
  · exact hlater
  · rw [hp] at hq; cases hq

theorem ReaderOk.overlayFinish (hok : Ok f₀ s) (hp : r.phase = .fetching) (hfull : r.canonicalLen ≤ r.base.length) :
    ReaderOk s
      (r.finish (s.snapshot.foldl (applyEntry r.offset) (r.base ++ replicate (r.length - r.base.length) 0))) := by
  obtain ⟨hlen, hbase⟩ := h.filled hfull
  have hpin : r.isPinned = true := by simp [hp]
  obtain ⟨hlength, hstop⟩ := h.sized (.inr (.inr (.inr hpin)))
  refine .of_result rfl rfl h.since h.base.1
    (answered_of hlength hstop (by rw [length_applyEntries]; exact hlen) fun k v hk n hn hpos => ?_)
  dsimp only [Reader.finish] at hn hpos
  have hin := written_lt hpos
  rw [getElem?_applyEntries]
  cases hl : latest s.snapshot (r.offset + n) with
  | some b =>
    refine ⟨b, ?_, hok.snapshot_later h.since hk hpos hl⟩
    rw [getElem?_eq_getElem (by rw [hlen]; exact hn)]
    rfl
  | none =>
    -- no entry covers the position, so the known write has left the overlay
    have hgone : k ∉ s.entries := by
      intro hmem
      obtain ⟨b, hb, -⟩ := hok.overlay_later hmem hk.2.1 (hok.known h.since hk).1 hpos
      rw [hl] at hb
      cases hb
    have hle := (h.exposed (.inr hpin) k v hk).resolve_right hgone
    obtain ⟨b, hb, hd⟩ := hbase n (by omega) hn
    refine ⟨b, by rw [hd]; rfl, ?_⟩
    rcases h.bytes n b hb k v hk hpos with ⟨-, hmem⟩ | hlater | hq
    · exact absurd hmem hgone
    · exact hlater
    · rw [hp] at hq; cases hq

end

/-! ## Runs -/

end

/-- Only retirement takes an entry away, and only a step of a read changes the reads. -/
theorem step_others (hs : Stepped s a s') (hread : isRead a = false) : s'.readers = s.readers ∧
    ((∀ k ∈ s.entries, k ∈ s'.entries) ∨
    ∃ j, a = .retire j ∧ s.readers.any (·.isPinned) = false ∧ s.entries.head? = some j ∧
    s'.entries = s.entries.tail) := by
  cases hs with
  | idle ha hw hstill hr => exact ⟨hr hread, .inl fun k hk => by rw [hstill.entries]; exact hk⟩
  | outside hw hp hq hs hstill hr | along hw hway hs hstill hr =>
    exact ⟨hr, .inl fun k hk => by rw [hstill.entries]; exact hk⟩
  | stage hw hp hdata hrun =>
    refine ⟨rfl, .inl fun k hk => mem_append_left _ ?_⟩
    rwa [FileState.entries, hrun] at hk
  | retire hw hhead hpin hp => exact ⟨rfl, .inr ⟨_, rfl, hpin, hhead, rfl⟩⟩
  | _ => exact ⟨rfl, .inl fun _ => id⟩

/-- A step of a read, seen from the state before it. -/
theorem step_reads (hok : Ok f₀ s) (h : ∀ r ∈ s.readers, ReaderOk s r) (hread : isRead a = true)
    (hs : s.step a = some s') : ∀ r ∈ s'.readers, ReaderOk s r := by
  have hset : ∀ (j : Nat) (r' : Reader), ReaderOk s r' → ∀ r ∈ (s.setReader j r').readers, ReaderOk s r := by
    intro j r' hr' r hr
    rcases mem_or_eq_of_mem_set hr with hr | rfl
    · exact h r hr
    · exact hr'
  have hmem : ∀ {j : Nat} {r : Reader}, s.readers[j]? = some r → ReaderOk s r := fun hr => h _ (mem_of_getElem? hr)
  cases a with
  | startRead offset count =>
    cases hs
    intro r hr
    rcases mem_append.1 hr with hr | hr
    · exact h r hr
    · rw [mem_singleton.1 hr]; exact readerOk_start hok offset count
  | sample j => obtain ⟨r, hr, hp, hg⟩ := of_slot hs; cases hg; exact hset j _ ((hmem hr).sample hok hp)
  | measureRead j => obtain ⟨r, hr, hp, hg⟩ := of_slot hs; cases hg; exact hset j _ ((hmem hr).measure hok hp)
  | sizeRead j =>
    obtain ⟨r, hr, hp, hg⟩ := of_slot hs
    dsimp only at hg
    split at hg <;> cases hg
    · exact hset j _ ((hmem hr).past hp ‹_›)
    · exact hset j _ ((hmem hr).size hp rfl)
  | attach j => obtain ⟨r, hr, hp, hg⟩ := of_slot hs; cases hg; exact hset j _ ((hmem hr).attach hok hp)
  | pin j => obtain ⟨r, hr, hp, hg⟩ := of_slot hs; cases hg; exact hset j _ ((hmem hr).pin hp)
  | snapshot j =>
    obtain ⟨r, hr, hp, hg⟩ := of_slot hs
    split at hg <;> cases hg
    · exact hset j _ ((hmem hr).covered hok hp ‹_›)
    · exact hset j _ ((hmem hr).uncovered hp)
  | fetch j =>
    obtain ⟨r, hr, hg⟩ := bind_eq_some_iff.1 hs
    obtain ⟨hgo, rfl⟩ := of_guard hg
    exact hset j _ ((hmem hr).fetch hok hgo.1 hgo.2)
  | overlay j =>
    obtain ⟨r, hr, hg⟩ := bind_eq_some_iff.1 hs
    split at hg
    · cases hg
    rename_i hfull
    split at hg
    · cases hg; exact hset j _ ((hmem hr).bareFinish ‹_› (Nat.le_of_not_lt hfull))
    · obtain ⟨hp, rfl⟩ := of_guard hg; exact hset j _ ((hmem hr).overlayFinish hok hp (Nat.le_of_not_lt hfull))
  | _ => cases hread

/-- An entry that ends above the size that a read has sampled is not retired until the read has pinned the runtime. -/
def undisturbed (s : FileState) : Action → Bool
  | .retire i => s.readers.all fun r => !r.isExposed || (s.request i).all fun request => request.stop ≤ r.canonical
  | _ => true

abbrev Undisturbed (s : FileState) (a : Action) : Prop := s.undisturbed a = true

theorem step_readersOk (hok : Ok f₀ s) (h : ∀ r ∈ s.readers, ReaderOk s r) (hc : Undisturbed s a)
    (hs : s.step a = some s') : ∀ r ∈ s'.readers, ReaderOk s' r := by
  intro r hr
  have hm := step_moves (stepped hs)
  cases hread : isRead a with
  | true =>
    obtain ⟨-, hstill, -⟩ := step_idle hs (by cases a <;> first | rfl | cases hread)
    exact (step_reads hok h hread hs r hr).moves hm fun k v _ hk => .inl (by rw [hstill.entries]; exact hk)
  | false =>
    obtain ⟨hreaders, hentries⟩ := step_others (stepped hs) hread
    rw [hreaders] at hr
    refine (h r hr).moves hm fun k v hk hmem => ?_
    rcases hentries with hkeep | ⟨j, rfl, hpin, hhead, htail⟩
    · exact .inl (hkeep k hmem)
    rw [htail]
    obtain ⟨rest, hrest⟩ := head?_eq_some_iff.1 hhead
    rw [hrest] at hmem ⊢
    rcases mem_cons.1 hmem with rfl | hmem
    · refine .inr ⟨by simpa using any_eq_false.1 hpin r hr, fun hexp => ?_⟩
      have := all_eq_true.1 hc r hr
      rw [hexp, request, hk.2.1] at this
      simpa using this
    · exact .inl hmem

theorem reach_readersOk (h : Machine.Reach step Undisturbed { file := f₀ } s) : ∀ r ∈ s.readers, ReaderOk s r :=
  (h.invariant (I := fun s => Ok f₀ s ∧ ∀ r ∈ s.readers, ReaderOk s r) ⟨boot_ok f₀, fun r hr => (by cases hr)⟩
    fun _ _ _ hinv hc hs => ⟨step_ok hinv.1 (stepped hs), step_readersOk hinv.1 hinv.2 hc hs⟩).2

theorem written_isSome {request : IdentifiedWrite} {pos : Nat} (hge : request.offset ≤ pos) (hlt : pos < request.stop) :
    (written request.entry pos).isSome = true := by
  cases hw : written request.entry pos with
  | none => exact absurd ⟨hge, hlt⟩ (SparseFile.written_eq_none_iff.1 hw)
  | some b => rfl

/-- **Acknowledged writes are readable**: the answer of a read has, at each position of a write that was visible when
the read started, the byte of that write or of one staged later, and it does not end before the write does. -/
theorem reads_acknowledged (h : Machine.Reach step Undisturbed { file := f₀ } s) {r : Reader} (hr : r ∈ s.readers)
    {data : List UInt8} {eof : Bool} (hres : r.result = some (data, eof)) (hk : k ∈ r.since)
    (hv : s.writers[k]? = some v) (hrep : v.batch.replayed = false) :
    (eof = true → v.request.stop ≤ r.offset + data.length) ∧
    ∀ pos, r.offset ≤ pos → pos < r.offset + r.count → v.request.offset ≤ pos → pos < v.request.stop →
      ∃ b, data[pos - r.offset]? = some b ∧ s.LaterByte k pos b := by
  obtain ⟨-, hans⟩ := (reach_readersOk h r hr).result data eof hres
  obtain ⟨heof, hbytes⟩ := hans k v ⟨hk, hv, hrep⟩
  exact ⟨heof, fun pos hge hlt hstart hstop => hbytes pos hge hlt (written_isSome hstart hstop)⟩

/-- One byte at the start of the file. -/
def firstByte (b : UInt8) : IdentifiedWrite := ⟨0, 0, [b], .directOneShot 0, .oneShot⟩

/-- A call that is acknowledged. -/
def acknowledges (i : Nat) : List Action :=
  [.consult i, .lookup i, .reserve i, .check i, .acquire i, .search i, .load i, .measure i, .plan i true, .stage i,
    .preview i, .publish i, .record i, .accept i]

def acknowledged : List Action := .call (firstByte 7) :: acknowledges 0

def drained : List Action := [.submit 0, .commit 0, .settle 0, .complete 0, .retire 0, .reap]

theorem reads_acknowledged_byte : ∃ s r, Machine.Reach step Undisturbed { file := ⟨0, fun _ => 0⟩ } s ∧ r ∈ s.readers ∧
    r.offset = 0 ∧ ∃ data, r.result = some (data, true) ∧ ∃ b, data[0]? = some b ∧ s.LaterByte 0 0 b := by
  have hreach : Machine.Reach step Undisturbed { file := ⟨0, fun _ => 0⟩ } _ :=
    Machine.reach_of_run .init (l := acknowledged ++ [.startRead 0 1, .sample 0, .measureRead 0, .sizeRead 0, .attach 0,
      .pin 0, .snapshot 0] ++ drained) rfl
  have hbytes := (reads_acknowledged hreach (mem_singleton_self _) rfl (mem_singleton_self 0) rfl rfl).2
  exact ⟨_, _, hreach, mem_singleton_self _, rfl, _, rfl, hbytes 0 (by decide) (by decide) (by decide) (by decide)⟩

/-- **An acknowledged byte is missed**: the read samples the size before the lane submits the write, and that of the
overlay after the write is retired. Its answer is that the file is empty. -/
theorem acknowledged_write_missed :
    (∃ s, Machine.run step { file := ⟨0, fun _ => 0⟩ } acknowledged = some s ∧
      (s.writers[0]?).map (·.phase) = some .accepted) ∧
    ∃ s, Machine.run step { file := ⟨0, fun _ => 0⟩ }
      (acknowledged ++ [.startRead 0 1, .sample 0] ++ drained ++ [.measureRead 0, .sizeRead 0]) = some s ∧
      ∃ r, s.readers = [r] ∧ r.since = [0] ∧ r.offset = 0 ∧ r.count = 1 ∧ r.result = some ([], true) ∧
        s.file.size = 1 ∧ s.file.byte 0 = 7 ∧ (s.writers[0]?).map (·.batch.replayed) = some false :=
  ⟨⟨_, rfl, rfl⟩, _, rfl, _, rfl, rfl, rfl, rfl, rfl, rfl, rfl, rfl⟩

/-- **The lane is a queue**, in every run: writes leave it in the order of their staging, and the file holds those
committed. -/
theorem lane_in_order (h : Reach step anyStep { file := f₀ } s) :
    (∃ past, s.log = past ++ s.entries ∧ ∀ k ∈ past, ∃ w, s.writers[k]? = some w ∧ w.isGone = true) ∧
      ∀ pos, s.file.byte pos = (f₀.writeAll (s.writesWith isCommitted)).byte pos := by
  have hok := h.invariant (I := Ok f₀) (boot_ok f₀) fun _ _ _ hi _ hs => step_ok hi (stepped hs)
  exact ⟨hok.lane, hok.bytes⟩

/-- The second of two calls is staged first and retired; the first call is staged behind its commit and overwrites its
byte. -/
def overwriting : List Action :=
  [.call (firstByte 7), .call ⟨0, 0, [9], .directOneShot 1, .oneShot⟩] ++ acknowledges 1 ++ [.submit 1, .commit 1] ++
    acknowledges 0 ++ [.settle 1, .complete 1, .retire 1, .submit 0, .commit 0]

theorem lane_in_order_overwritten : ∃ s, Reach step anyStep { file := ⟨0, fun _ => 0⟩ } s ∧ s.entries = [0] ∧
    (∃ past, [1, 0] = past ++ [0] ∧ ∀ k ∈ past, ∃ w, s.writers[k]? = some w ∧ w.isGone = true) ∧ s.file.byte 0 = 7 := by
  have hr : Reach step anyStep { file := ⟨0, fun _ => 0⟩ } _ := reach_of_run .init (l := overwriting) rfl
  obtain ⟨hlane, hbytes⟩ := lane_in_order hr
  exact ⟨_, hr, rfl, hlane, hbytes 0⟩

end FileState

end ZeroFS.Volatile
