import ZeroFS.Writeback.Serve

/-!
# Reads are transparent

`ReaderOk`: the sampled entries carry what the records accepted then leave, and at the paths without an entry none of
those is still on its way to the remote store. Each `Seamless` step keeps it.
-/

namespace ZeroFS.Writeback

open List Table Option Machine

variable {cfg : Config} {ns : Namespace} {t t' : Tier} {a : Action} {p q : Path} {n : Nat} {r : MutationRecord}
  {e : OverlayEntry} {rd : Reader}

/-! ## Steps of the tier, seen from a read -/

namespace Tier

/-- Without a restart the log and the remote frontier only grow, and only `prune` takes rows away. -/
structure Forward (a : Action) (t t' : Tier) : Prop where
  log : ∃ l, t'.accepted = t.accepted ++ l
  remoteSeq : t.journal.remoteSeq ≤ t'.journal.remoteSeq
  rows : (∃ batch, t'.journal.rows = t.journal.rows ++ batch) ∨
    a = .prune ∧ t'.journal = t.journal.removeRemotePrefix (Serve.committedThrough t)

theorem forward_of_eq (hlog : t'.accepted = t.accepted) (hjournal : t'.journal = t.journal) : Forward a t t' where
  log := ⟨[], by rw [hlog, append_nil]⟩
  remoteSeq := by rw [hjournal]
  rows := .inl ⟨[], by rw [hjournal, append_nil]⟩

theorem step_forward (ha : a ≠ .restart) (ht : t.step cfg a = some t') : Forward a t t' := by
  cases step_stepped ht with
  | accept _ _ => exact ⟨⟨_, rfl⟩, le_rfl, .inl ⟨[], (append_nil _).symm⟩⟩
  | commitLocal _ _ _ => exact ⟨⟨[], (append_nil _).symm⟩, le_rfl, .inl ⟨_, rfl⟩⟩
  | prune hc => exact ⟨⟨[], (append_nil _).symm⟩, le_rfl, .inr ⟨rfl, by rw [Serve.committedThrough, hc]; rfl⟩⟩
  | mark _ hj =>
    obtain ⟨-, rfl⟩ := of_guard hj
    exact ⟨⟨[], (append_nil _).symm⟩, Nat.le_add_right _ _, .inl ⟨[], (append_nil _).symm⟩⟩
  | restart _ => exact absurd rfl ha
  | attempt _ hat _ => exact forward_of_eq hat.uploads.accepted hat.uploads.journal
  | openWindow | dispatch | complete =>
    have hu := (step_stepped ht).uploads rfl
    exact forward_of_eq hu.accepted hu.journal
  | _ => exact forward_of_eq rfl rfl

/-- A row stays until a prefix is pruned that has it. -/
theorem Forward.mutation (h : Forward a t t') (hrow : t.journal.mutation n = some r)
    (hprune : a = .prune → Serve.committedThrough t < n) : t'.journal.mutation n = some r := by
  unfold Journal.mutation at hrow ⊢
  rcases h.rows with ⟨batch, hrows⟩ | ⟨hp, hjournal⟩
  · rw [hrows, find?_append, hrow]; rfl
  have hn := hprune hp
  rw [hjournal]
  dsimp only [Journal.removeRemotePrefix]
  rw [find?_filter, ← hrow]
  congr 1
  funext q
  by_cases hq : q.sequence = n
  · simp [hq, hn]
  · simp [hq]

/-- The remote store changes by the effect of an attempt only, and only at the keys of its record. -/
theorem step_contents (hok : Ok True ns t) (hc : Punctual t a) (ht : t.step cfg a = some t') :
    t'.remote = t.remote ∨ ∃ n r f, a = .effect n ∧ t.scheduler.active.get n = some (r, f) ∧
      ∀ q ∉ r.touchedKeys, t'.remote.contents q = t.remote.contents q := by
  have hload : ∀ u : Tier, (u.loadSchedulerWindow cfg).remote = u.remote := fun u => by
    unfold loadSchedulerWindow
    split <;> rfl
  cases step_stepped ht with
  | putObject hs =>
    refine .inr ⟨_, _, _, rfl, hs, fun q hq => (contents_put _ _ _ _).trans (if_neg ?_)⟩
    rintro rfl
    exact hq (by unfold MutationRecord.touchedKeys; split <;> simp)
  | deleteObject hs =>
    refine .inr ⟨_, _, _, rfl, hs, fun q hq => (contents_delete _ _ _).trans (if_neg ?_)⟩
    rintro rfl
    rcases (hok.remote trivial).flight _ _ _ (.inl hs) with ⟨hk, rfl⟩ | ⟨mode, b, hk, -⟩
    · exact hq (by simp [MutationRecord.touchedKeys, hk])
    · exact hq (by simp [MutationRecord.touchedKeys, hk])
  | attempt _ hat _ => cases hat <;> exact .inl rfl
  | land => cases hc
  | openWindow => exact .inl (hload _)
  | dispatch ht _ => obtain ⟨-, rfl⟩ := of_guard_not ht; exact .inl rfl
  | complete _ =>
    unfold completeRecord
    dsimp only
    split
    · exact .inl rfl
    · exact .inl (hload _)
  | _ => exact .inl rfl

end Tier

/-! ## What a read has sampled -/

/-- None of the first `n` records is still on its way to this path of the remote store. -/
def Drained (t : Tier) (n : Nat) (p : Path) : Prop :=
  ∀ s r, Logged t.accepted s r → s ≤ n → p ∈ r.touchedKeys → s ≤ t.journal.remoteSeq

/-- The entry carries what the first `n` records leave at the path. -/
inductive EntryOk (l : List MutationRecord) (ns : Namespace) (n : Nat) (p : Path) : OverlayEntry → Prop
  | deleted (r : MutationRecord) : applied (l.take n) ns p = none → EntryOk l ns n p ⟨r, .delete, none⟩
  | pending (r : MutationRecord) (b : Payload) : r.payload = some b → applied (l.take n) ns p = some b →
      EntryOk l ns n p ⟨r, .put, some (.pending b)⟩
  | journal (r : MutationRecord) (b : Payload) (s : Nat) : Logged l s r → r.payload = some b →
      applied (l.take n) ns p = some b →
      EntryOk l ns n p ⟨r, .put, some (.journal s)⟩

/-- What holds of a read between its sample and its end. -/
def ReaderOk (ns : Namespace) (t : Tier) (n : Nat) : Reader → Prop
  | .object p _ none => Drained t n p
  | .object p head (some e) => EntryOk t.accepted ns n p e ∧
    (head = false → ∀ s, e.payload = some (.journal s) → t.journal.mutation s = some e.record)
  | .listing below _ entries =>
    (∀ q e, entries.get q = some e → EntryOk t.accepted ns n q e ∧ below <+: q ∧ (q = below → e.effect = .delete)) ∧
      ∀ q, below <+: q → entries.get q = none → t.remote.contents q = applied (t.accepted.take n) ns q ∧ Drained t n q

theorem Drained.forward (h : Drained t n p) (hf : Tier.Forward a t t') (hn : n ≤ t.accepted.length) :
    Drained t' n p := by
  obtain ⟨l, hlog⟩ := hf.log
  intro s r hr hs hp
  rw [hlog] at hr
  exact Nat.le_trans (h s r (hr.of_append (by omega)) hs hp) hf.remoteSeq

theorem EntryOk.forward (h : EntryOk t.accepted ns n p e) (hf : Tier.Forward a t t') (hn : n ≤ t.accepted.length) :
    EntryOk t'.accepted ns n p e := by
  obtain ⟨l, hlog⟩ := hf.log
  have htake : t'.accepted.take n = t.accepted.take n := by rw [hlog, take_append_of_le_length hn]
  cases h with
  | deleted r hv => exact .deleted r (by rwa [htake])
  | pending r b hb hv => exact .pending r b hb (by rwa [htake])
  | journal r b s hr hb hv => exact .journal r b s (by rw [hlog]; exact hr.append l) hb (by rwa [htake])

theorem ReaderOk.forward (h : ReaderOk ns t n rd) (hf : Tier.Forward a t t') (hn : n ≤ t.accepted.length)
    (hok : Tier.Ok True ns t) (hc : Tier.Punctual t a) (ht : t.step cfg a = some t')
    (hprune : a = .prune → Serve.sampledRow (Serve.committedThrough t) rd = false)
    (heffect : ∀ s, a = .effect s → Serve.isListing rd = true → s ≤ n) : ReaderOk ns t' n rd := by
  match rd, h with
  | .object p head none, h => exact Drained.forward h hf hn
  | .object p head (some e), ⟨hentry, hrow⟩ =>
    refine ⟨hentry.forward hf hn, fun hhead s hs => hf.mutation (hrow hhead s hs) fun hp => ?_⟩
    have hsampled := hprune hp
    subst hhead
    obtain ⟨r, effect, payload⟩ := e
    dsimp only at hs
    subst hs
    simpa [Serve.sampledRow] using hsampled
  | .listing below delimiter entries, ⟨hentries, hrest⟩ =>
    obtain ⟨l, hlog⟩ := hf.log
    have htake : t'.accepted.take n = t.accepted.take n := by rw [hlog, take_append_of_le_length hn]
    refine ⟨fun q e he => ?_, fun q hq hnone => ?_⟩
    · obtain ⟨hentry, hbelow⟩ := hentries q e he; exact ⟨hentry.forward hf hn, hbelow⟩
    obtain ⟨hcontents, hdrained⟩ := hrest q hq hnone
    refine ⟨?_, hdrained.forward hf hn⟩
    rw [htake, ← hcontents]
    rcases Tier.step_contents hok hc ht with hsame | ⟨s, r, f, rfl, hs, hframe⟩
    · rw [hsame]
    -- a record in flight is above the frontier, and those up to `n` at this path are not
    refine hframe q fun htouch => ?_
    obtain ⟨hlt, -, hr, -⟩ := hok.drain.active s _ hs
    have := hdrained s r hr (heffect s rfl rfl) htouch
    omega

/-! ## The sample -/

theorem Tier.Held.entryOk {removed observed : Nat} (h : Tier.Held t removed observed) (hok : Tier.Ok True ns t)
    (hv : t.overlay.visibleEntry p = some e) :
    EntryOk t.accepted ns t.accepted.length p e ∧ ∀ s, e.payload = some (.journal s) →
    t.journal.mutation s = some e.record := by
  obtain ⟨s, hs, hlatest, hentry⟩ := h.visible_some hv
  have hseq := hok.log.logged_sequence hlatest.logged
  have hobserved := h.observed_le
  rcases entryAt_cases hentry with ⟨heff, he⟩ | ⟨b, heff, he⟩
  · rw [he]
    refine ⟨.deleted _ ?_, fun n hn => by cases hn⟩
    rw [take_length]
    exact hlatest.applied_eq heff
  have hvalue : applied (t.accepted.take t.accepted.length) ns p = some b := by
    rw [take_length]
    exact hlatest.applied_eq heff
  rw [he]
  split
  · rename_i hle
    rw [hseq] at hle ⊢
    refine ⟨.journal _ b _ hlatest.logged (MutationRecord.effect_payload heff) hvalue, fun n hn => ?_⟩
    cases hn
    exact h.mutation hok hlatest.logged hs (by omega)
  · exact ⟨.pending _ b (MutationRecord.effect_payload heff) hvalue, fun n hn => by cases hn⟩

theorem Tier.Held.drained {removed observed : Nat} (h : Tier.Held t removed observed)
    (hv : t.overlay.visibleEntry p = none) : Drained t t.accepted.length p := fun _ _ hr _ htouch =>
  Nat.le_trans (h.visible_none hv hr htouch) h.removed_le

theorem get_visibleEntries (o : OverlayIndex) (below q : Path) :
    (o.visibleEntries below).get q = if below <+: q then o.visibleEntry q else none := by
  unfold OverlayIndex.visibleEntries OverlayIndex.visibleEntry OverlayIndex.versions
  rw [get_filterMapVals]
  cases o.get q with
  | none => simp
  | some vs => rfl

theorem Tier.Shows.object_ok (h : Tier.Shows True cfg ns t) (p : Path) (head : Bool) :
    ReaderOk ns t t.accepted.length (.object p head (t.overlay.visibleEntry p)) := by
  obtain ⟨removed, observed, hheld⟩ := h.held
  cases hv : t.overlay.visibleEntry p with
  | none => exact hheld.drained hv
  | some e => exact ⟨(hheld.entryOk h.ok hv).1, fun _ => (hheld.entryOk h.ok hv).2⟩

theorem Tier.Shows.listing_ok (h : Tier.Shows True cfg ns t) (below : Path) (delimiter : Bool)
    (hbelow : t.overlay.hasVisibleLocalObject below = false) :
    ReaderOk ns t t.accepted.length (.listing below delimiter (t.overlay.visibleEntries below)) := by
  obtain ⟨removed, observed, hheld⟩ := h.held
  refine ⟨fun q e he => ?_, fun q hq hnone => ?_⟩
  · rw [get_visibleEntries] at he
    split at he
    · rename_i hq
      refine ⟨(hheld.entryOk h.ok he).1, hq, ?_⟩
      rintro rfl
      unfold OverlayIndex.hasVisibleLocalObject at hbelow
      rw [he] at hbelow
      cases heff : e.effect with
      | delete => rfl
      | put => simp [heff] at hbelow
    · cases he
  · rw [get_visibleEntries, if_pos hq] at hnone
    have hread := hheld.readObject_eq h.ok q
    unfold Tier.readObject at hread
    rw [hnone] at hread
    rw [take_length]
    exact ⟨hread, hheld.drained hnone⟩

/-! ## The cache -/

/-- The cached blobs are those of the records. -/
def CacheOk (l : List MutationRecord) (c : BlobCache) : Prop :=
  ∀ s b, (s, b) ∈ c → ∃ r, Logged l s r ∧ r.payload = some b

namespace CacheOk

variable {l : List MutationRecord} {c : BlobCache} {b : Payload} {s : Nat}

theorem append (h : CacheOk l c) (l' : List MutationRecord) : CacheOk (l ++ l') c := fun s b hb =>
  let ⟨r, hr, hp⟩ := h s b hb
  ⟨r, hr.append l', hp⟩

theorem lookup {c' : BlobCache} (h : CacheOk l c) (hl : BlobCache.lookup c s = some (b, c')) :
    (∃ r, Logged l s r ∧ r.payload = some b) ∧ CacheOk l c' := by
  obtain ⟨⟨s', b'⟩, hfind, heq⟩ := map_eq_some_iff.1 hl
  cases heq
  have hmem := mem_of_find?_eq_some hfind
  have hs : s' = s := by simpa using find?_some hfind
  subst hs
  refine ⟨h _ _ hmem, fun s b hb => ?_⟩
  rcases mem_append.1 hb with hb | hb
  · exact h s b (mem_of_mem_eraseP hb)
  · cases mem_singleton.1 hb; exact h _ _ hmem

theorem evict (h : CacheOk l c) : CacheOk l (BlobCache.evict c) := by
  induction c with
  | nil => exact h
  | cons e c ih =>
    unfold BlobCache.evict
    split
    · exact ih fun s b hb => h s b (mem_cons_of_mem _ hb)
    · exact h

theorem insert (h : CacheOk l c) (hr : ∃ r, Logged l s r ∧ r.payload = some b) :
    CacheOk l (BlobCache.insert c s b) := by
  unfold BlobCache.insert
  split
  · exact h
  refine evict fun s' b' hb => ?_
  rcases mem_append.1 hb with hb | hb
  · exact h s' b' hb
  · cases mem_singleton.1 hb; exact hr

end CacheOk

/-! ## Listings -/

/-- What a sampled entry shows in a listing. -/
def OverlayEntry.listed (e : OverlayEntry) : Option Nat :=
  match e.effect with
  | .delete => none
  | .put => e.record.payload.map (·.length)

theorem get_mergeEntries {es : List (Sigma fun _ : Path => OverlayEntry)} (hkeys : es.NodupKeys)
    (hput : ∀ row ∈ es, row.2.effect = .put → row.2.record.payload ≠ none) (base : Table Path Nat) :
    ∃ merged, mergeEntries es base = .ok merged ∧
      ∀ q, merged.get q = match es.dlookup q with
        | some e => e.listed
        | none => base.get q := by
  induction es generalizing base with
  | nil => exact ⟨base, rfl, fun q => rfl⟩
  | cons row es ih =>
    obtain ⟨k, e⟩ := row
    rw [nodupKeys_cons] at hkeys
    -- the key of the first entry is not among the others, so its place in the listing is final
    have hfirst : es.dlookup k = none := dlookup_eq_none.2 hkeys.1
    have hrest := ih hkeys.2 fun row hrow => hput row (mem_cons_of_mem _ hrow)
    have hstep : ∀ base' : Table Path Nat, (∀ q, base'.get q = if q = k then e.listed else base.get q) →
        ∀ merged : Table Path Nat,
        (∀ q, merged.get q = match es.dlookup q with | some e => e.listed | none => base'.get q) →
        ∀ q, merged.get q = match dlookup q (⟨k, e⟩ :: es) with | some e => e.listed | none => base.get q := by
      intro base' hbase merged hmerged q
      rw [hmerged]
      by_cases hq : q = k
      · subst hq
        rw [hfirst, dlookup_cons_eq]
        dsimp only
        rw [hbase, if_pos rfl]
      · rw [dlookup_cons_ne _ _ hq, hbase, if_neg hq]
    cases heff : e.effect with
    | delete =>
      obtain ⟨merged, hok, hmerged⟩ := hrest (base.del k)
      refine ⟨merged, by simpa [mergeEntries, heff] using hok, hstep _ (fun q => ?_) merged hmerged⟩
      rw [get_del, OverlayEntry.listed, heff]
    | put =>
      obtain ⟨b, hb⟩ := ne_none_iff_exists'.1 (hput ⟨k, e⟩ mem_cons_self heff)
      obtain ⟨merged, hok, hmerged⟩ := hrest (base.put k b.length)
      dsimp only at hb
      refine ⟨merged, by simpa [mergeEntries, heff, entrySize, hb] using hok, hstep _ (fun q => ?_) merged hmerged⟩
      rw [get_put, OverlayEntry.listed, heff]
      simp [hb]

theorem get_remote_list (m : Remote) (below q : Path) :
    (m.list below).get q = if below <+: q ∧ below ≠ q then (m.contents q).map (·.length) else none := by
  unfold Remote.list Remote.contents
  rw [get_filterMapVals]
  cases m.objects.get q with
  | none => simp
  | some o => rfl

theorem EntryOk.listed_eq {l : List MutationRecord} (h : EntryOk l ns n p e) :
    e.listed = (applied (l.take n) ns p).map (·.length) := by
  cases h with
  | deleted r hv => rw [hv]; rfl
  | pending r b hb hv | journal r b s hr hb hv => simp [OverlayEntry.listed, hv, hb]

theorem EntryOk.payload_of_put {l : List MutationRecord} (h : EntryOk l ns n p e) (hput : e.effect = .put) :
    e.record.payload ≠ none := by
  cases h with
  | deleted r hv => cases hput
  | pending r b hb hv | journal r b s hr hb hv => simp [hb]

/-- The sampled entries over the remote store list what the first `n` records leave. -/
theorem ReaderOk.merge {below : Path} {delimiter : Bool} {entries : Table Path OverlayEntry}
    (h : ReaderOk ns t n (.listing below delimiter entries)) :
    ∃ merged, mergeEntries entries.entries (t.remote.list below) = .ok merged ∧
      ∀ q, merged.get q = if below <+: q ∧ below ≠ q then (applied (t.accepted.take n) ns q).map
        (·.length) else none := by
  obtain ⟨hentries, hrest⟩ := h
  obtain ⟨merged, hok, hmerged⟩ := get_mergeEntries entries.nodupKeys
    (fun row hrow => (hentries row.1 row.2 (mem_entries.1 hrow)).1.payload_of_put) (t.remote.list below)
  refine ⟨merged, hok, fun q => ?_⟩
  rw [hmerged]
  cases hq : entries.get q with
  | some e =>
    obtain ⟨hentry, hbelow, hdelete⟩ := hentries q e hq
    rw [show dlookup q entries.entries = some e from hq]
    dsimp only
    by_cases heq : below = q
    · rw [if_neg (fun h => h.2 heq), OverlayEntry.listed, hdelete heq.symm]
    · rw [if_pos ⟨hbelow, heq⟩, hentry.listed_eq]
  | none =>
    rw [show dlookup q entries.entries = none from hq]
    dsimp only
    rw [get_remote_list]
    split
    · rename_i hbelow; rw [(hrest q hbelow.1 hq).1]
    · rfl

theorem answers_delimit {listed : Table Path Nat} {below : Path} {entries : Table Path OverlayEntry}
    (h : ∀ q, listed.get q = if below <+: q ∧ below ≠ q then (ns q).map (·.length) else none) :
    Answers ns (.listing below true entries) (.ok (delimit below listed)) := by
  -- strictly below the prefix there is at least one more segment
  have hlonger : ∀ q, below <+: q → below ≠ q → below.length < q.length := by
    intro q hq hne
    refine lt_of_le_of_ne hq.length_le fun hlen => hne (hq.eq_of_length hlen)
  refine ⟨_, _, rfl, fun q => ?_, fun c => ?_⟩
  · rw [get_filterMapVals, h, length_drop]
    by_cases hq : below <+: q ∧ below ≠ q
    · have hlt := hlonger q hq.1 hq.2
      rw [if_pos hq]
      by_cases hchild : q.length = below.length + 1
      · simp only [hq.1, hchild, Nat.add_sub_cancel_left, le_refl, if_true, and_self, bind_fun_some]
      · have hdeep : ¬q.length - below.length ≤ 1 := by omega
        simp only [hchild, hdeep, if_false, and_false, bind_fun_none]
    · rw [if_neg hq, if_neg, bind_none]; rintro ⟨hpre, hlen⟩; exact hq ⟨hpre, by rintro rfl; omega⟩
  · simp only [List.mem_toFinset, mem_filterMap, length_drop, ite_none_left_eq_some, some.injEq]
    constructor
    · rintro ⟨⟨q, size⟩, hrow, hdeep, rfl⟩
      dsimp only at hdeep ⊢
      have hget := mem_entries.1 hrow
      rw [h] at hget
      split at hget
      · rename_i hq
        obtain ⟨b, hb, -⟩ := map_eq_some_iff.1 hget
        obtain ⟨rest, rfl⟩ := hq.1
        exact ⟨below ++ rest, b, hb, hq.1, by omega, by rw [drop_left, take_length_add_append]⟩
      · cases hget
    · rintro ⟨q, b, hb, ⟨rest, rfl⟩, hdeep, rfl⟩
      refine ⟨⟨below ++ rest, b.length⟩, mem_entries.2 ?_, by dsimp only; omega,
        by rw [drop_left, take_length_add_append]⟩
      have hne : below ≠ below ++ rest := fun heq => by
        rw [← heq] at hdeep
        omega
      rw [h, if_pos ⟨prefix_append _ _, hne⟩, hb]
      rfl

/-! ## Runs -/

namespace Serve

/-- What every run keeps. -/
structure Ok (cfg : Config) (ns : Namespace) (s : Serve) : Prop where
  shows : Tier.Shows True cfg ns s.tier
  readers : ∀ id n rd, s.readers.get id = some (n, rd) → n ≤ s.tier.accepted.length ∧ ReaderOk ns s.tier n rd
  cache : CacheOk s.tier.accepted s.cache

variable {s s' : Serve} {n : Nat}

/-- A step of the tier leaves the reads alone, unless it is a restart, which ends them. -/
theorem step_tier (h : s.step cfg (.tier a) = some s') : s.tier.step cfg a = some s'.tier ∧
    (s'.readers = empty ∧ s'.cache = [] ∨ a ≠ .restart ∧ s'.readers = s.readers ∧ s'.cache ⊆ s.cache) := by
  cases a with
  | restart => obtain ⟨t, ht, rfl⟩ := map_eq_some_iff.1 h; exact ⟨ht, .inl ⟨rfl, rfl⟩⟩
  | retire =>
    obtain ⟨t, ht, rfl⟩ := map_eq_some_iff.1 h
    exact ⟨ht, .inr ⟨by simp, rfl, filter_subset_self _⟩⟩
  | terminate => cases h; exact ⟨rfl, .inr ⟨by simp, rfl, List.Subset.refl _⟩⟩
  | _ =>
    obtain ⟨t, ht, rfl⟩ := map_eq_some_iff.1 h
    exact ⟨ht, .inr ⟨by simp, rfl, List.Subset.refl _⟩⟩

theorem punctual_of_seamless (h : Seamless s (.tier a)) : Tier.Punctual s.tier a := by
  cases a <;> first | rfl | cases h

theorem Ok.tier (h : Ok cfg ns s) (hc : Seamless s (.tier a)) (hs : s.step cfg (.tier a) = some s') : Ok cfg ns s' := by
  obtain ⟨ht, hframe⟩ := step_tier hs
  have hpunctual := punctual_of_seamless hc
  refine ⟨Tier.step_shows h.shows (fun _ => hpunctual) ht, fun id n rd hrd => ?_, ?_⟩
  · rcases hframe with ⟨hnone, -⟩ | ⟨ha, hreaders, -⟩
    · rw [hnone] at hrd; cases hrd
    rw [hreaders] at hrd
    obtain ⟨hn, hok⟩ := h.readers id n rd hrd
    have hf := Tier.step_forward ha ht
    have hall : ∀ f : Nat × Reader → Bool, s.readers.entries.all (fun row => f row.2) = true → f (n, rd) = true :=
      fun f hf => all_eq_true.1 hf ⟨id, (n, rd)⟩ (mem_entries.2 hrd)
    refine ⟨?_, hok.forward hf hn h.shows.ok hpunctual ht ?_ ?_⟩
    · obtain ⟨l, hlog⟩ := hf.log; rw [hlog, length_append]; omega
    · rintro rfl; simpa using hall (fun row => !sampledRow (committedThrough s.tier) row.2) hc
    · rintro n' rfl hlisting
      have := hall (fun row => !isListing row.2 || n' ≤ row.1) hc
      simpa [hlisting] using this
  · rcases hframe with ⟨-, hnone⟩ | ⟨ha, -, hcache⟩
    · rw [hnone]; exact fun _ _ hb => by cases hb
    obtain ⟨l, hlog⟩ := (Tier.step_forward ha ht).log
    rw [hlog]
    exact fun n b hb => h.cache.append l n b (hcache hb)

/-- The row that a read has sampled gives the bytes of its record. -/
theorem loadPayload_of_mutation {b : Payload} (hrow : t.journal.mutation n = some r) (hb : r.payload = some b) :
    t.loadPayload (.journal n) = some b := by
  show (t.journal.mutation n).bind (·.payload) = some b
  rw [hrow]
  exact hb

/-- What a read of a sampled entry answers, and what it leaves in the cache. -/
theorem Ok.finish_entry (h : Ok cfg ns s) {head : Bool} (hrd : ReaderOk ns s.tier n (.object p head (some e))) :
    Answers (applied (s.tier.accepted.take n) ns) (.object p head (some e)) (s.finish (.object p head (some e))).1 ∧
      CacheOk s.tier.accepted (s.finish (.object p head (some e))).2 := by
  obtain ⟨hentry, hrow⟩ := hrd
  change _ = objectAnswer head _ ∧ _
  cases hentry with
  | deleted r hv => rw [hv]; exact ⟨rfl, h.cache⟩
  | pending r b hb hv =>
    rw [hv]
    dsimp only [finish, entrySize]
    rw [hb]
    cases head <;> exact ⟨rfl, h.cache⟩
  | journal r b m hr hb hv =>
    rw [hv]
    dsimp only [finish, entrySize]
    rw [hb]
    cases head with
    | true => exact ⟨rfl, h.cache⟩
    | false =>
      have hload := loadPayload_of_mutation (hrow rfl m rfl) hb
      dsimp only
      rw [if_neg Bool.false_ne_true]
      split
      · rw [hload]; exact ⟨rfl, h.cache⟩
      cases hl : BlobCache.lookup s.cache m with
      | some hit =>
        obtain ⟨b', cache⟩ := hit
        obtain ⟨⟨r', hr', hb'⟩, hcache⟩ := h.cache.lookup hl
        rw [hr'.unique hr, hb] at hb'
        cases hb'
        exact ⟨rfl, hcache⟩
      | none => rw [hload]; exact ⟨rfl, h.cache.insert ⟨r, hr, hb⟩⟩

/-- **A read that ends now answers what the records accepted at some moment since its sample leave.** -/
theorem Ok.finish_answers (h : Ok cfg ns s) (hn : n ≤ s.tier.accepted.length)
    (hrd : ReaderOk ns s.tier n rd) :
    (∃ m, n ≤ m ∧ m ≤ s.tier.accepted.length ∧ Answers (applied (s.tier.accepted.take m) ns) rd (s.finish rd).1) ∧
      CacheOk s.tier.accepted (s.finish rd).2 := by
  match rd, hrd with
  | .object p head (some e), hrd =>
    obtain ⟨hanswer, hcache⟩ := h.finish_entry hrd
    exact ⟨⟨n, le_rfl, hn, hanswer⟩, hcache⟩
  | .object p head none, hrd =>
    obtain ⟨m, hm, hlen, hcontents⟩ := h.shows.ok.contents_settled hn hrd
    unfold Remote.contents at hcontents
    dsimp only [finish, Answers]
    cases hget : s.tier.remote.objects.get p with
    | none | some o =>
      rw [hget] at hcontents
      exact ⟨⟨m, hm, hlen, by rw [← hcontents]; rfl⟩, h.cache⟩
  | .listing below delimiter entries, hrd =>
    obtain ⟨merged, hok, hmerged⟩ := hrd.merge
    dsimp only [finish]
    rw [hok]
    refine ⟨⟨n, le_rfl, hn, ?_⟩, h.cache⟩
    cases delimiter with
    | false => exact ⟨merged, rfl, hmerged⟩
    | true => exact answers_delimit hmerged

/-- A read that starts has sampled what the tier shows now. -/
theorem Ok.opened {id : Nat} (h : Ok cfg ns s) (hrd : ReaderOk ns s.tier s.tier.accepted.length rd) :
    Ok cfg ns { s with readers := s.readers.put id (s.tier.accepted.length, rd) } :=
  { h with
    readers := fun id' n rd' hget => by
      rcases cases_put hget with ⟨-, heq⟩ | ⟨-, hget⟩
      · cases heq; exact ⟨le_rfl, hrd⟩
      · exact h.readers id' n rd' hget }

theorem step_ok {a : ServeAction} (h : Ok cfg ns s) (hc : Seamless s a) (hs : s.step cfg a = some s') :
    Ok cfg ns s' := by
  cases a with
  | tier a => exact h.tier hc hs
  | openObject id path head => obtain ⟨-, rfl⟩ := of_guard_not hs; exact h.opened (h.shows.object_ok path head)
  | openListing id below delimiter =>
    obtain ⟨-, rfl⟩ := of_guard_not hs
    exact h.opened (h.shows.listing_ok below delimiter (by simpa [Seamless, seamless] using hc))
  | close id =>
    obtain ⟨⟨n, rd⟩, hrd, rfl⟩ := map_eq_some_iff.1 hs
    obtain ⟨hn, hok⟩ := h.readers id n rd hrd
    refine ⟨h.shows, fun id' n' rd' hrd' => ?_, (h.finish_answers hn hok).2⟩
    exact h.readers id' n' rd' (of_del hrd').2

def boot (remote : Remote) : Serve := { tier := Tier.boot remote }

theorem reach_ok {remote : Remote} (h : Machine.Reach (step cfg) Seamless (boot remote) s) :
    Ok cfg remote.contents s := by
  refine h.invariant ⟨Tier.boot_shows True cfg remote, nofun, nofun⟩ ?_
  exact fun _ _ _ hok hc hs => step_ok hok hc hs

/-- **Reads are transparent.** In a run whose steps are all seamless, a read in progress that ends now answers what the
literal namespace held at some moment since the read sampled. -/
theorem reads_transparent {remote : Remote} (h : Machine.Reach (step cfg) Seamless (boot remote) s) {id : Nat}
    (hrd : s.readers.get id = some (n, rd)) :
    ∃ m, n ≤ m ∧ m ≤ s.tier.accepted.length ∧
      Answers (literalOf (s.tier.accepted.take m) remote.contents) rd (s.finish rd).1 := by
  have hok := reach_ok h
  obtain ⟨hn, hreader⟩ := hok.readers id n rd hrd
  obtain ⟨⟨m, hm, hlen, hanswer⟩, -⟩ := hok.finish_answers hn hreader
  refine ⟨m, hm, hlen, ?_⟩
  rwa [applied_eq_literal ((hok.shows.entered.take m).sourced trivial)]

/-- A `get` samples the row of the first put, which then drains. -/
def getAcross : List ServeAction :=
  (Action.accept (.put ["a"] [2] .overwrite false) :: Tier.publish 1).map .tier ++ [.openObject 0 ["a"] false] ++
    [.prepare 1, .effect 1, .complete 1, .startCommit, .mark, .retire].map .tier

theorem reads_transparent_getAcross :
    ∃ s rd, Machine.Reach (step Tier.sampleConfig) Seamless (boot Tier.sampleRemote) s ∧
    s.readers.get 0 = some (1, rd) ∧ ∃ m, 1 ≤ m ∧ m ≤ s.tier.accepted.length ∧
      Answers (literalOf (s.tier.accepted.take m) Tier.sampleRemote.contents) rd (s.finish rd).1 := by
  obtain ⟨s, rd, hs, hrd⟩ : ∃ s rd, run (guarded (step Tier.sampleConfig) Seamless) (boot Tier.sampleRemote) getAcross =
    some s ∧ s.readers.get 0 = some (1, rd) := ⟨_, _, rfl, rfl⟩
  have hreach := reach_of_run .init hs
  exact ⟨s, rd, hreach, hrd, reads_transparent hreach hrd⟩

/-- A second put of the path and a put of another one, and the drain of all three. -/
def laterPuts : List Action :=
  [.accept (.put ["a"] [3, 3] .overwrite false), .accept (.put ["b"] [4] .overwrite false)] ++ Tier.publish 3 ++
    Tier.drainPut 1 ++ [.dispatch] ++ Tier.drainPut 2 ++ [.dispatch] ++ Tier.drainPut 3

/-- A listing samples the first put, and two later ones are drained before it lists the store. -/
def listAcross : List ServeAction :=
  [.tier (.accept (.put ["a"] [2] .overwrite false)), .openListing 0 [] false] ++ laterPuts.map .tier

/-- The read answers what the literal namespace held at no moment since it sampled. -/
def Untransparent (s : Serve) (ns : Namespace) (id : Nat) : Prop :=
  ∃ n rd, s.readers.get id = some (n, rd) ∧
    ¬∃ m, n ≤ m ∧ m ≤ s.tier.accepted.length ∧ Answers (literalOf (s.tier.accepted.take m) ns) rd (s.finish rd).1

/-- A `get` whose row is pruned fails; a listing shows a later put and not an earlier one; and a listing shows the
pending object at its own prefix. -/
theorem reads_not_transparent :
    (∃ s, Machine.Reach (step Tier.sampleConfig) anyStep (boot Tier.sampleRemote) s ∧
      Untransparent s Tier.sampleRemote.contents 0 ∧ ∃ n rd, s.readers.get 0 = some (n, rd) ∧
      (s.finish rd).1 = .error .generic) ∧
    (∃ s, Machine.Reach (step Tier.sampleConfig) anyStep (boot Tier.sampleRemote) s ∧
      Untransparent s Tier.sampleRemote.contents 0 ∧
      ∃ n entries, s.readers.get 0 = some (n, .listing [] false entries)) ∧
    ∃ s, Machine.Reach (step Tier.sampleConfig) anyStep (boot Tier.sampleRemote) s ∧
      Untransparent s Tier.sampleRemote.contents 0 ∧
      ∃ n entries, s.readers.get 0 = some (n, .listing ["a"] false entries) := by
  refine ⟨?_, ?_, ?_⟩
  · obtain ⟨s, entry, hs, hrd, hfails⟩ : ∃ s entry,
        run (guarded (step Tier.sampleConfig) anyStep) (boot Tier.sampleRemote)
          (getAcross ++ [.tier .prune]) = some s ∧ s.readers.get 0 = some (1, .object ["a"] false entry) ∧
          (s.finish (.object ["a"] false entry)).1 = .error .generic := ⟨_, _, rfl, rfl, rfl⟩
    refine ⟨s, reach_of_run .init hs, ⟨1, _, hrd, ?_⟩, 1, _, hrd, hfails⟩
    rintro ⟨m, -, -, hanswer⟩
    change _ = objectAnswer false _ at hanswer
    rw [hfails] at hanswer
    unfold objectAnswer at hanswer
    split at hanswer <;> cases hanswer
  · obtain ⟨s, entries, listed, hs, hrd, hfinish, ha, hb, hlen⟩ : ∃ s entries listed,
      run (guarded (step Tier.sampleConfig) anyStep) (boot Tier.sampleRemote) listAcross = some s ∧
      s.readers.get 0 = some (1, .listing [] false entries) ∧
      (s.finish (.listing [] false entries)).1 = .ok (.listing listed) ∧ listed.get ["a"] = some 1 ∧
      listed.get ["b"] = some 1 ∧ s.tier.accepted = [⟨1, ["a"], .put .overwrite none [2], ⟨1, 1⟩, none, .fence⟩,
      ⟨2, ["a"], .put .overwrite none [3, 3], ⟨1, 2⟩, none, .fence⟩,
      ⟨3, ["b"], .put .overwrite none [4], ⟨1, 3⟩, none, .fence⟩] := ⟨_, _, _, rfl, rfl, rfl, rfl, rfl, rfl⟩
    refine ⟨s, reach_of_run .init hs, ⟨1, _, hrd, ?_⟩, 1, entries, hrd⟩
    rintro ⟨m, hm, hle, hanswer⟩
    obtain ⟨listed', heq, hlisted⟩ := hanswer
    rw [hfinish] at heq
    cases heq
    have hlista := hlisted ["a"]
    have hlistb := hlisted ["b"]
    rw [ha, hlen, if_pos (by decide)] at hlista
    rw [hb, hlen, if_pos (by decide)] at hlistb
    rw [hlen] at hle
    obtain rfl | rfl | rfl : m = 1 ∨ m = 2 ∨ m = 3 := by
      simp only [length_cons, length_nil] at hle
      omega
    · revert hlistb
      decide +kernel
    · revert hlista
      decide +kernel
    · revert hlista
      decide +kernel
  · obtain ⟨s, entries, listed, hs, hrd, hfinish, ha⟩ : ∃ s entries listed,
        run (guarded (step Tier.sampleConfig) anyStep) (boot Tier.sampleRemote)
          [.tier (.accept (.put ["a"] [2] .overwrite false)), .openListing 0 ["a"] false] = some s ∧
          s.readers.get 0 = some (1, .listing ["a"] false entries) ∧
          (s.finish (.listing ["a"] false entries)).1 = .ok (.listing listed) ∧ listed.get ["a"] = some 1 :=
      ⟨_, _, _, rfl, rfl, rfl, rfl⟩
    refine ⟨s, reach_of_run .init hs, ⟨1, _, hrd, ?_⟩, 1, entries, hrd⟩
    rintro ⟨m, -, -, hanswer⟩
    obtain ⟨listed', heq, hlisted⟩ := hanswer
    rw [hfinish] at heq
    cases heq
    have hlista := hlisted ["a"]
    rw [ha, if_neg (by decide)] at hlista
    cases hlista

end Serve

end ZeroFS.Writeback
