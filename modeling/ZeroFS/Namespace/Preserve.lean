import ZeroFS.Namespace.Consistent

/-!
# Edits that keep the namespace consistent

The transactions are made of a few edits, with one lemma each. The directories whose entries an edit changes become
`stale`, until `ConsistentUpTo.settle` saves their record and refreshes the copy in their scan row.
-/

namespace ZeroFS
namespace NsDb

variable {db : NsDb} {next : Nat} {stale : List InodeId}

/-! ## Facts about consistent tables -/

section

variable {i : InodeId} {d d' : DirectoryInode} {c : Nat} {n : Name} {db' : NsDb}

section

variable (h : db.ConsistentUpTo stale next)
include h

theorem ConsistentUpTo.get_next : db.inodes.get next = none := by
  by_contra hc
  have := h.id_lt next (Option.isSome_iff_ne_none.2 hc)
  omega

theorem ConsistentUpTo.no_entry (hi : db.inodes.get i = none)
    (d : InodeId) (n : Name) (c : Nat) : db.entries.get (d, n) ≠ some (i, c) := by
  intro he
  obtain ⟨_, ⟨l, hl, _⟩ | ⟨dd, hl, _⟩⟩ := h.entry_ok d n i c he <;> rw [hi] at hl <;> cases hl

theorem ConsistentUpTo.scan_entry {d : InodeId}
    {v : DirScanValue} (hs : db.scans.get (d, c) = some (n, v)) : EntryOk db.inodes d n v.inodeId :=
  h.entry_ok d n _ c (h.entry_scan.entry hs)

theorem ConsistentUpTo.fresh_cookie (d : InodeId) :
    db.scans.get (d, db.readCookie d) = none := by
  by_contra hc
  have := h.cookie_lt d _ (Option.isSome_iff_ne_none.2 hc)
  omega

/-- An entry of a directory sits where its record says. -/
theorem ConsistentUpTo.dir_entry {d' : InodeId}
    (hi : db.inodes.get i = some (.directory d)) (he : db.entries.get (d', n) = some (i, c)) :
    d.parent = d' ∧ d.name = some n ∧ d' ≠ i := by
  obtain ⟨_, ⟨l, hl, _⟩ | ⟨dd, hl, hp, hn, hne⟩⟩ := h.entry_ok d' n i c he
  · rw [hi] at hl; cases hl
  · rw [hi] at hl; cases hl; exact ⟨hp, hn, hne⟩

theorem ConsistentUpTo.ne_root {d : InodeId}
    (he : db.entries.get (d, n) = some (i, c)) : i ≠ 0 := by
  rintro rfl
  have hroot := h.root_dir
  rcases h.entry_ok d n 0 c he with ⟨_, ⟨l, hl, _⟩ | ⟨dd, hl, _, hn, _⟩⟩
  · rw [isDirId_of_get hl] at hroot; cases hroot
  · exact ((h.dir_placed 0 dd hl).entry hn).2.1 rfl

theorem ConsistentUpTo.nlink_ne_zero {d : InodeId}
    {ino : Inode} (he : db.entries.get (d, n) = some (i, c)) (hi : db.inodes.get i = some ino) : ino.nlink ≠ 0 := by
  cases ino with
  | leaf l => have := links_pos he; rw [← (h.leaf_ok i l hi).1] at this; exact Nat.ne_of_gt this
  | directory dd => exact Nat.ne_of_gt ((h.dir_placed i dd hi).entry (h.dir_entry hi he).2.1).1

theorem ConsistentUpTo.isDirId_entry {d : InodeId}
    (he : db.entries.get (d, n) = some (i, c)) : IsDirId db.inodes d := by
  obtain ⟨⟨dd, hdd, _⟩, _⟩ := h.entry_ok d n i c he
  exact (isDirId_of_get hdd).2 rfl

theorem ConsistentUpTo.weaken (hi : IsDirId db.inodes i) :
    db.ConsistentUpTo (i :: stale) next where
  entry_scan := h.entry_scan
  scan_ok d c n v hs hv := h.scan_ok d c n v hs fun hm => hv (List.mem_cons_of_mem _ hm)
  entry_ok := h.entry_ok
  leaf_ok := h.leaf_ok
  dir_placed := h.dir_placed
  dir_counted j d hj hm := h.dir_counted j d hj fun hm' => hm (List.mem_cons_of_mem _ hm')
  root_dir := h.root_dir
  stale_dir j hj := by
    rcases List.mem_cons.1 hj with rfl | hj
    · exact hi
    · exact h.stale_dir j hj
  orphan_iff := h.orphan_iff
  cookie_lt := h.cookie_lt
  id_lt := h.id_lt

end

/-! ## Settling a directory -/

theorem refreshOwnEntry_none (hn : d.name = none) : db.refreshOwnEntry i d = [] := by
  simp [refreshOwnEntry, hn]

theorem refreshOwnEntry_some {j : InodeId} (hn : d.name = some n)
    (he : db.entries.get (d.parent, n) = some (j, c)) :
    db.refreshOwnEntry i d = [.putScan d.parent c n (.withInode i (.directory d))] := by
  simp [refreshOwnEntry, hn, updateInodeInEntry, getEntryWithCookie, he, Except.toOption]
  rfl

theorem refreshOwnEntry_cases (db : NsDb) (i : InodeId) (d : DirectoryInode) :
    db.refreshOwnEntry i d = [] ∨ ∃ p c n v, db.refreshOwnEntry i d = [.putScan p c n v] := by
  cases hn : d.name with
  | none => exact .inl (refreshOwnEntry_none hn)
  | some n =>
    cases he : db.entries.get (d.parent, n) with
    | none =>
      simp only [refreshOwnEntry, hn, updateInodeInEntry, getEntryWithCookie, he]
      exact .inl rfl
    | some e => exact .inr ⟨_, _, _, _, refreshOwnEntry_some hn he⟩

/-- The records and the entries after a directory was saved and its entry refreshed. -/
theorem settle_tables (db db' : NsDb) (i : InodeId) (d : DirectoryInode) :
    (db.commit ([.saveInode i (.directory d)] ++ db'.refreshOwnEntry i d)).inodes = db.inodes.put i (.directory d) ∧
      (db.commit ([.saveInode i (.directory d)] ++ db'.refreshOwnEntry i d)).entries = db.entries := by
  rcases refreshOwnEntry_cases db' i d with he | ⟨p, c, n, v, he⟩
  · rw [he]; exact ⟨rfl, rfl⟩
  · rw [he]; exact ⟨rfl, rfl⟩

theorem ConsistentUpTo.saveDir (h : db.ConsistentUpTo (i :: stale) next)
    (hi : db.inodes.get i = some (.directory d)) (hp : d'.parent = d.parent) (hn : d'.name = d.name)
    (hl : d'.nlink = 0 ↔ d.nlink = 0) :
    (db.commit [.saveInode i (.directory d')]).ConsistentUpTo (i :: stale) next := by
  have hdir := isDirId_of_get hi
  have hkind : ∀ x, subdirs (db.inodes.put i (.directory d')) db.entries x = subdirs db.inodes db.entries x := by
    apply subdirs_congr
    intro d n i c he
    grind
  simp only [commit_cons, commit_nil, apply]
  refine { h with scan_ok := ?_, entry_ok := ?_, leaf_ok := ?_, dir_placed := ?_, dir_counted := ?_, root_dir := ?_,
                  stale_dir := ?_, orphan_iff := ?_, id_lt := ?_ }
  · intro x c n v hs hv; have hold := h.scan_ok x c n v hs hv; cases v <;> grind [ScanOk]
  · intro x n j c he; have hold := h.entry_ok x n j c he; grind [EntryOk]
  · intro j l hj; have hold := h.leaf_ok j l; grind
  · intro j e hj; have hold := h.dir_placed j; grind [DirPlaced]
  · intro j e hj hm; have hold := h.dir_counted j e; grind [DirCounted]
  · have := h.root_dir; grind
  · intro j hj; have := h.stale_dir j hj; grind
  · intro j; have := h.orphan_iff j; grind
  · intro j; have := h.id_lt j; grind

theorem ConsistentUpTo.refresh (h : db.ConsistentUpTo (i :: stale) next)
    (hi : db.inodes.get i = some (.directory d)) (hc : DirCounted db.inodes db.entries i d) :
    (db.commit (db.refreshOwnEntry i d)).ConsistentUpTo stale next := by
  have hcount : ∀ j e, db.inodes.get j = some (.directory e) → j ∉ stale → DirCounted db.inodes db.entries j e := by
    intro j e hj hm
    by_cases hij : j = i
    · subst hij
      rw [hi] at hj; cases hj; exact hc
    · exact h.dir_counted j e hj (by simp [hij, hm])
  have hstale : ∀ j ∈ stale, IsDirId db.inodes j := fun j hj => h.stale_dir j (List.mem_cons_of_mem _ hj)
  -- every scan row of the directory sits at the place its record names
  have hrow : ∀ d' c n v, db.scans.get (d', c) = some (n, v) → v.inodeId = i → d.parent = d' ∧ d.name = some n := by
    intro d' c n v hs hv
    have hent := h.entry_scan.entry hs
    rw [hv] at hent
    exact ⟨(h.dir_entry hi hent).1, (h.dir_entry hi hent).2.1⟩
  cases hname : d.name with
  | none =>
    rw [refreshOwnEntry_none hname, commit_nil]
    refine { h with scan_ok := ?_, dir_counted := hcount, stale_dir := hstale }
    intro d' c n v hs hv
    refine h.scan_ok d' c n v hs fun hmem => ?_
    rcases List.mem_cons.1 hmem with hi' | hmem
    · have := (hrow d' c n v hs hi').2; rw [hname] at this; cases this
    · exact hv hmem
  | some n₀ =>
    obtain ⟨_, _, c₀, he⟩ := (h.dir_placed i d hi).entry hname
    rw [refreshOwnEntry_some hname he, commit_cons, commit_nil]
    simp only [apply]
    refine { h with
      entry_scan := h.entry_scan.rewrite he rfl, scan_ok := ?_, dir_counted := hcount, stale_dir := hstale,
                    cookie_lt := ?_ }
    · intro d' c n v hs hv
      rw [Table.get_put] at hs
      split at hs
      · cases hs; exact ⟨hi, fun l hl => by cases hl⟩
      rename_i hne
      refine h.scan_ok d' c n v hs fun hmem => ?_
      rcases List.mem_cons.1 hmem with hi' | hmem
      · -- a second row of the directory would be at its own entry
        obtain ⟨hp, hn⟩ := hrow d' c n v hs hi'
        have hent := h.entry_scan.entry hs
        rw [hname] at hn
        cases hn
        rw [← hp, he] at hent
        cases hent
        exact hne (by rw [hp])
      · exact hv hmem
    · intro d' c hs
      rw [Table.get_put] at hs
      split at hs
      · rename_i heq
        cases heq
        obtain ⟨v, hv, _⟩ := h.entry_scan.scan he
        exact h.cookie_lt _ _ (by rw [hv]; rfl)
      · exact h.cookie_lt d' c hs

theorem refreshOwnEntry_congr
    (h : ∀ n, d.name = some n → db'.entries.get (d.parent, n) = db.entries.get (d.parent, n)) :
    db'.refreshOwnEntry i d = db.refreshOwnEntry i d := by
  cases hn : d.name with
  | none => rw [refreshOwnEntry_none hn, refreshOwnEntry_none hn]
  | some n => simp [refreshOwnEntry, hn, updateInodeInEntry, getEntryWithCookie, h n hn]

/-- **Settling a stale directory**: its record is saved with the right counts and the copy in its scan row, found in the
tables the operation started from, is refreshed. -/
theorem ConsistentUpTo.settle
    (h : db.ConsistentUpTo (i :: stale) next) (hi : db.inodes.get i = some (.directory d)) (hp : d'.parent = d.parent)
    (hn : d'.name = d.name) (hl : d'.nlink = 0 ↔ d.nlink = 0) (hc : DirCounted db.inodes db.entries i d')
    (hread : ∀ n, d.name = some n → db'.entries.get (d.parent, n) = db.entries.get (d.parent, n)) :
    (db.commit ([.saveInode i (.directory d')] ++ db'.refreshOwnEntry i d')).ConsistentUpTo stale next := by
  have hsave := h.saveDir hi hp hn hl
  have hget : (db.commit [.saveInode i (.directory d')]).inodes.get i = some (.directory d') := by
    simp [apply]
  have hdir := isDirId_of_get hi
  have hkind : subdirs (db.inodes.put i (.directory d')) db.entries i = subdirs db.inodes db.entries i := by
    apply subdirs_congr
    intro d n j c _
    grind
  have hown : db'.refreshOwnEntry i d' = (db.commit [.saveInode i (.directory d')]).refreshOwnEntry i d' := by
    apply refreshOwnEntry_congr
    intro n hn'
    rw [hp]
    exact hread n (hn ▸ hn')
  rw [commit_append, hown]
  refine hsave.refresh hget ?_
  exact ⟨hc.1, fun h0 => by rw [hc.2 h0]; simp [apply, hkind]⟩

/-! ## Adding the entry of a new inode -/

end

/-- The record of a new child at `dirid/name`. -/
def NewChild (dirid : InodeId) (name : Name) : Inode → Prop
  | .leaf l => l.nlink = 1 ∧ l.parent = some dirid ∧ l.name = some name
  | .directory d => d.nlink = 2 ∧ d.entryCount = 0 ∧ d.parent = dirid ∧ d.name = some name

theorem ConsistentUpTo.addNew {dirid : InodeId} {name : Name} {dir : DirectoryInode} {child : Inode}
    (h : db.Consistent next) (hd : db.inodes.get dirid = some (.directory dir)) (hn : dir.nlink ≠ 0)
    (hne : db.entries.get (dirid, name) = none) (hchild : NewChild dirid name child) :
    (db.commit ([.putCounter dirid (db.readCookie dirid + 1), .saveInode next child]
      ++ add dirid name next (db.readCookie dirid) (some child))).ConsistentUpTo [dirid] (next + 1) := by
  have hnext := h.get_next
  have hnolink := h.no_entry hnext
  have hnext0 : next ≠ 0 := by
    intro e
    have := h.root_dir
    rw [← e, IsDirId, hnext] at this
    cases this
  have hkids : children db.entries next = 0 := children_eq_zero_iff.2 fun n v hv => by
    obtain ⟨⟨dd, hdd, _⟩, _⟩ := h.entry_ok next n v.1 v.2 hv
    rw [hnext] at hdd; cases hdd
  have hlinks : links db.entries next = 0 := links_eq_zero_iff.2 hnolink
  have hsub := subdirs_eq_zero_of_children db.inodes hkids
  have hdird := isDirId_of_get hd
  -- the kind of every inode already named is unchanged
  have hkind : ∀ x, subdirs (db.inodes.put next child) db.entries x = subdirs db.inodes db.entries x := by
    apply subdirs_congr
    intro d n i c he
    grind
  have hfind : ∀ x i p n c, i ≠ next → db.entries.get (p, n) = some (i, c) →
      (db.entries.put (dirid, name) (next, x)).get (p, n) = some (i, c) := by
    intro x i p n c hi he
    grind
  simp only [add, List.cons_append, List.nil_append, commit_cons, commit_nil, apply, DirScanValue.of]
  refine ⟨h.entry_scan.add hne (h.fresh_cookie dirid) rfl, ?_, ?_, ?_, ?_, ?_, ?_, ?_, ?_, ?_, ?_⟩
  · intro d c n v hs hst
    have hold := h.scan_ok d c n v
    have hent := fun hs => h.scan_entry (d := d) (c := c) (n := n) (v := v) hs
    cases v <;> cases child <;> grind [ScanOk, NewChild, EntryOk]
  · intro d n i c he; have hold := h.entry_ok d n i c; cases child <;> grind [EntryOk, NewChild]
  · intro i l hi
    have hcount := links_add (i := next) (c := db.readCookie dirid) hne i
    rcases Table.cases_put hi with ⟨rfl, rfl⟩ | ⟨hid, hi⟩
    · refine ⟨?_, .inr ⟨dirid, name, db.readCookie dirid, hchild.2.1, hchild.2.2, hchild.1, by simp⟩⟩
      simp only [if_true] at hcount
      rw [hcount, hlinks]
      exact hchild.1
    · exact (h.leaf_ok i l hi).frame (by simpa [Ne.symm hid] using hcount) fun p n c => hfind _ i p n c hid
  · intro i d hi
    rcases Table.cases_put hi with ⟨rfl, rfl⟩ | ⟨hid, hi⟩
    · exact .inr ⟨by rw [hchild.1]; decide,
        .inr ⟨name, db.readCookie dirid, hchild.2.2.2, hnext0, by simp [hchild.2.2.1]⟩⟩
    · exact (h.dir_placed i d hi).frame fun p n c => hfind _ i p n c hid
  · intro i d hi hst
    have h1 := children_add (i := next) (c := db.readCookie dirid) hne i
    have h2 := subdirs_add (db.inodes.put next child) (i := next) (c := db.readCookie dirid) hne i
    have hold := h.dir_counted i d
    cases child <;> grind [DirCounted, NewChild]
  · have := h.root_dir; grind
  · grind
  · intro i; have := h.orphan_iff i; cases child <;> grind [NewChild]
  · intro d c; have := h.cookie_lt d c; grind [readCookie]
  · intro i; have := h.id_lt i; grind

/-! ## Adding the entry of an existing inode -/

theorem convertToReference_eq {p : InodeId} {n : Name} {id j : InodeId} {c : Nat}
    (he : db.entries.get (p, n) = some (j, c)) :
    db.convertToReference p n id = .ok [.putScan p c n (.reference id)] := by
  simp [convertToReference, getEntryWithCookie, he]
  rfl

/-- The writes that turn the scan row of a placed leaf into a reference. -/
def Unembeds (db : NsDb) (id : InodeId) (l : LeafInode) (ws : List NsWrite) : Prop :=
  (l.parent = none ∧ ws = []) ∨
    ∃ p n c, l.parent = some p ∧ l.name = some n ∧ db.entries.get (p, n) = some (id, c) ∧
      ws = [.putScan p c n (.reference id)]

/-- The scan rows after the row of a placed leaf was rewritten to `v₀`; the leaf has no other row. -/
theorem ConsistentUpTo.rewriteRow {id : InodeId} {l : LeafInode} {ws : List NsWrite} (h : db.Consistent next)
    (hf : db.inodes.get id = some (.leaf l)) (v₀ : DirScanValue) (hv₀ : v₀.inodeId = id)
    (hws : (l.parent = none ∧ ws = []) ∨ ∃ p n c, l.parent = some p ∧ l.name = some n ∧
      db.entries.get (p, n) = some (id, c) ∧ ws = [.putScan p c n v₀]) :
    ∃ scans : ScanTable, EntryScan db.entries scans ∧
      (∀ db' : NsDb, db'.scans = db.scans → db'.commit ws = { db' with scans := scans }) ∧
      (∀ d c, (scans.get (d, c)).isSome = (db.scans.get (d, c)).isSome) ∧
      ∀ d c n v, scans.get (d, c) = some (n, v) →
        (v = v₀ ∧ l.parent = some d ∧ l.name = some n ∨ v = .reference id ∧ l.parent = none) ∨
          v.inodeId ≠ id ∧ db.scans.get (d, c) = some (n, v) := by
  rcases hws with ⟨hpar, rfl⟩ | ⟨p, n₀, c₀, hpar, hname₀, he, rfl⟩
  · refine ⟨db.scans, h.entry_scan, fun db' e => by rw [← e, commit_nil], fun _ _ => rfl, fun d c n v hs => ?_⟩
    have hold := h.scan_ok d c n v hs (by simp)
    by_cases hv : v.inodeId = id
    · cases v <;> grind [ScanOk]
    · exact .inr ⟨hv, hs⟩
  refine ⟨_, h.entry_scan.rewrite he hv₀, fun db' e => by rw [← e]; rfl, ?_, ?_⟩
  · intro d c; obtain ⟨v, hv, _⟩ := h.entry_scan.scan he; grind
  intro d c n v hs
  rw [Table.get_put] at hs
  split at hs
  · rename_i hkey
    cases hkey
    cases hs
    exact .inl (.inl ⟨rfl, hpar, hname₀⟩)
  · refine .inr ⟨fun hv => ?_, hs⟩
    -- a placed leaf has no other entry
    have hent := h.entry_scan.entry hs
    have hok := h.entry_ok _ _ _ _ hent
    grind [EntryOk]

theorem ConsistentUpTo.addLink {fileid dirid : InodeId} {name : Name} {dir : DirectoryInode} {l l' : LeafInode}
    {unembed : List NsWrite} (h : db.Consistent next) (hd : db.inodes.get dirid = some (.directory dir))
    (hn : dir.nlink ≠ 0) (hf : db.inodes.get fileid = some (.leaf l)) (hne : db.entries.get (dirid, name) = none)
    (hun : Unembeds db fileid l unembed) (hl' : l'.nlink = l.nlink + 1)
    (hplace : if l.nlink = 0 then l'.parent = some dirid ∧ l'.name = some name else l'.parent = none ∧ l'.name = none) :
    (db.commit ([.putCounter dirid (db.readCookie dirid + 1)] ++ unembed
        ++ add dirid name fileid (db.readCookie dirid) (if l'.nlink = 1 then some (.leaf l') else none)
        ++ (if l.nlink = 0 then [.removeOrphan fileid] else [])
        ++ [.saveInode fileid (.leaf l')])).ConsistentUpTo [dirid] next := by
  have hdf : dirid ≠ fileid := by
    intro e; rw [e, hf] at hd; cases hd
  have hleaf := h.leaf_ok _ _ hf
  have hdird := isDirId_of_get hd
  have hdirf := isDirId_of_get hf
  have hkind : ∀ x, subdirs (db.inodes.put fileid (.leaf l')) db.entries x = subdirs db.inodes db.entries x := by
    apply subdirs_congr
    intro d n i c he
    grind
  obtain ⟨scans₁, hscans, hcommit, hs1, hsrow⟩ := h.rewriteRow hf (.reference fileid) rfl hun
  have hfresh₁ : scans₁.get (dirid, db.readCookie dirid) = none := by
    have := hs1 dirid (db.readCookie dirid)
    rw [h.fresh_cookie dirid] at this
    simpa using this
  have horph : ∀ db' : NsDb, db'.commit (if l.nlink = 0 then [.removeOrphan fileid] else []) =
      { db' with orphans := if l.nlink = 0 then db'.orphans.del fileid else db'.orphans } := by
    intro db'; split <;> rfl
  rw [commit_append, commit_append, commit_append, commit_append,
    hcommit (db.commit [.putCounter dirid (db.readCookie dirid + 1)]) rfl, horph]
  simp only [add, commit_cons, commit_nil, apply]
  refine ⟨hscans.add hne hfresh₁ (by simp), ?_, ?_, ?_, ?_, ?_, ?_, ?_, ?_, ?_, ?_⟩
  · intro d c n v hs hst
    rw [Table.get_put] at hs
    split at hs
    · rename_i hkey
      cases hkey
      by_cases hl1 : l'.nlink = 1
      · grind [ScanOk, DirScanValue.of]
      · grind [ScanOk, DirScanValue.of]
    · rcases (hsrow d c n v hs).imp_left (fun hrow => hrow.elim And.left And.left) with rfl | ⟨hv, hs⟩
      · -- an old row of the leaf: it had a link before, so the record is placeless now
        have := links_pos (hscans.entry hs)
        grind [ScanOk, LeafOk]
      · have hold := h.scan_ok d c n v hs (by simp); cases v <;> grind [ScanOk]
  · intro d n i c he
    have hold := h.entry_ok d n i c
    have := fun he : db.entries.get (d, n) = some (i, c) => links_pos he
    grind [EntryOk, LeafOk]
  · intro i x hi
    have h2 := links_add (i := fileid) (c := db.readCookie dirid) hne i
    rw [Table.get_put] at hi
    split at hi
    · cases hi; grind [LeafOk]
    · rename_i hid; refine (h.leaf_ok i x hi).frame (by simpa [Ne.symm hid] using h2) ?_; grind
  · intro i x hi; refine (h.dir_placed i x (by grind)).frame ?_; grind
  · intro i x hi hst
    have h1 := children_add (i := fileid) (c := db.readCookie dirid) hne i
    have h3 := subdirs_add (db.inodes.put fileid (.leaf l')) (i := fileid) (c := db.readCookie dirid) hne i
    have hold := h.dir_counted i x
    grind [DirCounted]
  · have := h.root_dir; grind
  · grind
  · intro i; have := h.orphan_iff i; grind
  · intro d c; have := h.cookie_lt d c; grind [readCookie]
  · intro i; have := h.id_lt i; grind

end NsDb
end ZeroFS
