import ZeroFS.Namespace.Locked
import ZeroFS.Ninep.Fids

/-!
# The paths that fids remember

A fid is bound with a path that leads to its inode. It still leads there as long as no rename and no removal has taken
away or replaced an entry that it passes through. A monitor keeps the fids of which that is not known (`cutAfter`):
those whose path has been cut, those that were walked from such a fid, those rebound to a file with several links, and
those of a clamped `..`.
-/

namespace ZeroFS

open NsDb Table

/-! ## What a request leaves of the entries -/

namespace NsDb

variable {db : NsDb} {next : Nat} {now : Nat → Timestamp} {creds : Credentials} {ws : List NsWrite} {id : InodeId}

end NsDb

namespace NineP

variable {db db' : NsDb} {next next' : Nat} {creds : Credentials} {fid fid' : Fid} {i t d : InodeId}
  {name last : Name} {names : List Name}

/-! ## Following a path -/

def named (db : NsDb) (key : InodeId × Name) : Option InodeId := (db.entries.get key).map (·.1)

/-- The inode at the end of a path, through directories that exist. -/
def follow (db : NsDb) : InodeId → List Name → Option InodeId
  | id, [] => some id
  | id, name :: names =>
    if IsDirId db.inodes id then (named db (id, name)).bind fun child => follow db child names else none

/-- The entries that a path passes through. -/
def passed (db : NsDb) : InodeId → List Name → List (InodeId × Name)
  | _, [] => []
  | id, name :: names => (id, name) :: (named db (id, name)).elim [] fun child => passed db child names

theorem named_isDirId (h : db.Consistent next) (hn : named db (d, name) = some i) : IsDirId db.inodes d := by
  obtain ⟨⟨_, c⟩, he, -⟩ := Option.map_eq_some_iff.1 hn
  exact h.isDirId_entry he

theorem follow_cons (h : db.Consistent next) (hn : named db (d, name) = some i) :
    follow db d (name :: names) = follow db i names := by
  rw [follow, if_pos (named_isDirId h hn), hn]
  rfl

theorem of_follow_cons (h : follow db d (name :: names) = some t) :
    ∃ i, named db (d, name) = some i ∧ follow db i names = some t := by
  unfold follow at h
  split at h
  · exact Option.bind_eq_some_iff.1 h
  · cases h

/-- The path leads on to the same inode when the entries that it passes through stay. -/
theorem follow_kept (h' : db'.Consistent next') (hf : follow db i names = some t)
    (hkeep : ∀ key ∈ passed db i names, ∀ j, named db key = some j → named db' key = some j) :
    follow db' i names = some t := by
  induction names generalizing i with
  | nil => exact hf
  | cons name names ih =>
    obtain ⟨child, hchild, hf⟩ := of_follow_cons hf
    rw [follow_cons h' (hkeep _ List.mem_cons_self _ hchild)]
    refine ih hf fun key hkey => hkeep key ?_
    simp only [passed, hchild, Option.elim_some]
    exact List.mem_cons_of_mem _ hkey

variable {inode : Inode} {ancestor : InodeId} {path : List InodeId}

/-- The fids whose path may lead elsewhere, by session and number. -/
abbrev Cut := Nat × Nat → Bool

namespace Server

variable {s s' : Server} {cut : Cut}

/-- The tables agree, and every path that is not cut leads to the inode of its fid. -/
structure PathsOk (s : Server) (cut : Cut) : Prop where
  consistent : s.ns.db.Consistent s.ns.nextId
  leads : ∀ {key f}, s.fids.get key = some f → cut key = false → follow s.ns.db 0 f.path = some f.inodeId

theorem PathsOk.bind (h : PathsOk s cut) {session n : Nat} {c : Bool}
    (hf : c = false → follow s.ns.db 0 fid.path = some fid.inodeId) :
    PathsOk (s.bind session n fid) (Function.update cut (session, n) c) := by
  refine ⟨h.consistent, fun {key f} hget hcut => ?_⟩
  dsimp only [Server.bind] at hget
  rw [get_put] at hget
  rw [Function.update_apply] at hcut
  split at hget
  · rename_i hkey
    cases hget
    rw [if_pos hkey] at hcut
    exact hf hcut
  · rename_i hkey; rw [if_neg hkey] at hcut; exact h.leads hget hcut

/-- A change of the tables keeps the paths whose entries it keeps. -/
theorem PathsOk.commit (h : PathsOk s cut) {ns : NsState} (hc : ns.db.Consistent ns.nextId) {cut' : Cut}
    (hkeep : ∀ {key f}, s.fids.get key = some f → cut' key = false → cut key = false ∧
      ∀ e ∈ passed s.ns.db 0 f.path, ∀ j, named s.ns.db e = some j → named ns.db e = some j) :
    PathsOk { s with ns := ns } cut' := by
  refine ⟨hc, fun hget hcut => ?_⟩
  obtain ⟨hcut, hkeep⟩ := hkeep hget hcut
  exact follow_kept hc (h.leads hget hcut) hkeep

end Server

end NineP

end ZeroFS
