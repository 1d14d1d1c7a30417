import ZeroFS.Namespace.Run

/-!
# Fids of 9P sessions

A fid remembers its inode, its attach root and an absolute path, which renames leave as it is. `σ k` are the tables that
the `k`-th read of a request sees.
-/

namespace ZeroFS.NineP

open NsDb

structure Fid where
  path : List Name
  inodeId : InodeId
  root : InodeId
  creds : Credentials
  opened : Bool := false

/-- The tables at the successive reads of a request. -/
abbrev Reads := Nat → NsDb

def Reads.next (σ : Reads) : Reads := fun k => σ (k + 1)

def maxAncestorHops : Nat := 100000

variable (σ : Reads) (creds : Credentials) (root : InodeId)

/-- `ZeroFS::lookup` -/
def lookup (db : NsDb) (dirid : InodeId) (name : Name) : Except FsError InodeId := do
  let dir ← db.getInode dirid
  throwIf (dir.isDirectory = false) .notDirectory
  checkAccess dir creds .execute
  let (id, _) ← db.getEntryWithCookie dirid name
  pure id

/-- Whether the parent chain from `ancestor` passes through the attach root. -/
def passesRoot (σ : Reads) : Nat → InodeId → Except FsError Bool
  | 0, ancestor => pure (decide (ancestor = root))
  | hops + 1, ancestor =>
    if ancestor = root then pure true
    else if ancestor = 0 then pure false
    else do
      match ← (σ 0).getInode ancestor with
      | .directory d => passesRoot σ.next hops d.parent
      | .leaf _ => pure false

def walkComponent (currentId : InodeId) (name : Name) : Except FsError InodeId :=
  if name ≠ dotDotName then lookup creds (σ 0) currentId name
  else do
    let inode ← (σ 0).getInode currentId
    match inode with
    | .leaf _ => throw .notDirectory
    | .directory dir => do
      checkAccess inode creds .execute
      if currentId = root then pure currentId
      else if root = 0 then pure dir.parent
      else do
        let inside ← passesRoot root σ.next maxAncestorHops dir.parent
        pure (if inside then dir.parent else root)

/-- `..` pops a component unless it is clamped at the attach root. -/
def stepPath (path : List Name) (name : Name) (currentId : InodeId) : List Name :=
  if name = dotDotName then (if currentId ≠ root then path.dropLast else path) else path ++ [name]

/-- The walk has come to `childId`. -/
def Fid.step (fid : Fid) (name : Name) (childId : InodeId) : Fid :=
  { fid with path := stepPath fid.root fid.path name fid.inodeId, inodeId := childId }

/-- The fid at the end of a walk that succeeds in every component; `σ i` are the reads of the `i`-th. -/
def walkNames (σ : Nat → Reads) (fid : Fid) : List Name → Except FsError Fid
  | [] => pure { fid with opened := false }
  | name :: names => do
    let childId ← walkComponent (σ 0) fid.creds fid.root fid.inodeId name
    let _ ← (σ 0 (maxAncestorHops + 2)).getInode childId
    walkNames (fun i => σ (i + 1)) (fid.step name childId) names

/-- The directory that a list of names leads to, one lookup after the other. -/
def lookupAll (σ : Reads) : InodeId → List Name → Except FsError InodeId
  | id, [] => pure id
  | id, name :: names => do
    let childId ← lookup creds (σ 0) id name
    lookupAll σ.next childId names

/-- A searchable parent chain from an inode through the ancestor. -/
def authorizeRebindAncestry (denied : FsError) (ancestor : InodeId) (σ : Reads) :
    Nat → InodeId → Inode → Except FsError Unit
  | 0, id, _ => throwIf (id ≠ ancestor) denied
  | hops + 1, id, inode =>
    if id = ancestor then pure ()
    else if id = 0 then throw denied
    else match inode.parent with
      | none => throw denied
      | some parentId => do
        let parent ← (σ 0).getInode parentId
        throwIf (parent.isDirectory = false) denied
        (checkAccess parent creds .execute).mapError fun _ => denied
        authorizeRebindAncestry denied ancestor σ.next hops parentId parent

/-- `resolve_path_components`, in reverse; a chain longer than the fuel has met a cycle. -/
def pathComponents (σ : Reads) : Nat → InodeId → List Name
  | 0, _ => []
  | fuel + 1, id =>
    if id = 0 then []
    else match (σ 0).inodes.get id with
      | none => []
      | some inode =>
        match inode.parent, inode.name with
        | some parentId, some name => name :: pathComponents σ.next fuel parentId
        | _, _ => [(s!"<inode:{id}>").toUTF8.toList]

def isParentlessLinkedNonDirectory (inode : Inode) : Bool :=
  !inode.isDirectory && decide (0 < inode.nlink) && inode.parent.isNone && inode.name.isNone

/-- `rebind`: `σ 0` are the reads of the chain from the root, `σ 1` those of the chain from the inode, `σ 2` those of
the path. -/
def rebind (σ : Nat → Reads) (inodeId rootInode : InodeId) (replay : Bool) : Except FsError Fid := do
  let denied := if replay then FsError.staleHandle else .permissionDenied
  let inode ← (σ 0 0).getInode inodeId
  throwIf (inode.nlink = 0) denied
  let root ← (if rootInode = inodeId then pure inode else (σ 0 1).getInode rootInode : Except FsError Inode)
  throwIf (root.isDirectory = false) (if replay then .staleHandle else .notDirectory)
  authorizeRebindAncestry creds denied 0 (σ 0).next.next maxAncestorHops rootInode root
  (if rootInode = 0 ∧ isParentlessLinkedNonDirectory inode = true then (checkAccess root creds .execute).mapError
    fun _ => denied
    else checkIf (inodeId ≠ rootInode)
      (authorizeRebindAncestry creds denied rootInode (σ 1) maxAncestorHops inodeId inode) :
    Except FsError Unit)
  pure
    { path := (pathComponents (σ 2) ((σ 2 0).inodes.keys.length + 1) inodeId).reverse
      inodeId := inodeId
      root := rootInode
      creds := creds }

/-- The transaction of a first `Trename`: the parent is looked up along the remembered path, and the entry of its last
name is moved. -/
def rename (now : Nat → Timestamp) (defer : Bool) (fid : Fid) (destId : InodeId) (name : Name) :
    Except FsError (List NsWrite) := do
  throwIf (fid.path = []) .invalidArgument
  let parentId ← lookupAll fid.creds σ 0 fid.path.dropLast
  (σ (fid.path.length - 1)).rename now fid.creds parentId (fid.path.getLastD []) destId name true defer

/-! ## Histories -/

/-- The committed tables and the fids of all sessions, by session and number. -/
structure Server where
  ns : NsState
  fids : Table (Nat × Nat) Fid := Table.empty

/-- A request of a session; `other` is any further change of the namespace, by 9P or otherwise. -/
inductive Request
  | attach (session fid : Nat) (aname : List Name) (creds : Credentials)
  | walk (session fid newfid : Nat) (names : List Name)
  | lcreate (session fid : Nat) (name : Name) (attr : SetAttributes) (now : Nat → Timestamp)
  | rebind (session fid : Nat) (inodeId root : InodeId) (replay : Bool) (creds : Credentials)
  | clunk (session fid : Nat)
  | rename (session fid dfid : Nat) (name : Name) (now : Nat → Timestamp) (defer : Bool)
  | other (request : NsRequest)

namespace Server

variable (s : Server)

def bind (session fid : Nat) (f : Fid) : Server := { s with fids := s.fids.put (session, fid) f }

/-- One request after the other: every read of a request sees the same tables. -/
def step : Request → Option Server
  | .attach session fid aname creds =>
    if (s.fids.get (session, fid)).isSome then none
    else match lookupAll creds (fun _ => s.ns.db) 0 aname with
      | .ok id =>
        if IsDirId s.ns.db.inodes id
          then some (s.bind session fid { path := aname, inodeId := id, root := id, creds := creds }) else none
      | .error _ => none
  | .walk session fid newfid names =>
    (s.fids.get (session, fid)).bind fun f =>
      if newfid = fid ∧ names = [] then some s
      else if newfid ≠ fid ∧ (s.fids.get (session, newfid)).isSome then none
      else ((walkNames (fun _ _ => s.ns.db) f names).toOption).map fun f' => s.bind session newfid f'
  | .lcreate session fid name attr now =>
    (s.fids.get (session, fid)).bind fun f =>
      if f.opened then none
      else (s.ns.step ⟨.create f.inodeId name attr, now, f.creds⟩).map fun ns =>
        { s.bind session fid { f with path := f.path ++ [name], inodeId := s.ns.nextId, opened := true } with ns := ns }
  | .rebind session fid inodeId root replay creds =>
    if (s.fids.get (session, fid)).isSome then none
    else ((NineP.rebind creds (fun _ _ => s.ns.db) inodeId root replay).toOption).map fun f => s.bind session fid f
  | .clunk session fid => some { s with fids := s.fids.del (session, fid) }
  | .rename session fid dfid name now defer =>
    (s.fids.get (session, fid)).bind fun f => (s.fids.get (session, dfid)).bind fun d =>
      ((NineP.rename (fun _ => s.ns.db) now defer f d.inodeId name).toOption).map
        fun ws => { s with ns := ⟨s.ns.db.commit ws, s.ns.nextId⟩ }
  | .other request => (s.ns.step request).map fun ns => { s with ns := ns }

/-- The destination of a rename is a directory. -/
def intoDirectory : Request → Bool
  | .other r => NsState.intoDirectory s.ns r
  | .rename session _ dfid _ _ _ => (s.fids.get (session, dfid)).all fun d => IsDirId s.ns.db.inodes d.inodeId
  | _ => true

abbrev IntoDirectory (a : Request) : Prop := s.intoDirectory a = true

/-- A new file system without sessions. -/
def boot : Server := ⟨NsState.boot ⟨0, 0⟩ 0 0, Table.empty⟩

end Server

end ZeroFS.NineP
