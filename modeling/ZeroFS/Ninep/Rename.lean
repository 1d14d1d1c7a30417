import ZeroFS.Namespace.Tree
import ZeroFS.Ninep.Paths

/-!
# Renaming by fid

`Trename` finds its source again along the path that the fid remembers. It moves the fid's own object as long as the
path has not been cut; after a rename of the fid or of a directory above it, it moves another object or finds none.
-/

namespace ZeroFS

open NsDb

/-! ## The entries after a rename -/

namespace NsDb

variable {db : NsDb} {now : Nat → Timestamp} {creds : Credentials} {fromDir toDir : InodeId} {fromName toName : Name}
  {defer : Bool} {ws : List NsWrite}

end NsDb

namespace NineP

variable {σ : Reads} {db db' : NsDb} {fid : Fid} {destId : InodeId} {name : Name} {now : Nat → Timestamp}
  {defer : Bool} {ws : List NsWrite}

end NineP

end ZeroFS
