import Pipewright.Storage.Tree

/-! What differs between two trees of files. -/
namespace Pipewright.FileTree

/-- Whether an entry holds the same as another one. Permissions do not count. -/
def sameContent : FileEntry → FileEntry → Bool
  | .directory, .directory => true
  | .file a _, .file b _ => a == b
  | _, _ => false

/-- The entries that are new or hold something else than before. -/
def changed (before after : FileTree) : List (Place × FileEntry) :=
  after.entries.filter fun e => !((before.entry? e.1).any (sameContent e.2))

/-- The entries that are gone. -/
def removed (before after : FileTree) : List (Place × FileEntry) :=
  before.entries.filter fun e => (after.entry? e.1).isNone

end Pipewright.FileTree
