import Pipewright.Entries
import Pipewright.Storage.Job

/-! Images of containers. A stage names an image by the path of its file or by a reference, from
which the image is built once into the directory of the pipeline. -/
namespace Pipewright.Container

/-- Builds an image at a path from a reference. -/
abbrev Builder := (target reference : String) → Job Unit

/-- The images built so far: references with paths. -/
abbrev Cache := List (String × String)

/-- The name of the file of an image: what follows `://` in the reference, or all of it. -/
def imageFileName (reference : String) : String :=
  let cs := reference.toList
  let name := ((Text.splitOnce "://".toList cs).map Prod.snd).getD cs
  String.ofList (name.map fun c => if c = '/' || c = ':' then '_' else c) ++ ".sif"

/-- The path of the image for a reference. Files are taken as they are; all else is built, unless
it was built before. -/
def resolve (builder : Builder) (dir reference : String) (cache : Cache) :
    Job (String × Cache) := do
  if ← Job.isFile reference then return (reference, cache)
  match Entries.get? reference cache with
  | some path => return (path, cache)
  | none =>
    let target := Path.join dir (imageFileName reference)
    builder target reference
    return (target, Entries.put reference target cache)

end Pipewright.Container
