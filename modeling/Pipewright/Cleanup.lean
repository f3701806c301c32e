import Pipewright.Storage.Job

/-! Removal of what runs leave behind. -/
namespace Pipewright.Cleanup

/-- The last four characters of names of files that runs leave behind. -/
def suffixes : List String :=
  [".log", ".aux", ".toc", ".bbl", ".bcf", ".blg", ".tex", ".out", "pynb"]

def directories : List String := ["work", "notebook_files"]

/-- Whether a run leaves entries of this name behind. -/
def isLeftover (name : String) : Bool :=
  let cs := name.toList
  cs.head? = some '.' || directories.contains name ||
    suffixes.contains (String.ofList (cs.drop (cs.length - 4)))

/-- Removes what runs leave behind right inside a directory. -/
def removeFrom (dir : String) : Job (List String) := do
  let place ← Job.ask fun t here => t.openDirectory here dir
  let names ← Job.look fun t _ => (t.children place).filter isLeftover
  modify fun w =>
    { w with files := names.foldl (fun t n => t.erase (place ++ [n])) w.files }
  return names.map (Path.join dir)

/-- Removes what runs leave behind in a directory and, if asked, in the pipeline within it. The
result are the paths that were removed. -/
def run (location : String) (withPipeline : Bool) : Job (List String) := do
  let removed ← removeFrom location
  let pipeline := Path.join location "pipeline"
  if withPipeline && (← Job.isDirectory pipeline) then
    return removed ++ (← removeFrom pipeline)
  else return removed

end Pipewright.Cleanup
