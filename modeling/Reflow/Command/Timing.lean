import Reflow.Command.Arguments
import Reflow.Command.Host

/-!
# Timing

The command `time` formats all source texts in a folder several times and reports how long that
took.

* `Timing.interface`   the arguments;
* `Timing.sourceFiles` which files are formatted, and in what order;
* `Timing.runOnce`     one run over all texts;
* `Timing.Summary`     what is reported;
* `Timing.command`     the command.
-/

namespace Reflow.Timing

def usage : String :=
  "usage: time_format.py [-h] [--runs RUNS] [--warmups WARMUPS] [--width WIDTH]\n" ++
  "                      [--no-progress] [--profile] [--profile-top PROFILE_TOP]\n" ++
  "                      [--profile-sort PROFILE_SORT]\n" ++
  "                      [--limit-files LIMIT_FILES]\n" ++
  "                      root\n"

def help : String :=
  usage ++
  "\n" ++
  "Benchmark formatting throughput\n" ++
  "\n" ++
  "positional arguments:\n" ++
  "  root                  Directory to scan for .py files\n" ++
  "\n" ++
  "options:\n" ++
  "  -h, --help            show this help message and exit\n" ++
  "  --runs RUNS           Measured runs\n" ++
  "  --warmups WARMUPS     Warmup runs\n" ++
  "  --width WIDTH         Print width (default: 80)\n" ++
  "  --no-progress         Disable tqdm progress bars (useful for pure timing)\n" ++
  "  --profile             Run cProfile and print top hotspots\n" ++
  "  --profile-top PROFILE_TOP\n" ++
  "                        Number of cProfile rows to print (default: 30)\n" ++
  "  --profile-sort PROFILE_SORT\n" ++
  "                        cProfile sort key (default: tottime, common:\n" ++
  "                        cumulative)\n" ++
  "  --limit-files LIMIT_FILES\n" ++
  "                        Optional file limit for quick profiling/smoke tests (0\n" ++
  "                        = all files)\n"

def interface : Interface where
  program := "time_format.py"
  usage := usage
  help := help
  positional := "root"
  options :=
    [⟨["-h", "--help"], .help⟩, ⟨["--runs"], .integer⟩, ⟨["--warmups"], .integer⟩,
     ⟨["--width"], .integer⟩, ⟨["--no-progress"], .flag⟩, ⟨["--profile"], .flag⟩,
     ⟨["--profile-top"], .integer⟩, ⟨["--profile-sort"], .text⟩, ⟨["--limit-files"], .integer⟩]

/-- whether the last of several names is that of a source text -/
def isSource (names : List String) : Bool :=
  names.getLast?.any fun name => ".py".toList.isSuffixOf name.toList

/-- the source texts among the files of a folder, ordered name by name along the way to them, and
the first `limit` of them if that is positive -/
def sourceFiles (files : List (List String)) (limit : Int) : List (List String) :=
  let sorted := (files.filter isSource).mergeSort fun a b => !decide (b < a)
  if 0 < limit then sorted.take limit.toNat else sorted

/-- how many texts were formatted and how many not, and the diagnostics for those that were -/
structure Counts where
  formatted : Nat := 0
  unsupported : Nat := 0
  diagnostics : Nat := 0
  deriving DecidableEq, Inhabited, Repr

/-- the counts after one more text -/
def Counts.add (c : Counts) : Except FormatError Formatted → Except FormatError Counts
  | .ok f =>
    .ok { c with formatted := c.formatted + 1, diagnostics := c.diagnostics + f.diagnostics.length }
  | .error (.print (.unsupported ..)) => .ok { c with unsupported := c.unsupported + 1 }
  | .error e => .error e

/-- the counts for some texts -/
def countAll (g : Source.Grammar) (o : Options) (texts : List String) : Except FormatError Counts :=
  texts.foldlM (fun c text => c.add ((Parsed.ofText g text).formatted o)) {}

/-- the median of some numbers in increasing order: for an even number of them the mean of the two
in the middle -/
def median (sorted : List Binary64) : Binary64 :=
  let item (i : Nat) : Binary64 := (sorted[i]?).getD (.zero false)
  let half := sorted.length / 2
  if sorted.length % 2 = 1 then item half
  else ((item (half - 1)).add (item half)).div (.ofRat 2)

/-- what is reported -/
structure Summary where
  root : FileName
  files : Nat
  counts : Counts
  warmups : Nat
  /-- how many seconds each run took -/
  timings : List Binary64

namespace Summary

/-- the report, unless the runs took no time at all -/
def report (s : Summary) : Except CommandError String :=
  let sorted := s.timings.mergeSort fun a b => !b.lt a
  let mean := Binary64.mean s.timings
  let seconds (x : Binary64) : String := x.fixed 4 ++ "s"
  let line (label value : String) : String := label ++ value ++ "\n"
  if mean.isZero then .error .divisionByZero
  else .ok <| String.join
    [line "Dataset: " s.root.text,
     line "Files: " (toString s.files),
     line "Formatted: " (toString s.counts.formatted),
     line "Unsupported: " (toString s.counts.unsupported),
     line "Diagnostics: " (toString s.counts.diagnostics),
     line "Runs: " (toString s.timings.length ++ " (warmups=" ++ toString s.warmups ++ ")"),
     line "Best:   " (seconds (sorted.head?.getD default)),
     line "Median: " (seconds (median sorted)),
     line "Mean:   " (seconds mean),
     line "Worst:  " (seconds (sorted.getLast?.getD default)),
     line "Files/s (mean): " (((Binary64.ofRat s.files).div mean).fixed 1)]

end Summary

variable {m : Type → Type} [Monad m] (host : Host m) (g : Source.Grammar)

/-- the texts of some files below a folder -/
def readAll (root : FileName) : List (List String) → Action m (List String)
  | [] => return []
  | names :: files => do
    let text ← host.readText (root.below names)
    return text :: (← readAll root files)

/-- formats all texts once, and says how many seconds that took -/
def runOnce (o : Options) (texts : List String) : Action m (Binary64 × Counts) := do
  let start ← (host.now : m Binary64)
  match countAll g o texts with
  | .error e => throw (.format e)
  | .ok counts =>
    let stop ← (host.now : m Binary64)
    return (stop.sub start, counts)

/-- formats all texts several times -/
def runAll (o : Options) (texts : List String) : Nat → Action m (List (Binary64 × Counts))
  | 0 => return []
  | n + 1 => do
    let first ← runOnce host g o texts
    return first :: (← runAll o texts n)

/-- formats the source texts in a folder several times and reports how long that took -/
def time (root : FileName) (values : List (OptionSpec × OptionValue)) : Action m Outcome := do
  let integer := Request.integer values
  if !(← (host.isFolder root : m Bool)) then
    return { status := 1, errors := "Invalid root: " ++ root.text ++ "\n" }
  let files := sourceFiles (← (host.filesBelow root : m _)) 0
  if files.isEmpty then
    return { status := 1, errors := "No .py files found under " ++ root.text ++ "\n" }
  let files := sourceFiles files (integer "--limit-files" 0)
  let texts ← readAll host root files
  match (OptionsRequest.widths (some (integer "--width" 80)) none none).resolve with
  | .error e => throw (.format (.options e))
  | .ok o =>
    let warmups := (integer "--warmups" 1).toNat
    let _ ← runAll host g o texts warmups
    let runs ← runAll host g o texts (max (integer "--runs" 5) 1).toNat
    let summary : Summary :=
      { root, files := files.length, warmups, timings := runs.map (·.1)
        counts := (runs.getLast?.map (·.2)).getD {} }
    match summary.report with
    | .ok report => return { status := 0, output := report }
    | .error e => throw e

/-- the command with its arguments -/
def command (args : List String) : Action m Outcome :=
  match interface.parse args with
  | .help => return { status := 0, output := interface.help }
  | .refused message => return { status := 2, errors := interface.refusalText message }
  | .run root values => time host g (FileName.ofText root) values

end Reflow.Timing
