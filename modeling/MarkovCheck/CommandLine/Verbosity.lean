import MarkovCheck.CommandLine.Arguments

/-!
# MarkovCheck.CommandLine.Verbosity

How much a run reports about its progress.

* `Verbosity`        — the levels, and the least severe messages that each lets through.
* `verbosityOptions` — the options that choose a level.
* `Verbosity.ofMatches` — the chosen level; the quietest option counts, then the most detailed.
-/

namespace MarkovCheck
namespace CommandLine

inductive Verbosity where
  | quiet
  | verbose
  | debug
  | trace
deriving DecidableEq, Repr

namespace Verbosity

def toText : Verbosity → String
  | .quiet => "quiet"
  | .verbose => "verbose"
  | .debug => "debug"
  | .trace => "trace"

/-- The least severe messages that are let through. -/
def filterText : Verbosity → String
  | .quiet => "OFF"
  | .verbose => "INFO"
  | .debug => "DEBUG"
  | .trace => "TRACE"

/-- The level that options choose, `verbose` without any. -/
def ofMatches (m : Matches) : Verbosity :=
  if m.hasFlag "quiet" then .quiet
  else if m.hasFlag "trace" then .trace
  else if m.hasFlag "debug" then .debug
  else .verbose

end Verbosity

def verbosityOptions : List OptionSpec :=
  [{ name := "quiet", letter := 'q' }, { name := "verbose", letter := 'v' },
    { name := "debug", letter := 'd' }, { name := "trace" }]

end CommandLine
end MarkovCheck
