/-!
# MarkovCheck.CommandLine.Progress

Which messages about a long computation are shown.

* `shown` — the messages of which none follows another within an interval.
-/

namespace MarkovCheck
namespace CommandLine

/-- The messages to show, of messages with ascending times: one is shown if at least `interval` has
passed since the last one that was shown, or since the start at time `last`. -/
def shown {α : Type} (interval last : Nat) : List (Nat × α) → List α
  | [] => []
  | (time, message) :: rest =>
    if interval ≤ time - last then message :: shown interval time rest
    else shown interval last rest

end CommandLine
end MarkovCheck
