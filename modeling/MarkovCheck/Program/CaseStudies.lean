import MarkovCheck.Program.Syntax

/-!
# MarkovCheck.Program.CaseStudies

Two well known programs.

* `crowds`      — the crowds protocol for anonymous browsing.
* `knuthYaoDie` — a die simulated by a coin.
-/

namespace MarkovCheck
namespace CaseStudies

open Expression (identifier int bool fraction equals less lessEqual greater)

def set (name : String) (n : Int) : String × Expression := (name, int n)

/-- The variable that counts the observations of a member. -/
def observe (member : Nat) : String := "observe" ++ toString member

/-- The guard that tests the phase of a run. -/
def inPhase (n : Int) : Expression := equals (identifier "phase") (int n)

/-- The two probabilities of the protocol, undefined for a parametric program. -/
def crowdsProbabilities (parametric : Bool) : List ConstantDecl :=
  [⟨"PF", .double, if parametric then none else some (fraction 4 5)⟩,
    ⟨"badC", .double, if parametric then none else some (fraction 167 1000)⟩]

def crowdsCommands (size : Nat) : List Command :=
  [ { guard := (inPhase 0).and (less (identifier "runCount") (identifier "TotalRuns"))
      updates := [⟨int 1, [set "phase" 1, ("runCount", identifier "runCount" + int 1),
        set "lastSeen" 0]⟩] },
    { guard := inPhase 1
      updates := [⟨identifier "goodC", [set "phase" 2, ("good", bool true)]⟩,
        ⟨identifier "badC", [set "phase" 2, ("good", bool false)]⟩] },
    { guard := (inPhase 2).and (identifier "good")
      updates := (List.range size).map fun (i : Nat) =>
        ⟨int 1 / identifier "CrowdSize", [set "lastSeen" i, set "phase" 3]⟩ } ] ++
  ((List.range size).map fun (i : Nat) =>
    { guard := .all [inPhase 2, (identifier "good").not, equals (identifier "lastSeen") (int i),
        less (identifier (observe i)) (identifier "TotalRuns")]
      updates := [⟨int 1, [(observe i, identifier (observe i) + int 1), set "phase" 4]⟩] }) ++
  [ { guard := inPhase 3
      updates := [⟨identifier "PF", [set "phase" 1]⟩, ⟨identifier "notPF", [set "phase" 4]⟩] },
    { guard := inPhase 4, updates := [⟨int 1, [set "phase" 0]⟩] } ]

def crowdsVariables (size : Nat) : List VariableDecl :=
  [⟨"phase", .range (int 0) (int 4), some (int 0)⟩, ⟨"good", .bool, some (bool false)⟩,
    ⟨"runCount", .range (int 0) (identifier "TotalRuns"), some (int 0)⟩] ++
  ((List.range size).map fun (i : Nat) =>
    ⟨observe i, .range (int 0) (identifier "TotalRuns"), some (int 0)⟩) ++
  [⟨"lastSeen", .range (int 0) (identifier "CrowdSize" - int 1), some (int 0)⟩]

/-- Whether a member was observed more than once. -/
def observedOften (i : Nat) : Expression := greater (identifier (observe i)) (int 1)

/-- The members other than the true sender. -/
def others (size : Nat) : List Nat := (List.range size).drop 1

/-- The crowds protocol. A message is routed through a crowd of `size` members in `runs` runs, and
bad members observe the member that forwarded the message to them. The true sender is member 0. In
the parametric program the probabilities of forwarding and of being bad are undefined. -/
def crowds (runs size : Int) (parametric : Bool) : Program where
  constants := crowdsProbabilities parametric ++
    [⟨"notPF", .double, some (int 1 - identifier "PF")⟩,
      ⟨"goodC", .double, some (int 1 - identifier "badC")⟩,
      ⟨"TotalRuns", .int, some (int runs)⟩, ⟨"CrowdSize", .int, some (int size)⟩]
  modules := [⟨"crowds", crowdsVariables size.toNat, crowdsCommands size.toNat⟩]
  labels := [⟨"observe0Greater1", observedOften 0⟩,
    ⟨"observeIGreater1", .any ((others size.toNat).map observedOften)⟩,
    ⟨"observeOnlyTrueSender", (observedOften 0).and (.all ((others size.toNat).map fun i =>
      lessEqual (identifier (observe i)) (int 1)))⟩]

/-- The result of a coin flip: the next coin, or the face that is shown. -/
inductive Outcome where
  | coin (n : Int)
  | face (n : Int)

/-- The update of an outcome; a shown face ends the experiment in state 7. -/
def Outcome.update (probability : Expression) : Outcome → Update
  | .coin n => ⟨probability, [set "s" n]⟩
  | .face n => ⟨probability, [set "s" 7, set "d" n]⟩

/-- The outcomes of heads and tails for every coin. -/
def coins : List (Int × Outcome × Outcome) :=
  [(0, .coin 1, .coin 2), (1, .coin 3, .coin 4), (2, .coin 5, .coin 6), (3, .coin 1, .face 1),
    (4, .face 2, .face 3), (5, .face 4, .face 5), (6, .coin 2, .face 6)]

def flip (coin : Int × Outcome × Outcome) : Command where
  guard := equals (identifier "s") (int coin.1)
  updates := [coin.2.1.update (identifier "p"), coin.2.2.update (int 1 - identifier "p")]

def faceLabel (name : String) (n : Int) : LabelDecl :=
  ⟨name, (equals (identifier "s") (int 7)).and (equals (identifier "d") (int n))⟩

/-- The die of Knuth and Yao: coins that show heads with probability `p` decide between six faces.
The coins are fair, or `p` is undefined in the parametric program. -/
def knuthYaoDie (parametric : Bool) : Program where
  constants := [⟨"p", .double, if parametric then none else some (fraction 1 2)⟩]
  modules := [⟨"die",
    [⟨"s", .range (int 0) (int 7), some (int 0)⟩, ⟨"d", .range (int 0) (int 6), some (int 0)⟩],
    coins.map flip ++
      [{ guard := equals (identifier "s") (int 7), updates := [⟨int 1, [set "s" 7]⟩] }]⟩]
  labels := [faceLabel "one" 1, faceLabel "two" 2, faceLabel "three" 3, faceLabel "four" 4,
    faceLabel "five" 5, faceLabel "six" 6, ⟨"done", equals (identifier "s") (int 7)⟩]
  rewards := [⟨"coin_flips", [(less (identifier "s") (int 7), int 1)]⟩]

end CaseStudies
end MarkovCheck
