import Mathlib
import MarkovCheck.Program.Build
import MarkovCheck.Proofs.Algebra.RationalFunction
import MarkovCheck.Proofs.Program.Variables

/-!
# MarkovCheck.Proofs.Program.Semantics

The transition system that a program of guarded commands describes.

A valuation has a list of choices: every enabled command without action, and for every action every
way to take one enabled command of each module that has the action. Carrying out a choice takes one
update of each of its commands; the probability is the product of theirs, and a variable becomes what
the last assignment to it says, evaluated in the valuation that is left. Several choices are equally
likely.

Nothing here mentions how a model is built. An expression that cannot be evaluated counts as false,
zero or no assignment; in the valuations of a model that is built this matters nowhere
(`EvaluatesAt`).

* `choicesAt`, `mem_choicesAt`, `picks` — the choices of a valuation, and the updates that one can take.
* `turn`, `weight`       — where updates lead, and with which probability.
* `moveValue`            — the probability of moving from one valuation to another.
* `Reachable`, `successorsOf` — moves of probability other than zero.
* `IsSemantics`          — a model is what the program describes.
-/

namespace MarkovCheck

/-! ## Choices -/

/-- A truth value that an expression has in a valuation. -/
def Context.holds {V : Type} (c : Context V) (s : List ℤ) (e : Expression) : Bool :=
  match e.evalBool (c.env s) with
  | .ok b => b
  | .error _ => false

/-- The enabled commands of a module that have an action, or that have none. -/
def Context.enabledOf {V : Type} (c : Context V) (s : List ℤ) (action : Option String) (m : Module) :
    List Command :=
  m.commands.filter fun command => command.action = action && c.holds s command.guard

/-- Whether a command of the module has the action. -/
def Module.hasAction (m : Module) (action : String) : Bool :=
  m.commands.any fun command => command.action = some action

/-- The choices of a valuation: the enabled commands without action, and the combinations of one
enabled command of every module that has an action. -/
def Program.choicesAt {V : Type} (p : Program) (c : Context V) (s : List ℤ) : List (List Command) :=
  (p.modules.flatMap fun m => (c.enabledOf s none m).map fun command => [command]) ++
    p.actions.flatMap fun action =>
      combinations ((p.modules.filter (·.hasAction action)).map (c.enabledOf s (some action)))

theorem mem_combinations {α : Type} {ls : List (List α)} {l : List α} :
    l ∈ combinations ls ↔ List.Forall₂ (· ∈ ·) l ls := by
  induction ls generalizing l with
  | nil => simp [combinations]
  | cons a ls ih =>
    simp only [combinations, List.mem_flatMap, List.mem_map, ih, List.forall₂_cons_right_iff]
    constructor
    · rintro ⟨x, hx, k, hk, rfl⟩
      exact ⟨x, k, hx, hk, rfl⟩
    · rintro ⟨x, k, hx, hk, rfl⟩
      exact ⟨x, hx, k, hk, rfl⟩

theorem Program.mem_choicesAt {V : Type} {p : Program} {c : Context V} {s : List ℤ}
    {choice : List Command} : choice ∈ p.choicesAt c s ↔
      (∃ m ∈ p.modules, ∃ command ∈ c.enabledOf s none m, choice = [command]) ∨
        ∃ action ∈ p.actions, List.Forall₂ (fun command m => command ∈ c.enabledOf s (some action) m)
          choice (p.modules.filter (·.hasAction action)) := by
  simp only [choicesAt, List.mem_append, List.mem_flatMap, List.mem_map, mem_combinations,
    List.forall₂_map_right_iff, eq_comm]

/-- The ways to take one update of each command; those of the first command vary fastest. -/
def picks (choice : List Command) : List (List Update) := (choice.map (·.updates)).sections

/-! ## Moves -/

/-- The stored value that an expression gives a variable. -/
def Context.assigned? {V : Type} (c : Context V) (s : List ℤ) (v : Variable) (e : Expression) :
    Option ℤ :=
  match e.eval (c.env s) with
  | .ok x => (v.store x).toOption
  | .error _ => none

/-- What a variable with a value becomes: the last assignment to it counts. -/
def Context.nextValue {V : Type} (c : Context V) (s : List ℤ)
    (assignments : List (String × Expression)) (v : Variable) (n : ℤ) : ℤ :=
  match assignments.reverse.lookup v.name with
  | none => n
  | some e => (c.assigned? s v e).getD n

/-- The valuation that updates turn a valuation into. -/
def Context.turn {V : Type} (c : Context V) (s : List ℤ) (us : List Update) : List ℤ :=
  List.zipWith (c.nextValue s (us.flatMap (·.assignments))) c.vars s

/-- The probability of an update. -/
noncomputable def Context.valueOf (c : Context RationalFunction) (s : List ℤ) (u : Update) : Frac :=
  match u.probability.evalValue (c.env s) with
  | .ok f => f.toFrac
  | .error _ => 0

/-- The probability that the commands of a choice take the given updates. -/
noncomputable def Context.weight (c : Context RationalFunction) (s : List ℤ) (us : List Update) :
    Frac := (us.map (c.valueOf s)).prod

namespace Program

variable (p : Program) (c : Context RationalFunction)

open Classical in
/-- The probability of moving from `s` to `t`: the sum over all choices, each as likely as the others,
and over all their updates that turn `s` into `t`. -/
noncomputable def moveValue (s t : List ℤ) : Frac :=
  ((((p.choicesAt c s).flatMap picks).filter fun us => c.turn s us = t).map fun us =>
    c.weight s us / (p.choicesAt c s).length).sum

theorem exists_of_moveValue_ne_zero {p : Program} {c : Context RationalFunction} {s t : List ℤ}
    (h : p.moveValue c s t ≠ 0) :
    ∃ choice ∈ p.choicesAt c s, ∃ us ∈ picks choice, c.weight s us ≠ 0 ∧ c.turn s us = t := by
  obtain ⟨k, hk, h0⟩ := List.exists_mem_ne_zero_of_sum_ne_zero h
  obtain ⟨us, hus, rfl⟩ := List.mem_map.1 hk
  obtain ⟨hmem, hturn⟩ := List.mem_filter.1 hus
  obtain ⟨choice, hchoice, hpick⟩ := List.mem_flatMap.1 hmem
  exact ⟨choice, hchoice, us, hpick, fun hw => h0 (by rw [hw, zero_div]), of_decide_eq_true hturn⟩

/-- With one command as the only choice, a move is made by the updates of that command. -/
theorem moveValue_single {p : Program} {c : Context RationalFunction} {s : List ℤ} {command : Command}
    (h : p.choicesAt c s = [[command]]) (t : List ℤ) :
    p.moveValue c s t = ((command.updates.filter fun u => c.turn s [u] = t).map (c.valueOf s)).sum := by
  have hpicks : picks [command] = command.updates.map fun u => [u] := by
    rw [picks, List.map_singleton, List.sections, List.sections, List.flatMap_singleton]
  rw [moveValue, h, List.flatMap_singleton, hpicks, List.filter_map, List.map_map]
  refine congrArg List.sum ?_
  simp [Function.comp_def, Context.weight]

open Classical in
/-- The valuations that moves of probability other than zero lead to, in the order of the choices and
the updates. -/
noncomputable def successorsOf (s : List ℤ) : List (List ℤ) :=
  (((p.choicesAt c s).flatMap picks).filter fun us => c.weight s us ≠ 0).map (c.turn s)

theorem mem_successorsOf {p : Program} {c : Context RationalFunction} {s t : List ℤ} :
    t ∈ p.successorsOf c s ↔
      ∃ choice ∈ p.choicesAt c s, ∃ us ∈ picks choice, c.weight s us ≠ 0 ∧ c.turn s us = t := by
  simp only [successorsOf, List.mem_map, List.mem_filter, List.mem_flatMap, decide_eq_true_eq]
  constructor
  · rintro ⟨us, ⟨⟨choice, hchoice, hus⟩, hw⟩, rfl⟩
    exact ⟨choice, hchoice, us, hus, hw, rfl⟩
  · rintro ⟨choice, hchoice, us, hus, hw, rfl⟩
    exact ⟨us, ⟨⟨choice, hchoice, hus⟩, hw⟩, rfl⟩

/-- The valuations that moves of probability other than zero lead to from the initial ones. -/
inductive Reachable (initial : List (List ℤ)) : List ℤ → Prop where
  | initial {s : List ℤ} (hs : s ∈ initial) : Reachable initial s
  | move {s : List ℤ} {choice : List Command} {us : List Update} (hs : Reachable initial s)
      (hchoice : choice ∈ p.choicesAt c s) (hus : us ∈ picks choice) (hw : c.weight s us ≠ 0) :
      Reachable initial (c.turn s us)

/-- What decides the moves of a valuation has a value: the guards of all commands, the probabilities
of all updates of its choices, and the assignments of those updates that are possible. -/
structure EvaluatesAt (s : List ℤ) : Prop where
  guards : ∀ m ∈ p.modules, ∀ command ∈ m.commands, ∃ b, command.guard.evalBool (c.env s) = .ok b
  probabilities : ∀ choice ∈ p.choicesAt c s, ∀ command ∈ choice, ∀ u ∈ command.updates,
    ∃ f, u.probability.evalValue (c.env s) = .ok f
  assignments : ∀ choice ∈ p.choicesAt c s, ∀ command ∈ choice, ∀ u ∈ command.updates,
    c.valueOf s u ≠ 0 → ∀ a ∈ u.assignments,
      ∃ v ∈ c.vars, v.name = a.1 ∧ ∃ n, c.assigned? s v a.2 = some n

/-- The initial valuations: that of the declared initial values, or all valuations within the ranges
that satisfy the predicate of the program, in lexicographic order. -/
structure IsInitial (initial : List (List ℤ)) : Prop where
  declared : p.init = none → initial = [c.vars.map (·.initial)]
  satisfying : ∀ e, p.init = some e → initial.Pairwise (· < ·) ∧
    ∀ s, s ∈ initial ↔ c.vars.InRange s ∧ e.evalBool (c.env s) = .ok true

/-- A model is what a program describes, its states being the given valuations in this order. -/
structure IsSemantics (initial states : List (List ℤ)) (m : Model RationalFunction) : Prop where
  numStates : m.numStates = states.length
  nodup : states.Nodup
  inRange : ∀ s ∈ states, c.vars.InRange s
  reachable : ∀ s, s ∈ states ↔ p.Reachable c initial s
  evaluates : ∀ s ∈ states, p.EvaluatesAt c s
  initial_first : initial <+: states
  initial_states : m.initial = List.range initial.length
  /-- A valuation is found as an initial one, or as a successor of the valuations in the order in
  which they are found. -/
  breadth_first : states = (initial ++ states.flatMap (p.successorsOf c)).eraseDups
  /-- Targets ascend, so there is at most one transition between two states. -/
  ascend : ∀ i, (m.row i).Pairwise (·.1 < ·.1)
  /-- There is a transition exactly if the probability of the move is not zero, which is its value. -/
  transition : ∀ i s, states[i]? = some s → p.choicesAt c s ≠ [] → ∀ j f, (j, f) ∈ m.row i ↔
    ∃ t, states[j]? = some t ∧ p.moveValue c s t ≠ 0 ∧ f.Denotes (p.moveValue c s t)
  /-- A valuation without choices stays. -/
  deadlock : ∀ i s, states[i]? = some s → p.choicesAt c s = [] → m.row i = [(i, .one)]

end Program
end MarkovCheck
