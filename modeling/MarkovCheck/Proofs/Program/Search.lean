import Mathlib
import MarkovCheck.Proofs.Program.Build

/-!
# MarkovCheck.Proofs.Program.Search

The search stays within the ranges of the variables, and it ends.

The search is taken apart into steps that find one valuation each: first the initial valuations, then, for each
valuation that is visited, the targets of its moves. The initial valuations are within the ranges, and so is
what the assignments of a choice make of a valuation within the ranges. Every step keeps the list of what has
been found and the map of numbers inverse to each other, so the list never gets longer than there are
valuations, and as a visit takes the next entry of the list, there is an end to the visits.

* `Moment`, `Step`, `Moment.Ends` — the search between two steps, its steps, and its ends.
* `Step.isSound`    — what one step keeps; `isSound_of_steps` — what holds at any moment.
* `acc_of_isSound`  — no search goes on forever.
* `steps_run`       — the steps are those of the search with fuel, which never runs out.
* `explore_ends`    — the search of a program.
-/

namespace MarkovCheck

/-! ## Valuations within the ranges -/

namespace Program

variable {V : Type} {p : Program} {c : Context V} {s : List ℤ}

/-- The initial valuations are within the ranges, by default or by enumeration. -/
theorem initialStates_inRange {initial : List (List ℤ)} (hvars : c.vars.IsResolved)
    (h : p.initialStates c = .ok initial) : ∀ t ∈ initial, c.vars.InRange t := by
  unfold initialStates at h
  split at h
  · cases h
    exact List.forall_mem_singleton.2 hvars.initial_inRange
  · rw [satisfying_ok h]
    exact fun t ht => Variables.mem_all.1 (List.mem_filter.1 ht).1

variable [Value V] {ds : List (Distribution V)}

/-- The choices of a valuation within the ranges lead to such valuations. -/
theorem targetsOf_inRange (hvars : c.vars.IsResolved) (hs : c.vars.InRange s)
    (hds : c.choices p.dynamics s = .ok ds) : ∀ t ∈ Exploration.targetsOf ds, c.vars.InRange t := by
  intro t ht
  rw [Exploration.targetsOf, flatten_choices hds] at ht
  obtain ⟨e, he, rfl⟩ := List.mem_map.1 ht
  obtain ⟨us, hus, houtcome⟩ := List.mem_filterMap.1 he
  have hevaluates := updates_evaluate hds us hus
  unfold Context.outcome? at houtcome
  split at houtcome
  · cases houtcome
  · rename_i hpossible
    cases houtcome
    -- No update has probability zero, so all assignments were evaluated.
    have hassigned : ∀ u ∈ us, ∃ ns, c.assignments s u.assignments = .ok ns := fun u hu =>
      (hevaluates u hu).2 (Bool.eq_false_iff.2 fun hz => hpossible (List.any_eq_true.2 ⟨u, hu, hz⟩))
    change c.vars.InRange (Context.assign s (us.flatMap (c.writes s)))
    rw [Context.assign_writes hvars hs hassigned]
    exact c.turn_inRange hvars hs us

end Program

namespace Exploration

variable {V : Type}

/-! ## One valuation at a time -/

/-- What a search does next. -/
inductive Task (V : Type) where
  /-- It finds the initial valuations that are left. -/
  | initial (rest : List (List ℤ))
  /-- It visits the next valuation, if there is one. -/
  | next
  /-- It adds the moves that are left of the valuation with number `s`. -/
  | moves (s : ℕ) (rest : List (List ℤ × V))

namespace Task

/-- The valuations that are looked up next. -/
def pending : Task V → List (List ℤ)
  | initial rest => rest
  | next => []
  | moves _ rest => rest.map (·.1)

/-- The number of steps before the next visit, the first one apart. -/
def length : Task V → ℕ
  | initial rest => rest.length
  | next => 0
  | moves _ rest => rest.length + 1

end Task

/-- A search between two steps: the exploration, and the valuations that have been visited, in this order. -/
structure Moment (V : Type) where
  x : Exploration V
  visited : List (List ℤ)
  task : Task V

namespace Moment

/-- The begin of a search. -/
def start (initial : List (List ℤ)) : Moment V := ⟨{}, [], .initial initial⟩

/-- What holds at any moment: numbers and valuations are inverse to each other, all valuations are within the
ranges, and those that have been visited are the first ones, each once. -/
structure IsSound (c : Context V) (m : Moment V) : Prop where
  numbered : m.x.Numbered
  inRange : ∀ t ∈ m.x.found, c.vars.InRange t
  pending : ∀ t ∈ m.task.pending, c.vars.InRange t
  visited : m.visited <+: m.x.found

end Moment

variable [Value V]

/-- One step of a search. -/
inductive Step (c : Context V) (dynamics : Dynamics) (fixDeadlocks : Bool) : Moment V → Moment V → Prop where
  /-- An initial valuation is found. -/
  | initial {x : Exploration V} {l rest : List (List ℤ)} {t : List ℤ} :
      Step c dynamics fixDeadlocks ⟨x, l, .initial (t :: rest)⟩ ⟨x.addInitial t, l, .initial rest⟩
  | begin {x : Exploration V} {l : List (List ℤ)} :
      Step c dynamics fixDeadlocks ⟨x, l, .initial []⟩ ⟨x, l, .next⟩
  /-- The next valuation is visited, and nothing is enabled. -/
  | deadlock {x : Exploration V} {l : List (List ℤ)} {state : List ℤ}
      (hstate : x.found[l.length]? = some state) (hds : c.choices dynamics state = .ok [])
      (hfix : fixDeadlocks = true) :
      Step c dynamics fixDeadlocks ⟨x, l, .next⟩
        ⟨{ x with
            builder := x.builder.addTransition l.length l.length Value.one
            deadlocks := x.deadlocks.push l.length },
          l ++ [state], .next⟩
  /-- The next valuation is visited, and its choices are known. -/
  | visit {x : Exploration V} {l : List (List ℤ)} {state : List ℤ} {ds : List (Distribution V)}
      (hstate : x.found[l.length]? = some state) (hds : c.choices dynamics state = .ok ds) (hne : ds ≠ []) :
      Step c dynamics fixDeadlocks ⟨x, l, .next⟩ ⟨x, l ++ [state], .moves l.length (movesOf state ds)⟩
  /-- The target of a move is found, and the move is added. -/
  | move {x : Exploration V} {l : List (List ℤ)} {s : ℕ} {e : List ℤ × V} {rest : List (List ℤ × V)} :
      Step c dynamics fixDeadlocks ⟨x, l, .moves s (e :: rest)⟩ ⟨x.move s e, l, .moves s rest⟩
  | finish {x : Exploration V} {l : List (List ℤ)} {s : ℕ} :
      Step c dynamics fixDeadlocks ⟨x, l, .moves s []⟩ ⟨x, l, .next⟩

variable {c : Context V} {dynamics : Dynamics} {fixDeadlocks : Bool} {m m' m₁ m₂ : Moment V}
  {x y : Exploration V} {l : List (List ℤ)} {state : List ℤ} {fuel : ℕ}
  {r : Except BuildError (Exploration V)}

/-- How a search ends: when all valuations that were found have been visited, or with a visit that fails. -/
inductive Moment.Ends (c : Context V) (dynamics : Dynamics) (fixDeadlocks : Bool) :
    Moment V → Except BuildError (Exploration V) → Prop where
  | done (y : Exploration V) : Ends c dynamics fixDeadlocks ⟨y, y.found, .next⟩ (.ok y)
  | fails {x : Exploration V} {l : List (List ℤ)} {state : List ℤ} {err : BuildError}
      (hstate : x.found[l.length]? = some state)
      (herr : x.expand c dynamics fixDeadlocks l.length state = .error err) :
      Ends c dynamics fixDeadlocks ⟨x, l, .next⟩ (.error err)

/-- There is at most one next step. -/
theorem Step.deterministic (h₁ : Step c dynamics fixDeadlocks m m₁)
    (h₂ : Step c dynamics fixDeadlocks m m₂) : m₁ = m₂ := by
  cases h₁ with
  | initial => cases h₂; rfl
  | begin => cases h₂; rfl
  | deadlock hstate hds =>
    cases h₂ with
    | deadlock hstate' =>
      cases hstate.symm.trans hstate'
      rfl
    | visit hstate' hds' hne =>
      cases hstate.symm.trans hstate'
      cases hds.symm.trans hds'
      exact (hne rfl).elim
  | visit hstate hds hne =>
    cases h₂ with
    | deadlock hstate' hds' =>
      cases hstate.symm.trans hstate'
      cases hds.symm.trans hds'
      exact (hne rfl).elim
    | visit hstate' hds' =>
      cases hstate.symm.trans hstate'
      cases hds.symm.trans hds'
      rfl
  | move => cases h₂; rfl
  | finish => cases h₂; rfl

/-! ## What every step keeps -/

omit [Value V] in
theorem Moment.IsSound.length_le (h : m.IsSound c) : m.x.found.length ≤ Variables.count c.vars :=
  Variables.length_le_count h.numbered.nodup h.inRange

omit [Value V] in
/-- Looking up a valuation keeps numbers and valuations inverse to each other. -/
theorem Moment.IsSound.discover {task task' : Task V} (h : Moment.IsSound c ⟨x, l, task⟩) {t : List ℤ}
    (ht : c.vars.InRange t) (hstates : y.states = (x.discover t).2.states)
    (hnumbers : y.numbers = (x.discover t).2.numbers)
    (hpending : ∀ u ∈ task'.pending, c.vars.InRange u) : Moment.IsSound c ⟨y, l, task'⟩ := by
  obtain ⟨hnum, hfound, -⟩ := h.numbered.discover t
  have hy : y.found = (x.discover t).2.found := congrArg Array.toList hstates
  constructor
  case numbered => exact ⟨hy ▸ hnum.nodup, fun u k => by rw [hnumbers, hy, hnum.numbers]⟩
  case inRange =>
    intro u hu
    rw [hy, hfound, List.mem_eraseDups, List.mem_append, List.mem_singleton] at hu
    rcases hu with hu | rfl
    · exact h.inRange u hu
    · exact ht
  case pending => exact hpending
  case visited =>
    rw [hy, hfound]
    exact h.visited.trans (prefix_eraseDups h.numbered.nodup [t])

omit [Value V] in
/-- The next valuation is the one behind those that have been visited. -/
theorem Moment.IsSound.visit {task task' : Task V} (h : Moment.IsSound c ⟨x, l, task⟩)
    (hstate : x.found[l.length]? = some state) (hstates : y.states = x.states)
    (hnumbers : y.numbers = x.numbers) (hpending : ∀ u ∈ task'.pending, c.vars.InRange u) :
    Moment.IsSound c ⟨y, l ++ [state], task'⟩ := by
  have hy : y.found = x.found := congrArg Array.toList hstates
  constructor
  case numbered => exact ⟨hy ▸ h.numbered.nodup, fun u k => by rw [hnumbers, hy, h.numbered.numbers]⟩
  case inRange => exact hy ▸ h.inRange
  case pending => exact hpending
  case visited =>
    obtain ⟨rest, hrest⟩ := h.visited
    have hrest : l ++ rest = x.found := hrest
    rw [← hrest, List.getElem?_append_right le_rfl, Nat.sub_self] at hstate
    cases rest with
    | nil => cases hstate
    | cons next rest =>
      obtain rfl : next = state := Option.some_inj.1 hstate
      exact ⟨rest, by rw [hy, ← hrest, List.append_assoc]; rfl⟩

omit [Value V] in
theorem Moment.isSound_start {initial : List (List ℤ)} (h : ∀ t ∈ initial, c.vars.InRange t) :
    (Moment.start initial).IsSound c where
  numbered := isExplored_empty.toNumbered
  inRange := nofun
  pending := h
  visited := List.nil_prefix

section Program

variable {p : Program} (hvars : c.vars.IsResolved)
include hvars

/-- Every step keeps all that holds at any moment. -/
theorem Step.isSound (hstep : Step c p.dynamics fixDeadlocks m m') (h : m.IsSound c) : m'.IsSound c := by
  cases hstep with
  | initial =>
    obtain ⟨ht, hrest⟩ := List.forall_mem_cons.1 h.pending
    exact h.discover ht rfl rfl hrest
  | begin => exact ⟨h.numbered, h.inRange, nofun, h.visited⟩
  | deadlock hstate => exact h.visit hstate rfl rfl nofun
  | visit hstate hds hne =>
    refine h.visit hstate rfl rfl fun t ht => ?_
    rw [Task.pending, map_fst_movesOf hne] at ht
    exact Program.targetsOf_inRange hvars (h.inRange _ (List.mem_of_getElem? hstate)) hds t ht
  | move =>
    obtain ⟨ht, hrest⟩ := List.forall_mem_cons.1 h.pending
    exact h.discover ht rfl rfl hrest
  | finish => exact ⟨h.numbered, h.inRange, nofun, h.visited⟩

theorem isSound_of_steps (hsteps : Relation.ReflTransGen (Step c p.dynamics fixDeadlocks) m m')
    (h : m.IsSound c) : m'.IsSound c := by
  induction hsteps with
  | refl => exact h
  | tail _ hstep ih => exact hstep.isSound hvars ih

/-! ## The end of a search -/

omit hvars in
/-- What decreases: the number of visits that are possible, and the steps before the next one. -/
def rank (c : Context V) (m : Moment V) : ℕ ×ₗ ℕ :=
  toLex (Variables.count c.vars - m.visited.length + (match m.task with | .initial _ => 1 | _ => 0),
    m.task.length)

omit hvars in
theorem Step.rank_lt (hstep : Step c dynamics fixDeadlocks m m') (h : m.IsSound c) : rank c m' < rank c m := by
  rw [Prod.Lex.lt_iff]
  cases hstep with
  | initial => exact .inr ⟨rfl, Nat.lt_succ_self _⟩
  | begin => exact .inl (Nat.lt_succ_self _)
  | deadlock hstate | visit hstate =>
    have hlt := (List.getElem?_eq_some_iff.1 hstate).1.trans_le h.length_le
    refine .inl ?_
    simp only [rank, ofLex_toLex, List.length_append, List.length_singleton]
    omega
  | move => exact .inr ⟨rfl, Nat.lt_succ_self _⟩
  | finish => exact .inr ⟨rfl, Nat.lt_succ_self _⟩

/-- No search goes on forever. -/
theorem acc_of_isSound (h : m.IsSound c) : Acc (fun m' m => Step c p.dynamics fixDeadlocks m m') m := by
  induction hr : rank c m using WellFoundedLT.induction generalizing m with
  | ind r ih =>
    subst hr
    exact Acc.intro m fun m' hstep => ih _ (hstep.rank_lt h) (hstep.isSound hvars h) rfl

end Program

/-! ## The search with fuel -/

theorem steps_moves (x : Exploration V) (l : List (List ℤ)) (s : ℕ) (es : List (List ℤ × V)) :
    Relation.ReflTransGen (Step c dynamics fixDeadlocks) ⟨x, l, .moves s es⟩
      ⟨es.foldl (Exploration.move s) x, l, .next⟩ := by
  induction es generalizing x with
  | nil => exact .single .finish
  | cons e es ih => exact .head .move (ih (x.move s e))

theorem steps_initial (x : Exploration V) (l initial : List (List ℤ)) :
    Relation.ReflTransGen (Step c dynamics fixDeadlocks) ⟨x, l, .initial initial⟩
      ⟨initial.foldl Exploration.addInitial x, l, .next⟩ := by
  induction initial generalizing x with
  | nil => exact .single .begin
  | cons t initial ih => exact .head .initial (ih (x.addInitial t))

/-- Visiting a valuation takes steps up to the next visit. -/
theorem steps_expand (hstate : x.found[l.length]? = some state)
    (h : x.expand c dynamics fixDeadlocks l.length state = .ok y) :
    Relation.ReflTransGen (Step c dynamics fixDeadlocks) ⟨x, l, .next⟩ ⟨y, l ++ [state], .next⟩ := by
  unfold expand at h
  split at h
  · cases h
  · rename_i hds
    split at h
    · rename_i hfix
      cases h
      exact .single (.deadlock hstate hds hfix)
    · cases h
  · rename_i ds hne hds
    cases h
    rw [foldl_addTransitions l.length x hne]
    exact .head (.visit hstate hds hne) (steps_moves x _ _ _)

omit [Value V] in
/-- When everything that was found has been visited, no valuation is next. -/
theorem getElem?_done (y : Exploration V) : y.found[y.found.length]? = none := List.getElem?_eq_none le_rfl

/-- At the end there is no next step. -/
theorem Moment.Ends.not_step (h : m.Ends c dynamics fixDeadlocks r) : ¬ Step c dynamics fixDeadlocks m m' := by
  intro hstep
  cases h with
  | done y =>
    cases hstep with
    | deadlock hstate => cases (getElem?_done y).symm.trans hstate
    | visit hstate => cases (getElem?_done y).symm.trans hstate
  | fails hstate herr =>
    unfold expand at herr
    cases hstep with
    | deadlock hstate' hds hfix =>
      cases hstate.symm.trans hstate'
      rw [hds] at herr
      cases (if_pos hfix).symm.trans herr
    | visit hstate' hds hne =>
      cases hstate.symm.trans hstate'
      rw [hds] at herr
      split at herr
      · rename_i h'
        cases h'
      · rename_i h'
        cases h'
        exact hne rfl
      · cases herr

/-- A search has one result only. -/
theorem Moment.Ends.unique {r' : Except BuildError (Exploration V)} (h : m.Ends c dynamics fixDeadlocks r)
    (h' : m.Ends c dynamics fixDeadlocks r') : r = r' := by
  cases h with
  | done y =>
    cases h' with
    | done => rfl
    | fails hstate => cases (getElem?_done y).symm.trans hstate
  | fails hstate herr =>
    cases h' with
    | done => cases (getElem?_done _).symm.trans hstate
    | fails hstate' herr' =>
      cases hstate.symm.trans hstate'
      cases herr.symm.trans herr'
      rfl

/-- The search with fuel takes these steps up to an end; the fuel does not run out before. -/
theorem steps_run {p : Program} (hvars : c.vars.IsResolved) (h : Moment.IsSound c ⟨x, l, .next⟩)
    (hfuel : Variables.count c.vars < fuel + l.length) :
    ∃ m, Relation.ReflTransGen (Step c p.dynamics fixDeadlocks) ⟨x, l, .next⟩ m ∧
      m.Ends c p.dynamics fixDeadlocks (run c p.dynamics fixDeadlocks fuel l.length x) := by
  induction fuel generalizing x l with
  | zero =>
    have hle : l.length ≤ Variables.count c.vars := h.visited.length_le.trans h.length_le
    omega
  | succ fuel ih =>
    cases hstate : x.states[l.length]? with
    | none =>
      have hge : x.found.length ≤ l.length := by
        rw [found, Array.length_toList]
        exact Array.getElem?_eq_none_iff.1 hstate
      have hall : l = x.found := h.visited.eq_of_length_le hge
      simp only [run, hstate]
      exact ⟨_, .refl, hall ▸ .done x⟩
    | some state =>
      have hstate' : x.found[l.length]? = some state := by rwa [found, Array.getElem?_toList]
      cases hz : x.expand c p.dynamics fixDeadlocks l.length state with
      | error err =>
        simp only [run, hstate, hz]
        exact ⟨_, .refl, .fails hstate' hz⟩
      | ok z =>
        have hsteps := steps_expand hstate' hz
        have hlength : (l ++ [state]).length = l.length + 1 := List.length_append
        obtain ⟨m, hm, hend⟩ := ih (isSound_of_steps hvars hsteps h) (by omega)
        rw [hlength] at hend
        simp only [run, hstate, hz]
        exact ⟨m, hsteps.trans hm, hend⟩

end Exploration

/-! ## The search of a program -/

namespace Program

open Exploration (Moment Step)

variable {V : Type} [Value V] {p : Program} {o : BuildOptions} {constants : Constants V} {vars : Variables}
  {initial : List (List ℤ)}

/-- The moments of the search from some initial valuations. -/
def Reaches (p : Program) (o : BuildOptions) (c : Context V) (initial : List (List ℤ)) : Moment V → Prop :=
  Relation.ReflTransGen (Step c p.dynamics o.fixDeadlocks) (.start initial)

/-- There is one end only. -/
theorem Reaches.end_unique {c : Context V} {m m' : Moment V} {r r' : Except BuildError (Exploration V)}
    (h : p.Reaches o c initial m) (h' : p.Reaches o c initial m')
    (hend : m.Ends c p.dynamics o.fixDeadlocks r) (hend' : m'.Ends c p.dynamics o.fixDeadlocks r') : m = m' := by
  have hunique : Relator.RightUnique (Step c p.dynamics o.fixDeadlocks) :=
    fun _ _ _ h₁ h₂ => h₁.deterministic h₂
  rcases Relation.ReflTransGen.total_of_right_unique hunique h h' with h | h
  · exact (Relation.ReflTransGen.cases_head h).resolve_right fun ⟨_, hstep, _⟩ => hend.not_step hstep
  · exact ((Relation.ReflTransGen.cases_head h).resolve_right fun ⟨_, hstep, _⟩ => hend'.not_step hstep).symm

/-- At any moment of a search, after every single look-up, the map of numbers and the list of valuations are
inverse to each other, every valuation has values that the declarations allow, and the valuations that have
been visited are the first ones in the list, each once, which has at most as many entries as the product of
the range sizes. A search never goes on forever, and what the program returns is how it ends. -/
theorem explore_ends (hvars : resolveVariables p constants = .ok vars)
    (hinitial : p.initialStates ⟨constants, vars⟩ = .ok initial) :
    (∀ m, p.Reaches o ⟨constants, vars⟩ initial m →
      m.x.Numbered ∧ (∀ t ∈ m.x.found, p.Admits constants t) ∧ m.visited <+: m.x.found ∧
        m.x.found.length ≤ (vars.map fun v => (v.upper - v.lower + 1).toNat).prod) ∧
    Acc (fun m' m => Step ⟨constants, vars⟩ p.dynamics o.fixDeadlocks m m') (.start initial) ∧
    ∀ r, p.explore o ⟨constants, vars⟩ initial = r ↔
      ∃ m, p.Reaches o ⟨constants, vars⟩ initial m ∧
        m.Ends ⟨constants, vars⟩ p.dynamics o.fixDeadlocks r := by
  have hresolved := resolveVariables_isResolved hvars
  have hstart := Moment.isSound_start (initialStates_inRange (c := ⟨constants, vars⟩) hresolved hinitial)
  have hbegin : p.Reaches o ⟨constants, vars⟩ initial
      ⟨initial.foldl Exploration.addInitial {}, [], .next⟩ := Exploration.steps_initial {} [] initial
  have hfuel : Variables.count vars < Variables.count vars + 1 + ([] : List (List ℤ)).length :=
    Nat.lt_succ_self _
  obtain ⟨m, hm, hend⟩ := Exploration.steps_run hresolved
    (Exploration.isSound_of_steps hresolved hbegin hstart) hfuel
  have hm : p.Reaches o ⟨constants, vars⟩ initial m := hbegin.trans hm
  refine ⟨fun m' hm' => ?_, Exploration.acc_of_isSound hresolved hstart, fun r => ⟨?_, ?_⟩⟩
  · have hsound := Exploration.isSound_of_steps hresolved hm' hstart
    exact ⟨hsound.numbered, fun t ht => admits_of_inRange hvars (hsound.inRange t ht), hsound.visited,
      hsound.length_le.trans_eq (Variables.count_eq_prod vars)⟩
  · rintro rfl
    exact ⟨m, hm, hend⟩
  · rintro ⟨m', hm', hend'⟩
    obtain rfl := hm.end_unique hm' hend hend'
    exact hend.unique hend'

/-- The search of the sender and the receiver ends, and finds at most four valuations. -/
theorem relay_explore_ends : ∃ y : Exploration RationalFunction,
    relay.explore {} relayContext [[0, 0]] = .ok y ∧
      relay.Reaches {} relayContext [[0, 0]] ⟨y, y.found, .next⟩ ∧ y.Numbered ∧
        (∀ t ∈ y.found, relay.Admits relayContext.constants t) ∧ y.found.length ≤ 4 := by
  have hvars : resolveVariables relay relayContext.constants = .ok relayContext.vars := rfl
  have hinitial : relay.initialStates relayContext = .ok [[0, 0]] := rfl
  obtain ⟨hmoment, -, hresult⟩ := explore_ends (o := {}) hvars hinitial
  have hresolved := resolveVariables_isResolved hvars
  obtain ⟨hstart, hfound, -⟩ :=
    Exploration.isExplored_initial (V := RationalFunction) (List.nodup_singleton [0, 0])
  obtain ⟨y, hy⟩ : ∃ y, relay.explore {} relayContext [[0, 0]] = .ok y :=
    Exploration.run_isOk (P := relayContext.vars.InRange)
      (fun s hs t ht => by
        obtain ⟨ds, hds, -⟩ := relay_canExpand hs
        rw [Exploration.nextStates, Exploration.distributionsAt, hds] at ht
        exact targetsOf_inRange hresolved hs hds t ht)
      (fun s hs => relay_canExpand hs) hstart
      (by rw [hfound]; exact initialStates_inRange hresolved hinitial)
  obtain ⟨m, hm, hend⟩ := (hresult _).1 hy
  obtain ⟨hnumbered, hadmits, -, hlength⟩ := hmoment m hm
  cases hend
  exact ⟨y, hy, hm, hnumbered, hadmits, hlength⟩

end Program
end MarkovCheck
