import Mathlib
import MarkovCheck.Proofs.Program.Semantics
import MarkovCheck.Proofs.Text.Names

/-!
# MarkovCheck.Proofs.Program.Choices

The computed choices of a valuation are those of the program.

The distribution of a choice is built command by command, and lists the ways to take one update of
each command, but for those with an update of probability zero. Assignments are carried out one after
the other; as they are evaluated in the valuation that is left, the last one to a variable counts.

* `mem_picks`       — the ways to take one update of each command.
* `distribution_ok` — the distribution of a choice.
* `assign_writes`, `turn_inRange` — the valuation that the updates of a choice lead to.
* `choices_spec`, `choices_ok` — the distributions of all choices.
-/

namespace MarkovCheck

/-! ## Updates of a choice -/

theorem mem_picks {choice : List Command} {us : List Update} :
    us ∈ picks choice ↔ List.Forall₂ (fun u command => u ∈ command.updates) us choice := by
  rw [picks, List.mem_sections, List.forall₂_map_right_iff]

theorem picks_cons (command : Command) (rest : List Command) :
    picks (command :: rest) = (picks rest).flatMap fun us => command.updates.map (· :: us) := by
  rw [picks, List.map_cons, List.sections, picks]

theorem exists_of_mem_picks {choice : List Command} {us : List Update} (h : us ∈ picks choice) :
    ∀ u ∈ us, ∃ command ∈ choice, u ∈ command.updates := by
  intro u hu
  obtain ⟨i, hi, rfl⟩ := List.mem_iff_getElem.1 hu
  have hall := mem_picks.1 h
  have hlength := hall.length_eq
  exact ⟨choice[i], List.getElem_mem _, (List.forall₂_iff_get.1 hall).2 i hi (hlength ▸ hi)⟩

namespace Context

variable {V : Type} {c : Context V} {s : List ℤ} {u : Update} {us : List Update}

/-! ## Assignments -/

/-- The positions and values that an update writes. -/
def writes (c : Context V) (s : List ℤ) (u : Update) : List (ℕ × ℤ) :=
  match c.assignments s u.assignments with
  | .ok ns => ns
  | .error _ => []

theorem assignments_cons {a : String × Expression} {as : List (String × Expression)}
    {ns : List (ℕ × ℤ)} : c.assignments s (a :: as) = .ok ns ↔
      ∃ i v n ms, Variables.find? c.vars a.1 = some (i, v) ∧ c.assigned? s v a.2 = some n ∧
        c.assignments s as = .ok ms ∧ ns = (i, n) :: ms := by
  simp only [assignments, assigned?]
  constructor
  · intro h
    split at h
    · cases h
    · rename_i i v hfind
      split at h
      · cases h
      · rename_i x hx
        split at h
        · cases h
        · rename_i n hn
          split at h
          · cases h
          · rename_i ms hms
            cases h
            exact ⟨i, v, n, ms, hfind, by simp [hx, hn, Except.toOption], hms, rfl⟩
  · rintro ⟨i, v, n, ms, hfind, hn, hms, rfl⟩
    cases hx : a.2.eval (c.env s) with
    | error err => simp [hx] at hn
    | ok x =>
      cases hk : v.store x with
      | error err => simp [hx, hk, Except.toOption] at hn
      | ok k =>
        obtain rfl : k = n := by simpa [hx, hk, Except.toOption] using hn
        simp only [hfind, hk, hms]

theorem assignments_append {as bs : List (String × Expression)} {ns ms : List (ℕ × ℤ)}
    (h : c.assignments s as = .ok ns) (h' : c.assignments s bs = .ok ms) :
    c.assignments s (as ++ bs) = .ok (ns ++ ms) := by
  induction as generalizing ns with
  | nil =>
    cases h
    exact h'
  | cons a as ih =>
    obtain ⟨i, v, n, ks, hfind, hn, hks, rfl⟩ := assignments_cons.1 h
    exact assignments_cons.2 ⟨i, v, n, ks ++ ms, hfind, hn, ih hks, rfl⟩

theorem assignments_flatMap (h : ∀ u ∈ us, ∃ ns, c.assignments s u.assignments = .ok ns) :
    c.assignments s (us.flatMap (·.assignments)) = .ok (us.flatMap (c.writes s)) := by
  induction us with
  | nil => rfl
  | cons u us ih =>
    rw [List.forall_mem_cons] at h
    obtain ⟨⟨ns, hns⟩, hus⟩ := h
    have hwrites : c.writes s u = ns := by rw [writes, hns]
    rw [List.flatMap_cons, List.flatMap_cons, hwrites]
    exact assignments_append hns (ih hus)

theorem exists_assigned {as : List (String × Expression)} {ns : List (ℕ × ℤ)}
    (h : c.assignments s as = .ok ns) :
    ∀ a ∈ as, ∃ v ∈ c.vars, v.name = a.1 ∧ ∃ n, c.assigned? s v a.2 = some n := by
  induction as generalizing ns with
  | nil => exact nofun
  | cons a as ih =>
    obtain ⟨i, v, n, ks, hfind, hn, hks, -⟩ := assignments_cons.1 h
    obtain ⟨hv, hname⟩ := Variables.find?_eq_some hfind
    exact List.forall_mem_cons.2 ⟨⟨v, List.mem_of_getElem? hv, hname, n, hn⟩, ih hks⟩

theorem nextValue_cons_of_name {as : List (String × Expression)} {a : String × Expression}
    {v : Variable} (hname : v.name = a.1) {n k : ℤ} (hk : c.assigned? s v a.2 = some k)
    (has : ∀ e, as.reverse.lookup v.name = some e → (c.assigned? s v e).isSome) :
    c.nextValue s (a :: as) v n = c.nextValue s as v k := by
  unfold nextValue
  rw [List.reverse_cons, List.lookup_append]
  cases he : as.reverse.lookup v.name with
  | none =>
    rw [Option.none_or, List.lookup_cons, hname, beq_self_eq_true]
    exact congrArg (Option.getD · n) hk
  | some e =>
    obtain ⟨j, hj⟩ := Option.isSome_iff_exists.1 (has e he)
    simp [hj]

theorem nextValue_cons_of_ne {as : List (String × Expression)} {a : String × Expression}
    {v : Variable} (hname : v.name ≠ a.1) (n : ℤ) :
    c.nextValue s (a :: as) v n = c.nextValue s as v n := by
  unfold nextValue
  rw [List.reverse_cons, List.lookup_append, List.lookup_cons, beq_eq_false_iff_ne.2 hname,
    List.lookup_nil, Option.or_none]

/-- Only the variable at the position of the first assignment starts with another value. -/
theorem zipWith_nextValue_set (hvars : c.vars.IsResolved) {a : String × Expression}
    {as : List (String × Expression)} {i : ℕ} {v : Variable} (hv : c.vars[i]? = some v)
    (hname : v.name = a.1) {n : ℤ} (hn : c.assigned? s v a.2 = some n)
    (has : ∀ e, as.reverse.lookup v.name = some e → (c.assigned? s v e).isSome) (t : List ℤ) :
    List.zipWith (c.nextValue s as) c.vars (t.set i n) =
      List.zipWith (c.nextValue s (a :: as)) c.vars t := by
  obtain ⟨hi, hvi⟩ := List.getElem?_eq_some_iff.1 hv
  refine List.ext_getElem (by simp) fun j hj hj' => ?_
  rw [List.getElem_zipWith, List.getElem_zipWith, List.getElem_set]
  by_cases hij : i = j
  · subst hij
    rw [if_pos rfl, hvi, nextValue_cons_of_name hname hn has]
  · have hjv : j < c.vars.length := by
      rw [List.length_zipWith] at hj'
      omega
    have hne : c.vars[j].name ≠ a.1 := by
      intro heq
      have hsame := List.inj_on_of_nodup_map hvars.names_nodup (List.getElem_mem hjv)
        (List.getElem_mem hi) (heq.trans (hvi ▸ hname).symm)
      exact hij ((List.Nodup.getElem_inj_iff (hvars.names_nodup.of_map _)).1 hsame).symm
    rw [if_neg hij, nextValue_cons_of_ne hne]

/-- Assignments that are carried out one after the other leave what the last one to each variable
says. -/
theorem assign_eq_zipWith (hvars : c.vars.IsResolved) {as : List (String × Expression)}
    {ns : List (ℕ × ℤ)} (h : c.assignments s as = .ok ns) {t : List ℤ}
    (ht : t.length = c.vars.length) : assign t ns = List.zipWith (c.nextValue s as) c.vars t := by
  induction as generalizing t ns with
  | nil =>
    cases h
    refine List.ext_getElem (by simp [assign, ht]) fun j _ _ => ?_
    rw [List.getElem_zipWith]
    rfl
  | cons a as ih =>
    obtain ⟨i, v, n, ks, hfind, hn, hks, rfl⟩ := assignments_cons.1 h
    obtain ⟨hv, hname⟩ := Variables.find?_eq_some hfind
    rw [← zipWith_nextValue_set hvars hv hname hn fun e he => ?_,
      ← ih hks (by rw [List.length_set, ht])]
    · rfl
    · -- A later assignment to the same variable has been evaluated, too.
      obtain ⟨l, r, heq, -⟩ := List.lookup_eq_some_iff.1 he
      have hmem : (v.name, e) ∈ as := List.mem_reverse.1 (by rw [heq]; simp)
      obtain ⟨w, hw, hwname, k, hk⟩ := exists_assigned hks _ hmem
      obtain rfl := List.inj_on_of_nodup_map hvars.names_nodup hw (List.mem_of_getElem? hv) hwname
      rw [hk]
      rfl

theorem assign_writes (hvars : c.vars.IsResolved) (hs : c.vars.InRange s)
    (h : ∀ u ∈ us, ∃ ns, c.assignments s u.assignments = .ok ns) :
    assign s (us.flatMap (c.writes s)) = c.turn s us :=
  assign_eq_zipWith hvars (assignments_flatMap h) hs.length_eq.symm

theorem assigned?_inRange {v : Variable} (hv : v.IsResolved) {e : Expression} {n : ℤ}
    (h : c.assigned? s v e = some n) : v.lower ≤ n ∧ n ≤ v.upper := by
  unfold assigned? at h
  split at h
  · rename_i x _
    cases hx : v.store x with
    | ok k =>
      rw [hx] at h
      obtain rfl : k = n := Option.some_inj.1 h
      exact Variable.store_inRange hv.bool_range hx
    | error err =>
      rw [hx] at h
      cases h
  · cases h

theorem nextValue_inRange {v : Variable} (hv : v.IsResolved) (as : List (String × Expression)) {n : ℤ}
    (hn : v.lower ≤ n ∧ n ≤ v.upper) :
    v.lower ≤ c.nextValue s as v n ∧ c.nextValue s as v n ≤ v.upper := by
  unfold nextValue
  split
  · exact hn
  · rename_i e _
    cases he : c.assigned? s v e with
    | none => exact hn
    | some k => exact assigned?_inRange hv he

theorem turn_inRange (hvars : c.vars.IsResolved) (hs : c.vars.InRange s) (us : List Update) :
    c.vars.InRange (c.turn s us) := by
  have hzip : ∀ {vs : Variables} {t : List ℤ}, (∀ v ∈ vs, v.IsResolved) → vs.InRange t →
      vs.InRange (List.zipWith (c.nextValue s (us.flatMap (·.assignments))) vs t) := by
    intro vs t hvs ht
    induction ht with
    | nil => exact .nil
    | cons hn _ ih =>
      rw [List.forall_mem_cons] at hvs
      exact .cons (nextValue_inRange hvs.1 _ hn) (ih hvs.2)
  exact hzip hvars.resolved hs

/-! ## Updates -/

variable [Value V] {d d' : Distribution V} {cs : List Command}

/-- The computed probability of an update. -/
def probabilityAt (c : Context V) (s : List ℤ) (u : Update) : V :=
  match u.probability.evalValue (c.env s) with
  | .ok v => v
  | .error _ => Value.zero

/-- The probability of an update has a value, and so have its assignments unless it is zero. -/
def UpdateEvaluates (c : Context V) (s : List ℤ) (u : Update) : Prop :=
  (∃ v, u.probability.evalValue (c.env s) = .ok v) ∧
    (Value.isZero (c.probabilityAt s u) = false → ∃ ns, c.assignments s u.assignments = .ok ns)

/-- What an update makes of a distribution. -/
def effect (c : Context V) (s : List ℤ) (d : Distribution V) (u : Update) : Distribution V :=
  if Value.isZero (c.probabilityAt s u) then []
  else d.map fun t => (assign t.1 (c.writes s u), Value.mul t.2 (c.probabilityAt s u))

theorem applyUpdate_ok (h : c.applyUpdate s u d = .ok d') :
    c.UpdateEvaluates s u ∧ d' = c.effect s d u := by
  unfold applyUpdate probability at h
  split at h
  · cases h
  · rename_i v hv
    split at hv
    · cases hv
    · rename_i w hw
      split at hv
      · cases hv
      · cases hv
        have hprob : c.probabilityAt s u = v := by rw [probabilityAt, hw]
        split at h
        · rename_i hz
          cases h
          exact ⟨⟨⟨v, hw⟩, fun hz' => by rw [hprob, hz] at hz'; cases hz'⟩,
            by rw [effect, hprob, if_pos hz]⟩
        · rename_i hz
          split at h
          · cases h
          · rename_i ns hns
            cases h
            exact ⟨⟨⟨v, hw⟩, fun _ => ⟨ns, hns⟩⟩, by rw [effect, hprob, if_neg hz, writes, hns]⟩

theorem applyUpdates_ok (h : c.applyUpdates s d us = .ok d') :
    (∀ u ∈ us, c.UpdateEvaluates s u) ∧ d' = us.flatMap (c.effect s d) := by
  induction us generalizing d' with
  | nil =>
    cases h
    exact ⟨nofun, rfl⟩
  | cons u us ih =>
    simp only [applyUpdates] at h
    split at h
    · cases h
    · rename_i ts hts
      split at h
      · cases h
      · rename_i ts' hts'
        cases h
        obtain ⟨hu, rfl⟩ := applyUpdate_ok hts
        obtain ⟨hus, rfl⟩ := ih hts'
        exact ⟨List.forall_mem_cons.2 ⟨hu, hus⟩, List.flatMap_cons.symm⟩

/-! ## Commands -/

theorem effect_append (d d' : Distribution V) (u : Update) :
    c.effect s (d ++ d') u = c.effect s d u ++ c.effect s d' u := by
  unfold effect
  split
  · rfl
  · exact List.map_append

theorem foldl_effect_append (us : List Update) (d d' : Distribution V) :
    us.foldl (c.effect s) (d ++ d') = us.foldl (c.effect s) d ++ us.foldl (c.effect s) d' := by
  induction us generalizing d d' with
  | nil => rfl
  | cons u us ih => rw [List.foldl_cons, List.foldl_cons, List.foldl_cons, effect_append, ih]

theorem foldl_effect_nil (us : List Update) : us.foldl (c.effect s) [] = [] := by
  induction us with
  | nil => rfl
  | cons u us ih =>
    rw [List.foldl_cons, effect, List.map_nil, ite_self, ih]

theorem foldl_effect_flatMap (us : List Update) (l : List Update) (g : Update → Distribution V) :
    us.foldl (c.effect s) (l.flatMap g) = l.flatMap fun u => us.foldl (c.effect s) (g u) := by
  induction l with
  | nil => exact foldl_effect_nil us
  | cons u l ih => rw [List.flatMap_cons, foldl_effect_append, ih, List.flatMap_cons]

theorem applyCommands_ok (h : c.applyCommands s d cs = .ok d') :
    (∀ command ∈ cs, ∀ u ∈ command.updates, c.UpdateEvaluates s u) ∧
      d' = (picks cs).flatMap fun us => us.foldl (c.effect s) d := by
  induction cs generalizing d with
  | nil =>
    cases h
    exact ⟨nofun, by simp [picks]⟩
  | cons command cs ih =>
    simp only [applyCommands] at h
    split at h
    · cases h
    · rename_i d₁ hd₁
      obtain ⟨hupdates, rfl⟩ := applyUpdates_ok hd₁
      obtain ⟨hrest, rfl⟩ := ih h
      refine ⟨List.forall_mem_cons.2 ⟨hupdates, hrest⟩, ?_⟩
      rw [picks_cons, List.flatMap_assoc]
      refine List.flatMap_congr fun us _ => ?_
      rw [foldl_effect_flatMap, List.flatMap_map]
      rfl

/-- Where updates lead from a valuation, with the product of their probabilities; nowhere if one of
these is zero. -/
def outcome? (c : Context V) (s : List ℤ) (us : List Update) : Option (List ℤ × V) :=
  if us.any fun u => Value.isZero (c.probabilityAt s u) then none
  else some (assign s (us.flatMap (c.writes s)),
    us.foldl (fun w u => Value.mul w (c.probabilityAt s u)) Value.one)

theorem foldl_effect_singleton (us : List Update) (t : List ℤ) (w : V) :
    us.foldl (c.effect s) [(t, w)] =
      if us.any fun u => Value.isZero (c.probabilityAt s u) then []
      else [(assign t (us.flatMap (c.writes s)),
        us.foldl (fun w u => Value.mul w (c.probabilityAt s u)) w)] := by
  induction us generalizing t w with
  | nil => rfl
  | cons u us ih =>
    rw [List.foldl_cons, List.any_cons, effect]
    cases hz : Value.isZero (c.probabilityAt s u) with
    | true => exact foldl_effect_nil us
    | false =>
      rw [if_neg Bool.false_ne_true, List.map_singleton, ih, Bool.false_or, List.flatMap_cons,
        assign, assign, assign, List.foldl_append, List.foldl_cons]

/-- What can come of a choice. -/
def outcomes (c : Context V) (s : List ℤ) (choice : List Command) : Distribution V :=
  (picks choice).filterMap (c.outcome? s)

/-- All updates of a choice have values. -/
def ChoiceEvaluates (c : Context V) (s : List ℤ) (choice : List Command) : Prop :=
  ∀ command ∈ choice, ∀ u ∈ command.updates, c.UpdateEvaluates s u

/-- The distribution of a choice lists what can come of it. -/
theorem distribution_ok (h : c.distribution s cs = .ok d) :
    c.ChoiceEvaluates s cs ∧ d = c.outcomes s cs := by
  unfold distribution at h
  split at h
  · cases h
  · rename_i d₁ hd₁
    obtain ⟨hupdates, rfl⟩ := applyCommands_ok hd₁
    dsimp only at h
    split at h
    · cases h
      refine ⟨hupdates, ?_⟩
      rw [outcomes, List.filterMap_eq_flatMap_toList]
      refine List.flatMap_congr fun us _ => ?_
      rw [foldl_effect_singleton, outcome?]
      split <;> rfl
    · cases h

/-- A choice has a distribution, which lists what can come of it. -/
def Distributes (c : Context V) (s : List ℤ) (choice : List Command) : Prop :=
  c.distribution s choice = .ok (c.outcomes s choice)

/-! ## Choices -/

variable {l : List Command} {ls : List (List Command)} {ds : List (Distribution V)}

/-- The guard of a command has a truth value. -/
def GuardEvaluates (c : Context V) (s : List ℤ) (command : Command) : Prop :=
  ∃ b, command.guard.evalBool (c.env s) = .ok b

omit [Value V] in
theorem enabled_ok {cs : List Command} (h : c.enabled s l = .ok cs) :
    (∀ command ∈ l, c.GuardEvaluates s command) ∧ cs = l.filter (c.holds s ·.guard) := by
  induction l generalizing cs with
  | nil =>
    cases h
    exact ⟨nofun, rfl⟩
  | cons command l ih =>
    simp only [enabled] at h
    split at h
    · cases h
    · rename_i b hb
      split at h
      · cases h
      · rename_i cs hcs
        cases h
        obtain ⟨hguards, rfl⟩ := ih hcs
        have hholds : c.holds s command.guard = b := by rw [holds, hb]
        refine ⟨List.forall_mem_cons.2 ⟨⟨b, hb⟩, hguards⟩, ?_⟩
        rw [List.filter_cons, hholds]

theorem interleavedChoices_ok (h : c.interleavedChoices s l = .ok ds) :
    (∀ command ∈ l, c.GuardEvaluates s command) ∧
      (∀ command ∈ l.filter (c.holds s ·.guard), c.Distributes s [command]) ∧
        ds = (l.filter (c.holds s ·.guard)).map fun command => c.outcomes s [command] := by
  induction l generalizing ds with
  | nil =>
    cases h
    exact ⟨nofun, nofun, rfl⟩
  | cons command l ih =>
    simp only [interleavedChoices] at h
    split at h
    · cases h
    · rename_i hb
      obtain ⟨hguards, hchoices, rfl⟩ := ih h
      have hholds : c.holds s command.guard = false := by rw [holds, hb]
      rw [List.filter_cons_of_neg (by rw [hholds]; exact Bool.false_ne_true)]
      exact ⟨List.forall_mem_cons.2 ⟨⟨false, hb⟩, hguards⟩, hchoices, rfl⟩
    · rename_i hb
      split at h
      · cases h
      · rename_i d hd
        split at h
        · cases h
        · rename_i ds hds
          cases h
          obtain ⟨hguards, hchoices, rfl⟩ := ih hds
          obtain ⟨-, rfl⟩ := distribution_ok hd
          have hholds : c.holds s command.guard = true := by rw [holds, hb]
          rw [List.filter_cons_of_pos (by exact hholds), List.map_cons]
          exact ⟨List.forall_mem_cons.2 ⟨⟨true, hb⟩, hguards⟩,
            List.forall_mem_cons.2 ⟨hd, hchoices⟩, rfl⟩

theorem distributions_ok (h : c.distributions s ls = .ok ds) :
    (∀ choice ∈ ls, c.Distributes s choice) ∧ ds = ls.map (c.outcomes s) := by
  induction ls generalizing ds with
  | nil =>
    cases h
    exact ⟨nofun, rfl⟩
  | cons choice ls ih =>
    simp only [distributions] at h
    split at h
    · cases h
    · rename_i d hd
      split at h
      · cases h
      · rename_i ds hds
        cases h
        obtain ⟨-, rfl⟩ := distribution_ok hd
        obtain ⟨hchoices, rfl⟩ := ih hds
        exact ⟨List.forall_mem_cons.2 ⟨hd, hchoices⟩, rfl⟩

omit [Value V] in
theorem enabledAll_ok {css : List (List Command)} (h : c.enabledAll s ls = .ok css) :
    (∀ l ∈ ls, ∀ command ∈ l, c.GuardEvaluates s command) ∧
      css = ls.map fun l => l.filter (c.holds s ·.guard) := by
  induction ls generalizing css with
  | nil =>
    cases h
    exact ⟨nofun, rfl⟩
  | cons l ls ih =>
    simp only [enabledAll] at h
    split at h
    · cases h
    · rename_i cs hcs
      split at h
      · cases h
      · rename_i css hcss
        cases h
        obtain ⟨hguards, rfl⟩ := enabled_ok hcs
        obtain ⟨hrest, rfl⟩ := ih hcss
        exact ⟨List.forall_mem_cons.2 ⟨hguards, hrest⟩, rfl⟩

/-- The choices of an action: one enabled command of every participant. -/
def combinationsOf (c : Context V) (s : List ℤ) (participants : List (List Command)) :
    List (List Command) :=
  combinations (participants.map fun l => l.filter (c.holds s ·.guard))

theorem allSynchronisedChoices_ok {actions : List (List (List Command))}
    (h : c.allSynchronisedChoices s actions = .ok ds) :
    (∀ participants ∈ actions, ∀ l ∈ participants, ∀ command ∈ l, c.GuardEvaluates s command) ∧
      (∀ choice ∈ actions.flatMap (c.combinationsOf s), c.Distributes s choice) ∧
        ds = (actions.flatMap (c.combinationsOf s)).map (c.outcomes s) := by
  induction actions generalizing ds with
  | nil =>
    cases h
    exact ⟨nofun, nofun, rfl⟩
  | cons participants actions ih =>
    simp only [allSynchronisedChoices, synchronisedChoices] at h
    split at h
    · cases h
    · rename_i ds₁ hds₁
      split at h
      · cases h
      · rename_i ds₂ hds₂
        cases h
        split at hds₁
        · cases hds₁
        · rename_i css hcss
          obtain ⟨hguards, rfl⟩ := enabledAll_ok hcss
          obtain ⟨hchoices, rfl⟩ := distributions_ok hds₁
          obtain ⟨hguards', hchoices', rfl⟩ := ih hds₂
          rw [List.flatMap_cons, List.map_append]
          exact ⟨List.forall_mem_cons.2 ⟨hguards, hguards'⟩,
            List.forall_mem_append.2 ⟨hchoices, hchoices'⟩, rfl⟩

end Context

/-! ## Programs -/

namespace Program

variable {V : Type} {p : Program} {c : Context V} {s : List ℤ}

theorem mem_actions {action : String} :
    action ∈ p.actions ↔ ∃ m ∈ p.modules, ∃ command ∈ m.commands, command.action = some action := by
  simp only [actions, mem_sortNames, List.mem_flatMap, List.mem_filterMap]

theorem interleaved_eq (p : Program) (c : Context V) (s : List ℤ) :
    p.dynamics.interleaved.filter (c.holds s ·.guard) = p.modules.flatMap (c.enabledOf s none) := by
  rw [dynamics, List.filter_flatMap]
  refine List.flatMap_congr fun m _ => ?_
  rw [List.filter_filter, Context.enabledOf]
  refine List.filter_congr fun command _ => ?_
  rcases command.action with _ | a <;> simp

theorem combinationsOf_participants (p : Program) (c : Context V) (s : List ℤ) (action : String) :
    c.combinationsOf s (p.participants action) =
      combinations ((p.modules.filter (·.hasAction action)).map (c.enabledOf s (some action))) := by
  rw [Context.combinationsOf, participants, List.filter_map, List.map_map]
  have hhas : ((fun l : List Command => !l.isEmpty) ∘ fun m : Module => m.commandsOf action) =
      (·.hasAction action) := by
    funext m
    rw [Function.comp_apply, Module.commandsOf, Module.hasAction, Bool.eq_iff_iff]
    simp
  rw [hhas]
  refine congrArg combinations (List.map_congr_left fun m _ => ?_)
  rw [Function.comp_apply, Module.commandsOf, List.filter_filter, Context.enabledOf]
  exact List.filter_congr fun command _ => Bool.and_comm _ _

/-- The computed distributions are those of the choices of the program, in the same order. -/
theorem choices_spec [Value V] {ds : List (Distribution V)} (h : c.choices p.dynamics s = .ok ds) :
    (∀ m ∈ p.modules, ∀ command ∈ m.commands, c.GuardEvaluates s command) ∧
      (∀ choice ∈ p.choicesAt c s, c.Distributes s choice) ∧
        ds = (p.choicesAt c s).map (c.outcomes s) := by
  unfold Context.choices at h
  split at h
  · cases h
  · rename_i ds₁ hds₁
    split at h
    · cases h
    · rename_i ds₂ hds₂
      cases h
      obtain ⟨hguards, hchoices, rfl⟩ := Context.interleavedChoices_ok hds₁
      obtain ⟨hguards', hchoices', rfl⟩ := Context.allSynchronisedChoices_ok hds₂
      rw [interleaved_eq] at hchoices ⊢
      have hsync : p.dynamics.synchronised.flatMap (c.combinationsOf s) =
          p.actions.flatMap fun action => combinations
            ((p.modules.filter (·.hasAction action)).map (c.enabledOf s (some action))) := by
        rw [dynamics, List.flatMap_map]
        exact List.flatMap_congr fun action _ => combinationsOf_participants p c s action
      rw [hsync] at hchoices' ⊢
      refine ⟨fun m hm command hcommand => ?_, ?_, ?_⟩
      · cases haction : command.action with
        | none =>
          refine hguards command (List.mem_flatMap.2 ⟨m, hm, List.mem_filter.2 ⟨hcommand, ?_⟩⟩)
          rw [haction]
          rfl
        | some action =>
          have hmem : command ∈ m.commandsOf action :=
            List.mem_filter.2 ⟨hcommand, by simp [haction]⟩
          refine hguards' _ (List.mem_map_of_mem (mem_actions.2 ⟨m, hm, command, hcommand, haction⟩))
            (m.commandsOf action) (List.mem_filter.2 ⟨List.mem_map_of_mem hm, ?_⟩) command hmem
          rw [List.isEmpty_eq_false_iff.2 (List.ne_nil_of_mem hmem)]
          rfl
      · intro choice hchoice
        rcases List.mem_append.1 hchoice with hchoice | hchoice
        · obtain ⟨m, hm, hchoice⟩ := List.mem_flatMap.1 hchoice
          obtain ⟨command, hcommand, rfl⟩ := List.mem_map.1 hchoice
          exact hchoices command (List.mem_flatMap.2 ⟨m, hm, hcommand⟩)
        · exact hchoices' choice hchoice
      · rw [choicesAt, List.map_append, List.map_flatMap, List.map_flatMap, List.map_flatMap]
        simp only [List.map_map, Function.comp_def]

/-- What the choices are made of has values. -/
theorem choices_ok [Value V] {ds : List (Distribution V)} (h : c.choices p.dynamics s = .ok ds) :
    (∀ m ∈ p.modules, ∀ command ∈ m.commands, c.GuardEvaluates s command) ∧
      (∀ choice ∈ p.choicesAt c s, c.ChoiceEvaluates s choice) ∧
        ds = (p.choicesAt c s).map (c.outcomes s) := by
  obtain ⟨hguards, hchoices, hds⟩ := choices_spec h
  exact ⟨hguards, fun choice hchoice => (Context.distribution_ok (hchoices choice hchoice)).1, hds⟩

end Program
end MarkovCheck
