import Mathlib
import MarkovCheck.Program.Variables

/-!
# MarkovCheck.Proofs.Program.Variables

The valuations of the variables of a program.

Variables that were resolved have different names and an initial value in their range, and whatever
is stored for a variable lies in its range. So all valuations that occur are among the finitely many
within the ranges.

* `InRange`          — every variable has a value in its range.
* `mem_all`, `all_ascend`, `length_all` — the list of these valuations.
* `IsResolved`, `resolveVariables_isResolved` — what is known of the variables of a program.
* `VariableDecl.Admits`, `Program.admits_of_inRange` — the values that the declarations allow.
-/

namespace MarkovCheck

/-- A range is not empty, its initial value is in it, and that of truth values is `[0..1]`. -/
structure Variable.IsResolved (v : Variable) : Prop where
  lower_le : v.lower ≤ v.initial
  le_upper : v.initial ≤ v.upper
  bool_range : v.isBool = true → v.lower = 0 ∧ v.upper = 1

theorem Variable.store_inRange {v : Variable} (hv : v.isBool = true → v.lower = 0 ∧ v.upper = 1)
    {s : Scalar} {n : ℤ} (h : v.store s = .ok n) : v.lower ≤ n ∧ n ≤ v.upper := by
  unfold Variable.store at h
  split at h
  · rename_i b hbool
    obtain ⟨hl, hu⟩ := hv hbool
    cases h
    cases b <;> simp [hl, hu]
  · split at h
    · rename_i hin
      cases h
      simpa [Variable.inRange] using hin
    · cases h
  · cases h

namespace Variables

/-- Every variable has a value in its range. -/
def InRange : Variables → List ℤ → Prop :=
  List.Forall₂ fun v n => v.lower ≤ n ∧ n ≤ v.upper

theorem InRange.length_eq {vs : Variables} {s : List ℤ} (h : InRange vs s) : vs.length = s.length :=
  List.Forall₂.length_eq h

/-! ## All valuations -/

theorem mem_range {v : Variable} {n : ℤ} : n ∈ v.range ↔ v.lower ≤ n ∧ n ≤ v.upper := by
  simp only [Variable.range, List.mem_map, List.mem_range]
  constructor
  · rintro ⟨k, hk, rfl⟩
    omega
  · exact fun h => ⟨(n - v.lower).toNat, by omega, by omega⟩

theorem mem_all {vs : Variables} {s : List ℤ} : s ∈ all vs ↔ InRange vs s := by
  induction vs generalizing s with
  | nil => simp [all, InRange]
  | cons v vs ih =>
    simp only [all, List.mem_flatMap, mem_range, List.mem_map, ih, InRange,
      List.forall₂_cons_left_iff]
    constructor
    · rintro ⟨n, hn, t, ht, rfl⟩
      exact ⟨n, t, hn, ht, rfl⟩
    · rintro ⟨n, t, hn, ht, rfl⟩
      exact ⟨n, hn, t, ht, rfl⟩

theorem all_ascend (vs : Variables) : (all vs).Pairwise (· < ·) := by
  induction vs with
  | nil => exact List.pairwise_singleton _ _
  | cons v vs ih =>
    rw [all, List.pairwise_flatMap]
    refine ⟨fun n _ => ?_, ?_⟩
    · rw [List.pairwise_map]
      exact ih.imp fun h => List.cons_lt_cons_iff.2 (.inr ⟨rfl, h⟩)
    · rw [Variable.range, List.pairwise_map]
      refine List.pairwise_lt_range.imp fun {j k} hjk => ?_
      simp only [List.mem_map]
      rintro _ ⟨s, -, rfl⟩ _ ⟨t, -, rfl⟩
      exact List.cons_lt_cons_iff.2 (.inl (by omega))

theorem count_eq_prod (vs : Variables) : count vs = (vs.map fun v => (v.upper - v.lower + 1).toNat).prod := by
  rw [count, List.prod_eq_foldl, List.foldl_map]

theorem length_all (vs : Variables) : (all vs).length = count vs := by
  rw [count_eq_prod]
  induction vs with
  | nil => rfl
  | cons v vs ih =>
    rw [List.map_cons, List.prod_cons, ← ih]
    simp [all, List.length_flatMap, Variable.range, Function.comp_def]

theorem length_le_count {vs : Variables} {l : List (List ℤ)} (hl : l.Nodup)
    (h : ∀ s ∈ l, InRange vs s) : l.length ≤ count vs := by
  rw [← length_all]
  exact (hl.subperm fun s hs => mem_all.2 (h s hs)).length_le

/-! ## Positions -/

theorem find?_eq_some {vs : Variables} {name : String} {i : ℕ} {v : Variable}
    (h : find? vs name = some (i, v)) : vs[i]? = some v ∧ v.name = name := by
  induction vs generalizing i with
  | nil => cases h
  | cons w vs ih =>
    unfold find? at h
    split at h
    · rename_i hname
      cases h
      exact ⟨rfl, hname⟩
    · obtain ⟨⟨j, u⟩, hj, heq⟩ := Option.map_eq_some_iff.1 h
      cases heq
      exact ih hj

theorem find?_isSome_iff {vs : Variables} {name : String} :
    (find? vs name).isSome = true ↔ name ∈ vs.map (·.name) := by
  induction vs with
  | nil => simp [find?]
  | cons w vs ih =>
    unfold find?
    split
    · rename_i hname
      simp [hname]
    · rename_i hname
      rw [Option.isSome_map, ih, List.map_cons, List.mem_cons]
      exact ⟨.inr, fun h => h.resolve_left fun heq => hname heq.symm⟩

/-- Different names, and well-formed ranges. -/
structure IsResolved (vs : Variables) : Prop where
  names_nodup : (vs.map (·.name)).Nodup
  resolved : ∀ v ∈ vs, v.IsResolved

theorem IsResolved.initial_inRange {vs : Variables} (h : vs.IsResolved) : InRange vs vs.initial := by
  rw [InRange, initial, List.forall₂_map_right_iff, List.forall₂_same]
  exact fun v hv => ⟨(h.resolved v hv).lower_le, (h.resolved v hv).le_upper⟩

end Variables

/-! ## Resolving -/

section Resolve

variable {V : Type} {env : Env V} {d : VariableDecl} {earlier vs : Variables} {v : Variable}

theorem VariableDecl.bounds_bool {l u : ℤ} {b : Bool} (h : d.bounds env = .ok (l, u, b)) :
    b = true → l = 0 ∧ u = 1 := by
  unfold VariableDecl.bounds at h
  split at h
  · cases h
    exact fun _ => ⟨rfl, rfl⟩
  · split at h
    · cases h
    · split at h
      · cases h
      · cases h
        exact nofun

/-- A number is a value of the declared type: 0 or 1 for a truth value, else one between the bounds. -/
def VariableDecl.Admits (d : VariableDecl) (env : Env V) (n : ℤ) : Prop :=
  match d.type with
  | .bool => n = 0 ∨ n = 1
  | .range lower upper => ∃ l u, lower.evalInt env = .ok l ∧ upper.evalInt env = .ok u ∧ l ≤ n ∧ n ≤ u

theorem VariableDecl.admits_of_bounds {l u n : ℤ} {b : Bool} (h : d.bounds env = .ok (l, u, b))
    (hn : l ≤ n ∧ n ≤ u) : d.Admits env n := by
  unfold VariableDecl.Admits
  cases htype : d.type with
  | bool =>
    simp only [VariableDecl.bounds, htype] at h
    cases h
    change n = 0 ∨ n = 1
    omega
  | range lower upper =>
    simp only [VariableDecl.bounds, htype] at h
    split at h
    · cases h
    · rename_i l' hl
      split at h
      · cases h
      · rename_i u' hu
        cases h
        exact ⟨l, u, hl, hu, hn⟩

/-- A resolved variable has the bounds that were declared. -/
theorem VariableDecl.resolve_bounds (h : d.resolve env earlier = .ok v) :
    d.bounds env = .ok (v.lower, v.upper, v.isBool) := by
  unfold VariableDecl.resolve at h
  split at h
  · cases h
  · rename_i l u b hbounds
    split at h
    · cases h
    · split at h
      · cases h
      · dsimp only at h
        split at h
        · cases h
        · cases h
          exact hbounds

theorem VariableDecl.resolve_spec (h : d.resolve env earlier = .ok v) :
    v.IsResolved ∧ v.name ∉ earlier.map (·.name) := by
  unfold VariableDecl.resolve at h
  split at h
  · cases h
  · rename_i l u b hbounds
    have hbool := bounds_bool hbounds
    split at h
    · cases h
    · rename_i hrange
      split at h
      · cases h
      · rename_i hname
        rw [Variables.find?_isSome_iff] at hname
        dsimp only at h
        split at h
        · cases h
        · rename_i n hn
          cases h
          suffices hn' : l ≤ n ∧ n ≤ u from ⟨⟨hn'.1, hn'.2, hbool⟩, hname⟩
          unfold VariableDecl.initialValue at hn
          split at hn
          · cases hn
            exact ⟨le_rfl, not_lt.1 hrange⟩
          · split at hn
            · cases hn
            · exact Variable.store_inRange hbool hn

theorem resolveVariablesFrom_isResolved (hvs : vs.IsResolved) {ds : List VariableDecl}
    {ws : Variables} (h : resolveVariablesFrom env vs ds = .ok ws) : ws.IsResolved := by
  induction ds generalizing vs with
  | nil =>
    cases h
    exact hvs
  | cons d ds ih =>
    simp only [resolveVariablesFrom] at h
    split at h
    · cases h
    · rename_i v hv
      obtain ⟨hv, hname⟩ := VariableDecl.resolve_spec hv
      refine ih ⟨?_, ?_⟩ h
      · rw [List.map_append, List.map_singleton]
        exact hvs.names_nodup.append (List.nodup_singleton _) (by simpa using hname)
      · intro w hw
        rcases List.mem_append.1 hw with hw | hw
        · exact hvs.resolved w hw
        · rwa [List.mem_singleton.1 hw]

theorem resolveVariables_isResolved {p : Program} {c : Constants V}
    (h : resolveVariables p c = .ok vs) : vs.IsResolved := by
  have hnil : Variables.IsResolved [] := ⟨List.nodup_nil, fun _ hv => (List.not_mem_nil hv).elim⟩
  exact resolveVariablesFrom_isResolved hnil h

theorem resolveVariablesFrom_bounds {ds : List VariableDecl} {ws : Variables}
    (h : resolveVariablesFrom env vs ds = .ok ws) : ∃ us, ws = vs ++ us ∧
      List.Forall₂ (fun d v => d.bounds env = .ok (v.lower, v.upper, v.isBool)) ds us := by
  induction ds generalizing vs with
  | nil =>
    cases h
    exact ⟨[], (List.append_nil _).symm, .nil⟩
  | cons d ds ih =>
    simp only [resolveVariablesFrom] at h
    split at h
    · cases h
    · rename_i v hv
      obtain ⟨us, rfl, hus⟩ := ih h
      exact ⟨v :: us, List.append_assoc _ _ _, .cons (VariableDecl.resolve_bounds hv) hus⟩

/-- Every variable of a program has a value that its declaration allows. -/
def Program.Admits (p : Program) (c : Constants V) : List ℤ → Prop :=
  List.Forall₂ (fun d n => d.Admits c.env n) (p.modules.flatMap (·.vars))

theorem Program.admits_of_inRange {p : Program} {c : Constants V} (h : resolveVariables p c = .ok vs)
    {s : List ℤ} (hs : vs.InRange s) : p.Admits c s := by
  obtain ⟨us, rfl, hus⟩ := resolveVariablesFrom_bounds h
  unfold Program.Admits
  generalize p.modules.flatMap (·.vars) = ds at hus
  clear h
  induction hus generalizing s with
  | nil =>
    cases hs
    exact .nil
  | cons hbounds _ ih =>
    obtain ⟨n, t, hn, ht, rfl⟩ := List.forall₂_cons_left_iff.1 hs
    exact .cons (VariableDecl.admits_of_bounds hbounds hn) (ih ht)

end Resolve

end MarkovCheck
