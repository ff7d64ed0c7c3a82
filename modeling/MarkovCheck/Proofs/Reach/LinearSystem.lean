import Mathlib
import MarkovCheck.Proofs.Chain.Vector
import MarkovCheck.Reach.LinearSystem

/-!
# MarkovCheck.Proofs.Reach.LinearSystem

Rows, equations, and triangular systems of them.

An equation is read with an unknown `u` in place of the constant one: `u = 1` is the equation itself,
`u = 0` its homogeneous form. A triangular system has exactly one solution for every choice of the
variables after its last, and for `u = 1` the back substitution computes it.

* `addEntry_spec`, `takeEntry_some`, `takeEntry_eq_none_iff` — an entry put into a row, and taken out.
* `Equation.ofRow_spec`, `Equation.addMultiple_spec` — what an equation says.
* `exists_solves`, `IsTriangular.unique`, `backSubstitute_spec` — triangular systems.
-/

namespace MarkovCheck

namespace RationalFunction

variable {f g h : RationalFunction} {a b : Frac}

theorem quotient?_some (hf : f.Denotes a) (hg : g.Denotes b) (hq : f.quotient? g = some h) :
    b ≠ 0 ∧ h.Denotes (a / b) := by
  unfold quotient? at hq
  split at hq
  · rename_i k hk
    cases hq
    by_cases h0 : b = 0
    · have hz : g.isZero = true := (isZero_iff hg.1).2 (hg.2.trans h0)
      simp [div?, hz] at hk
    · obtain ⟨k', hk', hd⟩ := div?_spec hf hg h0
      cases hk.symm.trans hk'
      exact ⟨h0, hd⟩
  · cases hq

theorem quotient?_none (hf : f.Denotes a) (hg : g.Denotes b) (hq : f.quotient? g = none) :
    b = 0 := by
  by_contra h0
  obtain ⟨k, hk, -⟩ := div?_spec hf hg h0
  rw [quotient?, hk] at hq
  cases hq

end RationalFunction

namespace LinearSystem

/-- Entries of a row: canonical values by ascending column, from `lo` on and below `n`. -/
inductive IsRow (n : ℕ) : ℕ → List (ℕ × RationalFunction) → Prop where
  | nil (lo : ℕ) : IsRow n lo []
  | cons {lo c : ℕ} {v : RationalFunction} {rest : List (ℕ × RationalFunction)} :
      lo ≤ c → c < n → v.IsCanonical → IsRow n (c + 1) rest → IsRow n lo ((c, v) :: rest)

/-- The sum of the entries, each times the unknown of its column. -/
noncomputable def linear (l : List (ℕ × RationalFunction)) (x : ℕ → Frac) : Frac :=
  (l.map fun g => g.2.toFrac * x g.1).sum

/-- The columns that have an entry. -/
def columns (l : List (ℕ × RationalFunction)) : List ℕ := l.map (·.1)

variable {n lo c i j k : ℕ} {l rest : List (ℕ × RationalFunction)} {x y : ℕ → Frac} {u a : Frac}

@[simp] theorem linear_nil (x : ℕ → Frac) : linear [] x = 0 := rfl

@[simp] theorem linear_cons (g : ℕ × RationalFunction) (l : List (ℕ × RationalFunction))
    (x : ℕ → Frac) : linear (g :: l) x = g.2.toFrac * x g.1 + linear l x := rfl

@[simp] theorem columns_nil : columns [] = [] := rfl

@[simp] theorem columns_cons (g : ℕ × RationalFunction) (l : List (ℕ × RationalFunction)) :
    columns (g :: l) = g.1 :: columns l := rfl

theorem IsRow.mono (h : IsRow n lo l) (hle : k ≤ lo) : IsRow n k l := by
  cases h with
  | nil => exact .nil k
  | cons h1 h2 h3 h4 => exact .cons (hle.trans h1) h2 h3 h4

theorem IsRow.mem (h : IsRow n lo l) :
    ∀ g ∈ l, lo ≤ g.1 ∧ g.1 < n ∧ g.2.IsCanonical := by
  induction h with
  | nil => exact fun g hg => (List.not_mem_nil hg).elim
  | cons h1 h2 h3 _ ih =>
    rw [List.forall_mem_cons]
    refine ⟨⟨h1, h2, h3⟩, fun g hg => ?_⟩
    obtain ⟨h5, h6⟩ := ih g hg
    exact ⟨by omega, h6⟩

theorem IsRow.mem_columns (h : IsRow n lo l) (hj : j ∈ columns l) : lo ≤ j ∧ j < n := by
  obtain ⟨g, hg, rfl⟩ := List.mem_map.1 hj
  obtain ⟨h1, h2, -⟩ := h.mem g hg
  exact ⟨h1, h2⟩

theorem linear_congr (h : ∀ g ∈ l, x g.1 = y g.1) : linear l x = linear l y := by
  rw [linear, linear, List.map_congr_left fun g hg => by rw [h g hg]]

theorem linear_eq_zero (h : ∀ g ∈ l, x g.1 = 0) : linear l x = 0 := by
  rw [linear_congr (y := 0) h]
  simp [linear]

theorem IsRow.of_le (h : IsRow n lo l) (hle : ∀ j ∈ columns l, k ≤ j) : IsRow n k l := by
  cases h with
  | nil => exact .nil k
  | cons h1 h2 h3 h4 => exact .cons (hle _ (List.mem_cons_self ..)) h2 h3 h4

/-! ## Adding entries -/

theorem addEntry_spec (h : IsRow n lo l) (hlo : lo ≤ c) (hn : c < n) {v : RationalFunction}
    (hv : v.Denotes a) :
    IsRow n lo (addEntry c v l) ∧ ∀ x, linear (addEntry c v l) x = linear l x + a * x c := by
  have hz : Value.isZero v = true → a = 0 := fun hz =>
    hv.2.symm.trans ((RationalFunction.isZero_iff hv.1).1 hz)
  induction h with
  | nil lo =>
    unfold addEntry
    split
    · rename_i h0
      exact ⟨.nil lo, fun x => by simp [hz h0]⟩
    · exact ⟨.cons hlo hn hv.1 (.nil _), fun x => by simp [hv.2]⟩
  | @cons lo d w rest h1 h2 h3 h4 ih =>
    unfold addEntry
    split
    · rename_i hlt
      split
      · rename_i h0
        exact ⟨.cons h1 h2 h3 h4, fun x => by simp [hz h0]⟩
      · refine ⟨.cons hlo hn hv.1 (.cons hlt h2 h3 h4), fun x => ?_⟩
        simp only [linear_cons, hv.2]
        ring
    · split
      · rename_i heq
        subst heq
        have hsum := RationalFunction.add_spec h3.denotes hv
        dsimp only
        split
        · rename_i h0
          have h0' : w.toFrac + a = 0 :=
            hsum.2.symm.trans ((RationalFunction.isZero_iff hsum.1).1 h0)
          refine ⟨h4.mono (by omega), fun x => ?_⟩
          simp only [linear_cons]
          linear_combination -x c * h0'
        · refine ⟨.cons h1 h2 hsum.1 h4, fun x => ?_⟩
          have hval : (Value.add w v).toFrac = w.toFrac + a := hsum.2
          simp only [linear_cons, hval]
          ring
      · obtain ⟨hr, hx⟩ := ih (by omega)
        refine ⟨.cons h1 h2 h3 hr, fun x => ?_⟩
        simp only [linear_cons, hx]
        ring

theorem mem_columns_addEntry {v : RationalFunction} (h : j ∈ columns (addEntry c v l)) :
    j = c ∨ j ∈ columns l := by
  induction l with
  | nil =>
    unfold addEntry at h
    split at h
    · exact .inr h
    · exact .inl (List.mem_singleton.1 h)
  | cons g l ih =>
    unfold addEntry at h
    dsimp only at h
    split_ifs at h
    · exact .inr h
    · exact List.mem_cons.1 h
    · exact .inr (List.mem_cons_of_mem _ h)
    · exact .inr h
    · rcases List.mem_cons.1 h with rfl | h
      · exact .inr (List.mem_cons_self ..)
      · exact (ih h).imp_right (List.mem_cons_of_mem _)

theorem mem_columns_foldl_addEntry (scale : RationalFunction → RationalFunction)
    {acc : List (ℕ × RationalFunction)}
    (h : j ∈ columns (l.foldl (fun entries g => addEntry g.1 (scale g.2) entries) acc)) :
    j ∈ columns acc ∨ j ∈ columns l := by
  induction l generalizing acc with
  | nil => exact .inl h
  | cons g l ih =>
    rw [columns_cons, List.mem_cons]
    rcases ih h with h | h
    · exact (mem_columns_addEntry h).symm.imp_right .inl
    · exact .inr (.inr h)

/-- Adding a multiple of every entry of a list adds the multiple of the sum. -/
theorem foldl_addEntry_spec (scale : RationalFunction → RationalFunction)
    (hscale : ∀ v : RationalFunction, v.IsCanonical → (scale v).Denotes (a * v.toFrac))
    {acc : List (ℕ × RationalFunction)} (hacc : IsRow n lo acc)
    (hl : ∀ g ∈ l, lo ≤ g.1 ∧ g.1 < n ∧ g.2.IsCanonical) :
    IsRow n lo (l.foldl (fun entries g => addEntry g.1 (scale g.2) entries) acc) ∧
      ∀ x, linear (l.foldl (fun entries g => addEntry g.1 (scale g.2) entries) acc) x =
        linear acc x + a * linear l x := by
  induction l generalizing acc with
  | nil => exact ⟨hacc, fun x => by simp⟩
  | cons g l ih =>
    rw [List.forall_mem_cons] at hl
    obtain ⟨h1, h2⟩ := addEntry_spec hacc hl.1.1 hl.1.2.1 (hscale g.2 hl.1.2.2)
    obtain ⟨h3, h4⟩ := ih h1 hl.2
    refine ⟨h3, fun x => ?_⟩
    rw [List.foldl_cons, h4, h2, linear_cons]
    ring

theorem IsRow.map_mul (h : IsRow n lo l) {v : RationalFunction} (hv : v.Denotes a) :
    IsRow n lo (l.map fun g => (g.1, Value.mul g.2 v)) ∧
      ∀ x, linear (l.map fun g => (g.1, Value.mul g.2 v)) x = linear l x * a := by
  induction h with
  | nil lo => exact ⟨.nil lo, fun x => by simp⟩
  | @cons _ _ w _ h1 h2 h3 _ ih =>
    have hm := RationalFunction.mul_spec h3.denotes hv
    refine ⟨.cons h1 h2 hm.1 ih.1, fun x => ?_⟩
    have hm' : (Value.mul w v).toFrac = w.toFrac * a := hm.2
    rw [List.map_cons, linear_cons, linear_cons, ih.2, hm']
    ring

/-! ## Taking an entry -/

theorem takeEntry_eq_none_iff : takeEntry c l = none ↔ c ∉ columns l := by
  induction l with
  | nil => simp [takeEntry]
  | cons g l ih =>
    rw [takeEntry, columns_cons, List.mem_cons, not_or]
    split
    · rename_i h
      exact iff_of_false nofun fun hnot => hnot.1 h.symm
    · rename_i h
      rw [Option.map_eq_none_iff, ih]
      exact (and_iff_right (Ne.symm h)).symm

/-- What remains is a row with the other columns, and the entry its difference to the old one. -/
theorem takeEntry_some {v : RationalFunction} (hl : IsRow n lo l)
    (h : takeEntry c l = some (v, rest)) :
    v.IsCanonical ∧ IsRow n lo rest ∧ (∀ j ∈ columns rest, j ∈ columns l ∧ j ≠ c) ∧
      ∀ x, linear l x = v.toFrac * x c + linear rest x := by
  induction hl generalizing rest with
  | nil => cases h
  | @cons lo d w tail h1 h2 h3 h4 ih =>
    rw [takeEntry] at h
    split at h
    · rename_i hd
      cases h
      subst hd
      exact ⟨h3, h4.mono (by omega), fun j hj =>
        ⟨List.mem_cons_of_mem _ hj, Nat.ne_of_gt (h4.mem_columns hj).1⟩, fun x => rfl⟩
    · rename_i hd
      obtain ⟨⟨w', others⟩, ho, heq⟩ := Option.map_eq_some_iff.1 h
      cases heq
      obtain ⟨i1, i2, i3, i4⟩ := ih ho
      refine ⟨i1, .cons h1 h2 h3 i2, fun j hj => ?_, fun x => ?_⟩
      · rcases List.mem_cons.1 hj with rfl | hj
        · exact ⟨List.mem_cons_self .., hd⟩
        · exact (i3 j hj).imp_left (List.mem_cons_of_mem _)
      · rw [linear_cons, linear_cons, i4]
        ring

/-! ## Equations -/

/-- An equation between variables from `lo` on and below `n`. -/
structure Equation.IsForm (n lo : ℕ) (e : Equation RationalFunction) : Prop where
  entries : IsRow n lo e.entries
  const : e.const.IsCanonical

/-- The right hand side, with `u` in place of one. -/
noncomputable def Equation.value (e : Equation RationalFunction) (x : ℕ → Frac) (u : Frac) : Frac :=
  linear e.entries x + e.const.toFrac * u

/-- The equations of the variables from `k` on hold. -/
def Solves (x : ℕ → Frac) (u : Frac) : ℕ → List (Equation RationalFunction) → Prop
  | _, [] => True
  | k, e :: rest => x k = e.value x u ∧ Solves x u (k + 1) rest

variable {e f : Equation RationalFunction} {es fs : List (Equation RationalFunction)}

theorem Equation.IsForm.mono (h : e.IsForm n lo) (hle : k ≤ lo) : e.IsForm n k :=
  ⟨h.entries.mono hle, h.const⟩

theorem Equation.IsForm.of_le (h : e.IsForm n lo) (hle : ∀ j ∈ columns e.entries, k ≤ j) :
    e.IsForm n k :=
  ⟨h.entries.of_le hle, h.const⟩

theorem Equation.IsForm.value_congr (h : e.IsForm n lo) (hxy : ∀ j, lo ≤ j → j < n → x j = y j) :
    e.value x u = e.value y u := by
  rw [value, value, linear_congr fun g hg => ?_]
  obtain ⟨h1, h2, -⟩ := h.entries.mem g hg
  exact hxy g.1 h1 h2

theorem solves_append : Solves x u k (es ++ fs) ↔ Solves x u k es ∧ Solves x u (k + es.length) fs := by
  induction es generalizing k with
  | nil => simp [Solves]
  | cons e es ih =>
    simp only [List.cons_append, Solves, ih, List.length_cons, and_assoc]
    rw [Nat.add_right_comm, Nat.add_assoc]

theorem solves_iff : Solves x u k es ↔ ∀ i e, es[i]? = some e → x (k + i) = e.value x u := by
  induction es generalizing k with
  | nil => simp [Solves]
  | cons e es ih =>
    rw [Solves, ih]
    constructor
    · rintro ⟨h, h'⟩ i f hf
      cases i with
      | zero =>
        cases hf
        exact h
      | succ i => exact Nat.add_right_comm k i 1 ▸ h' i f hf
    · intro h
      refine ⟨h 0 e rfl, fun i f hf => ?_⟩
      rw [Nat.add_right_comm]
      exact h (i + 1) f hf

theorem Solves.congr (hes : ∀ e ∈ es, e.IsForm n lo) (hk : k + es.length ≤ n)
    (hxy : ∀ j < n, x j = y j) (h : Solves x u k es) : Solves y u k es := by
  rw [solves_iff] at h ⊢
  intro i e he
  have hi := List.getElem?_eq_some_iff.1 he
  rw [← hxy (k + i) (by have := hi.1; omega), h i e he]
  exact (hes e (List.mem_of_getElem? he)).value_congr fun j _ hj => hxy j hj

theorem Equation.ofRow_spec {v : RationalFunction}
    (hl : ∀ g ∈ l, g.1 < n ∧ g.2.IsCanonical) (hv : v.IsCanonical) :
    (Equation.ofRow l v).IsForm n 0 ∧
      ∀ x u, (Equation.ofRow l v).value x u = linear l x + v.toFrac * u := by
  obtain ⟨h1, h2⟩ := foldl_addEntry_spec (a := 1) id (fun w hw => by simpa using hw.denotes)
    (.nil 0) fun g hg => ⟨Nat.zero_le _, hl g hg⟩
  refine ⟨⟨h1, hv⟩, fun x u => ?_⟩
  have := h2 x
  rw [linear_nil, zero_add, one_mul] at this
  rw [value, ← this]
  rfl

theorem Equation.addMultiple_spec (he : e.IsForm n lo) (hf : f.IsForm n lo) {v : RationalFunction}
    (hv : v.IsCanonical) : (e.addMultiple v f).IsForm n lo ∧
      ∀ x u, (e.addMultiple v f).value x u = e.value x u + v.toFrac * f.value x u := by
  obtain ⟨h1, h2⟩ := foldl_addEntry_spec (a := v.toFrac) (Value.mul v)
    (fun w hw => RationalFunction.mul_spec hv.denotes hw.denotes) he.entries hf.entries.mem
  have hc := RationalFunction.add_spec he.const.denotes
    (RationalFunction.mul_spec hv.denotes hf.const.denotes)
  refine ⟨⟨h1, hc.1⟩, fun x u => ?_⟩
  have hc' : (e.addMultiple v f).const.toFrac = e.const.toFrac + v.toFrac * f.const.toFrac := hc.2
  have hl : linear (e.addMultiple v f).entries x = linear e.entries x + v.toFrac * linear f.entries x :=
    h2 x
  rw [value, hc', hl, value, value]
  ring

/-! ## Triangular systems -/

/-- Each equation refers to later variables only. -/
def IsTriangular (n : ℕ) (es : List (Equation RationalFunction)) : Prop :=
  ∀ (j : ℕ) (e : Equation RationalFunction), es[j]? = some e → e.IsForm n (j + 1)

theorem IsTriangular.isForm (h : IsTriangular n es) : ∀ e ∈ es, e.IsForm n 0 := by
  intro e he
  obtain ⟨j, hj⟩ := List.getElem?_of_mem he
  exact (h j e hj).mono (Nat.zero_le _)

/-- A triangular system has a solution for every choice of the variables after its last. -/
theorem exists_solves (hs : IsTriangular n es) (y : ℕ → Frac) (u : Frac) :
    ∃ x, (∀ j ≥ es.length, x j = y j) ∧ Solves x u 0 es := by
  induction es using List.reverseRecOn generalizing y with
  | nil => exact ⟨y, fun _ _ => rfl, trivial⟩
  | append_singleton es e ih =>
    have hlast : (es ++ [e])[es.length]? = some e := by simp
    obtain ⟨x, hx, hsol⟩ := ih
      (fun j f hf => hs j f (by
        rw [List.getElem?_append_left (List.getElem?_eq_some_iff.1 hf).1, hf]))
      (Function.update y es.length (e.value y u))
    have hlater : ∀ j ≥ es.length + 1, x j = y j := fun j hj => by
      rw [hx j (by omega), Function.update_of_ne (by omega)]
    refine ⟨x, by simpa using hlater, solves_append.2 ⟨hsol, ?_, trivial⟩⟩
    rw [zero_add, hx _ le_rfl, Function.update_self]
    exact ((hs _ _ hlast).value_congr fun j hj _ => hlater j hj).symm

/-- Two solutions of a triangular system that agree on the variables after its last are equal. -/
theorem IsTriangular.unique (hs : IsTriangular n es) (hx : Solves x u 0 es) (hy : Solves y u 0 es)
    (hlater : ∀ j, es.length ≤ j → j < n → x j = y j) : ∀ j < es.length, x j = y j := by
  have hstep : ∀ d ≤ es.length, ∀ j, es.length - d ≤ j → j < es.length → x j = y j := by
    intro d
    induction d with
    | zero => intro _ j h1 h2; omega
    | succ d ih =>
      intro hd j h1 h2
      have hj := List.getElem?_eq_getElem h2
      have hxj := solves_iff.1 hx j _ hj
      have hyj := solves_iff.1 hy j _ hj
      rw [zero_add] at hxj hyj
      rw [hxj, hyj]
      refine (hs j _ hj).value_congr fun k hk hk' => ?_
      rcases lt_or_ge k es.length with hlt | hge
      · exact ih (by omega) k (by omega) hlt
      · exact hlater k hge hk'
  exact fun j hj => hstep es.length le_rfl j (by omega) hj

/-! ## Back substitution -/

variable {X : Array RationalFunction} {t : Array (Equation RationalFunction)}

theorem Equation.eval_spec (he : e.IsForm n lo) (hX : AllCanonical X) :
    (e.eval X).Denotes (e.value (vector X) 1) := by
  have hfold : ∀ (l : List (ℕ × RationalFunction)), (∀ g ∈ l, g.2.IsCanonical) →
      ∀ (v : RationalFunction) (b : Frac), v.Denotes b →
      (l.foldl (fun sum g => Value.add sum (Value.mul g.2 (X[g.1]?.getD Value.zero))) v).Denotes
        (b + linear l (vector X)) := by
    intro l
    induction l with
    | nil => exact fun _ v b hv => by simpa using hv
    | cons g l ih =>
      intro hl v b hv
      rw [List.forall_mem_cons] at hl
      have := ih hl.2 _ _ (RationalFunction.add_spec hv
        (RationalFunction.mul_spec hl.1.denotes (hX.getD g.1)))
      rwa [add_assoc] at this
  have := hfold e.entries (fun g hg => (he.entries.mem g hg).2.2) _ _ he.const.denotes
  rwa [add_comm, ← mul_one e.const.toFrac] at this

/-- One step of the back substitution. -/
def backStep (t : Array (Equation RationalFunction)) (i : ℕ) (X : Array RationalFunction) :
    Array RationalFunction :=
  match t[i]? with
  | some e => X.setIfInBounds i (e.eval X)
  | none => X

theorem backSubstitute_eq (t : Array (Equation RationalFunction)) : backSubstitute t =
    (List.range t.size).foldr (backStep t) (Array.replicate t.size Value.zero) := by
  rw [backSubstitute]
  congr 1
  funext i X
  unfold backStep
  cases t[i]? <;> rfl

/-- A step computes one variable from the later ones, and keeps those. -/
theorem backStep_spec (ht : IsTriangular n t.toList) (hi : i < t.size) (hsize : X.size = t.size)
    (hX : AllCanonical X) :
    (backStep t i X).size = t.size ∧ AllCanonical (backStep t i X) ∧
      (∀ j ≠ i, vector (backStep t i X) j = vector X j) ∧
      vector (backStep t i X) i = t[i].value (vector X) 1 := by
  have hget : t[i]? = some t[i] := Array.getElem?_eq_getElem hi
  have heval := Equation.eval_spec (ht i t[i] (by rw [Array.getElem?_toList, hget])) hX
  have hstep : backStep t i X = X.setIfInBounds i (t[i].eval X) := by rw [backStep, hget]
  rw [hstep]
  refine ⟨by rw [Array.size_setIfInBounds, hsize], fun v hv => ?_, fun j hj => ?_, ?_⟩
  · rcases Array.mem_or_eq_of_mem_setIfInBounds hv with h | rfl
    · exact hX v h
    · exact heval.1
  · rw [vector, Array.getElem?_setIfInBounds_ne (Ne.symm hj), vector]
  · rw [vector, Array.getElem?_setIfInBounds_self_of_lt (by omega)]
    exact heval.2

/-- The steps from `k - 1` down solve the first `k` equations for the given later variables. -/
theorem foldr_backStep_spec (ht : IsTriangular n t.toList) (hk : k ≤ t.size)
    (hsize : X.size = t.size) (hX : AllCanonical X) :
    ((List.range k).foldr (backStep t) X).size = t.size ∧
      AllCanonical ((List.range k).foldr (backStep t) X) ∧
      (∀ j ≥ k, vector ((List.range k).foldr (backStep t) X) j = vector X j) ∧
      Solves (vector ((List.range k).foldr (backStep t) X)) 1 0 (t.toList.take k) := by
  induction k generalizing X with
  | zero => exact ⟨hsize, hX, fun _ _ => rfl, trivial⟩
  | succ k ih =>
    have hget : t.toList[k]? = some t[k] := by
      rw [Array.getElem?_toList, Array.getElem?_eq_getElem hk]
    obtain ⟨s1, s2, s3, s4⟩ := backStep_spec ht hk hsize hX
    obtain ⟨h1, h2, h3, h4⟩ := ih (by omega) s1 s2
    rw [List.range_succ, List.foldr_append, List.foldr_cons, List.foldr_nil]
    have hlater : ∀ j ≥ k + 1, vector ((List.range k).foldr (backStep t) (backStep t k X)) j =
        vector X j := fun j hj => by rw [h3 j (by omega), s3 j (by omega)]
    refine ⟨h1, h2, hlater, ?_⟩
    rw [List.take_add_one, hget, solves_append]
    refine ⟨h4, ?_, trivial⟩
    rw [List.length_take, Array.length_toList, zero_add, min_eq_left (by omega), h3 k le_rfl, s4]
    exact (ht k t[k] hget).value_congr fun j hj _ => (hlater j hj).symm

theorem backSubstitute_spec (ht : IsTriangular n t.toList) :
    (backSubstitute t).size = t.size ∧ AllCanonical (backSubstitute t) ∧
      Solves (vector (backSubstitute t)) 1 0 t.toList := by
  rw [backSubstitute_eq]
  obtain ⟨h1, h2, -, h3⟩ := foldr_backStep_spec ht le_rfl
    (X := Array.replicate t.size Value.zero) (by simp) fun v hv => by
      rw [(Array.mem_replicate.1 hv).2]
      exact RationalFunction.denotes_zero.1
  rw [List.take_of_length_le (by simp)] at h3
  exact ⟨h1, h2, h3⟩

end LinearSystem
end MarkovCheck
