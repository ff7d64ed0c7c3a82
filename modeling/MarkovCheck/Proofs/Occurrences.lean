import Mathlib

/-!
# MarkovCheck.Proofs.Occurrences

Lists in which every item occurs once: ascending lists, and those that keep only the first occurrences.

* `eq_of_ascend` — ascending lists, such as rows, are determined by their members.
* `eraseDups_concat_of_mem`, `eraseDups_concat_of_notMem` — one more item.
* `eraseDups_of_nodup`, `nodup_eraseDups` — nothing is dropped that occurs once.
* `eraseDups_append_left`, `prefix_eraseDups` — items that are appended.
* `eraseDups_flatMap` — items that are repeated before the next one comes.
-/

namespace MarkovCheck

/-! ## Ascending lists -/

section Ascending

variable {α β : Type*} [Preorder β] {f : α → β} {l r : List α}

theorem nodup_of_ascend (h : l.Pairwise (f · < f ·)) : l.Nodup :=
  h.imp fun hlt heq => hlt.ne (congrArg f heq)

/-- Ascending lists are determined by their members. -/
theorem eq_of_ascend (hl : l.Pairwise (f · < f ·)) (hr : r.Pairwise (f · < f ·))
    (h : ∀ a, a ∈ l ↔ a ∈ r) : l = r := by
  refine List.Perm.eq_of_pairwise (fun a b _ _ hab hba => absurd hba hab.not_gt) hl hr ?_
  exact (List.perm_ext_iff_of_nodup (nodup_of_ascend hl) (nodup_of_ascend hr)).2 h

end Ascending

/-! ## First occurrences -/

variable {α : Type} [BEq α] [LawfulBEq α]

theorem eraseDups_append_of_subset {l r : List α} (h : ∀ a ∈ r, a ∈ l) :
    (l ++ r).eraseDups = l.eraseDups := by
  have hnil : r.removeAll l = [] := by
    rw [List.removeAll, List.filter_eq_nil_iff]
    exact fun a ha => by simp [h a ha]
  rw [List.eraseDups_append, hnil, List.eraseDups_nil, List.append_nil]

theorem eraseDups_concat_of_mem {l : List α} {a : α} (h : a ∈ l) :
    (l ++ [a]).eraseDups = l.eraseDups :=
  eraseDups_append_of_subset (List.forall_mem_singleton.2 h)

theorem eraseDups_concat_of_notMem {l : List α} {a : α} (h : a ∉ l) :
    (l ++ [a]).eraseDups = l.eraseDups ++ [a] := by
  have hself : [a].removeAll l = [a] := by simp [List.removeAll, h]
  rw [List.eraseDups_append, hself, List.eraseDups_cons, List.filter_nil, List.eraseDups_nil]

theorem nodup_eraseDups (l : List α) : l.eraseDups.Nodup := by
  induction l using List.reverseRecOn with
  | nil => exact List.nodup_nil
  | append_singleton l a ih =>
    by_cases h : a ∈ l
    · rwa [eraseDups_concat_of_mem h]
    · rw [eraseDups_concat_of_notMem h]
      refine ih.append (List.nodup_singleton a) ?_
      simpa [List.mem_eraseDups] using h

theorem eraseDups_of_nodup {l : List α} (h : l.Nodup) : l.eraseDups = l := by
  induction l using List.reverseRecOn with
  | nil => rfl
  | append_singleton l a ih =>
    have hnot : a ∉ l := fun hmem => (List.nodup_append.1 h).2.2 a hmem a List.mem_cons_self rfl
    rw [eraseDups_concat_of_notMem hnot, ih (h.sublist (List.sublist_append_left l [a]))]

theorem eraseDups_append_left (l r : List α) : (l.eraseDups ++ r).eraseDups = (l ++ r).eraseDups := by
  have hsame : r.removeAll l.eraseDups = r.removeAll l := by
    refine List.filter_congr fun a _ => ?_
    rw [Bool.eq_iff_iff]
    simp [List.mem_eraseDups]
  rw [List.eraseDups_append, List.eraseDups_append, eraseDups_of_nodup (nodup_eraseDups l), hsame]

section Runs

variable {ι : Type} {run : ι → List α} {key : ι → α} {l : List ι}

omit [BEq α] [LawfulBEq α] in
theorem mem_flatMap_run (h : ∀ x ∈ l, ∃ r, run x = key x :: r ∧ ∀ a ∈ r, a = key x) (a : α) :
    a ∈ l.flatMap run ↔ a ∈ l.map key := by
  rw [List.mem_flatMap, List.mem_map]
  refine exists_congr fun x => and_congr_right fun hx => ?_
  obtain ⟨r, hr, heq⟩ := h x hx
  rw [hr, List.mem_cons]
  exact ⟨fun ha => ha.elim Eq.symm fun ha => (heq a ha).symm, fun ha => .inl ha.symm⟩

/-- Of runs of equal elements one element each is left. -/
theorem eraseDups_flatMap (h : ∀ x ∈ l, ∃ r, run x = key x :: r ∧ ∀ a ∈ r, a = key x) :
    (l.flatMap run).eraseDups = (l.map key).eraseDups := by
  induction l using List.reverseRecOn with
  | nil => rfl
  | append_singleton l x ih =>
    rw [List.forall_mem_append, List.forall_mem_singleton] at h
    obtain ⟨r, hr, heq⟩ := h.2
    have hkey := mem_flatMap_run h.1 (key x)
    rw [List.flatMap_append, List.flatMap_singleton, hr, List.append_cons, List.map_append,
      List.map_singleton, eraseDups_append_of_subset fun a ha => by simp [heq a ha]]
    by_cases hx : key x ∈ l.map key
    · rw [eraseDups_concat_of_mem hx, eraseDups_concat_of_mem (hkey.2 hx), ih h.1]
    · rw [eraseDups_concat_of_notMem hx, eraseDups_concat_of_notMem (mt hkey.1 hx), ih h.1]

end Runs

omit [BEq α] [LawfulBEq α] in
theorem drop_of_prefix {l r : List α} (h : l <+: r) {i : ℕ} {a : α} (hi : l[i]? = some a) :
    r.drop i = a :: r.drop (i + 1) := by
  obtain ⟨t, rfl⟩ := h
  obtain ⟨hlt, rfl⟩ := List.getElem?_eq_some_iff.1 hi
  have hlt' : i < (l ++ t).length := by
    rw [List.length_append]
    omega
  rw [List.drop_eq_getElem_cons hlt', List.getElem_append_left hlt]

theorem prefix_eraseDups {l : List α} (h : l.Nodup) (r : List α) : l <+: (l ++ r).eraseDups := by
  rw [List.eraseDups_append, eraseDups_of_nodup h]
  exact List.prefix_append l _

end MarkovCheck
