import Mathlib.Data.List.Forall2
import Mathlib.Data.List.Induction
import Mathlib.Data.List.Nodup
/-!
# Lists with distinguished members

What finding an element by its name, searching for the first hit, and keeping the first of all equal
elements make of a list, and what an element of one list is related to in another.
-/

namespace CircuitQir

variable {α : Type}

/-- What has a name of its own is the first of that name. -/
theorem find?_name {β : Type} [DecidableEq β] {name : α → β} {x : α} : ∀ {xs : List α},
    (xs.map name).Nodup → x ∈ xs → xs.find? (name · = name x) = some x
  | y :: ys, hnodup, hx => by
    obtain ⟨hy, hnodup⟩ := List.nodup_cons.mp hnodup
    rcases List.mem_cons.mp hx with rfl | hx
    · exact List.find?_cons_of_pos (decide_eq_true rfl)
    · have hne : name y ≠ name x := fun heq => hy (heq ▸ List.mem_map_of_mem hx)
      rw [List.find?_cons_of_neg (by simpa using hne)]
      exact find?_name hnodup hx

/-- A list is left as it is if each of its elements is. -/
theorem map_eq_self_iff {f : α → α} {xs : List α} : xs.map f = xs ↔ ∀ x ∈ xs, f x = x := by
  have h : xs.map f = xs.map id ↔ ∀ x ∈ xs, f x = x := List.map_inj_left
  rwa [List.map_id] at h

/-- The first hit of a search over numbers. -/
theorem findSome?_range_eq_some {f : ℕ → Option α} {n : ℕ} {x : α}
    (h : (List.range n).findSome? f = some x) : ∃ i, f i = some x ∧ ∀ j < i, f j = none := by
  obtain ⟨before, i, after, hrange, hi, hbefore⟩ := List.findSome?_eq_some_iff.mp h
  refine ⟨i, hi, fun j hj => hbefore j ?_⟩
  have hmem : j ∈ before ++ i :: after := by
    rw [← hrange, List.mem_range]
    exact Nat.lt_trans hj (List.mem_range.mp (by simp [hrange]))
  have hsorted := List.pairwise_lt_range (n := n)
  rw [hrange, List.pairwise_append, List.pairwise_cons] at hsorted
  rcases List.mem_append.mp hmem with hj' | hj'
  · exact hj'
  · rcases List.mem_cons.mp hj' with rfl | hj'
    · exact absurd hj (Nat.lt_irrefl j)
    · exact absurd (hsorted.2.1.1 j hj') (Nat.lt_asymm hj)

/-- An element behind a list is kept if it is not in the list. -/
theorem eraseDups_concat [BEq α] [LawfulBEq α] [DecidableEq α] (xs : List α) (x : α) :
    (xs ++ [x]).eraseDups = if x ∈ xs then xs.eraseDups else xs.eraseDups ++ [x] := by
  rw [List.eraseDups_append, List.removeAll, List.filter_singleton]
  by_cases hx : x ∈ xs
  · simp [hx]
  · simp [hx, List.eraseDups_cons]

theorem nodup_eraseDups [DecidableEq α] (xs : List α) : xs.eraseDups.Nodup := by
  induction xs using List.reverseRecOn with
  | nil => exact List.nodup_nil
  | append_singleton xs x ih =>
    rw [eraseDups_concat]
    split
    · exact ih
    · rename_i hx
      rw [List.nodup_append']
      refine ⟨ih, List.nodup_singleton x, List.disjoint_singleton.mpr ?_⟩
      rwa [List.mem_eraseDups]

/-- It makes no difference whether elements are left out before or after repeated ones are. -/
theorem eraseDups_filter [DecidableEq α] (p : α → Bool) (xs : List α) :
    (xs.filter p).eraseDups = xs.eraseDups.filter p := by
  induction xs using List.reverseRecOn with
  | nil => rfl
  | append_singleton xs x ih =>
    rw [List.filter_append, eraseDups_concat]
    cases hp : p x with
    | false =>
      rw [List.filter_cons_of_neg (by simp [hp]), List.filter_nil, List.append_nil, ih]
      split
      · rfl
      · rw [List.filter_append, List.filter_cons_of_neg (by simp [hp]), List.filter_nil,
          List.append_nil]
    | true =>
      have hmem : x ∈ xs.filter p ↔ x ∈ xs := by simp [hp]
      rw [List.filter_cons_of_pos hp, List.filter_nil, eraseDups_concat, ih]
      simp only [hmem]
      split
      · rfl
      · rw [List.filter_append, List.filter_cons_of_pos hp, List.filter_nil]

/-- What is related to something in a list comes from there. -/
theorem exists_of_mem_right {α β : Type} {R : α → β → Prop} {xs : List α} {ys : List β}
    (h : List.Forall₂ R xs ys) {y : β} (hy : y ∈ ys) : ∃ x ∈ xs, R x y := by
  induction h with
  | nil => cases hy
  | cons hxy _ ih =>
    rcases List.mem_cons.mp hy with rfl | hy
    · exact ⟨_, List.mem_cons_self, hxy⟩
    · obtain ⟨x, hx, hR⟩ := ih hy
      exact ⟨x, List.mem_cons_of_mem _ hx, hR⟩

end CircuitQir
