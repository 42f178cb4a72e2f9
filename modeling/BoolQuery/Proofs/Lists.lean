import Mathlib.Data.List.Forall2
import Mathlib.Data.List.TakeWhile

/-! Facts about lists of anything: where two ways of cutting a list meet, what has a partner in a
list that is related place by place, and how far a scan of an appended list goes. -/

namespace BoolQuery

variable {α β : Type}

/-- An element stands before or behind every place in a list. -/
theorem exists_of_append_cons {as bs cs ds : List α} {a : α} (h : as ++ a :: bs = cs ++ ds) :
    (∃ es, as = cs ++ es ∧ ds = es ++ a :: bs) ∨ ∃ es, cs = as ++ a :: es ∧ bs = es ++ ds := by
  rcases List.append_eq_append_iff.1 h with ⟨es, rfl, hes⟩ | ⟨es, rfl, rfl⟩
  · rcases es with _ | ⟨b, es⟩
    · exact .inl ⟨[], by simp, hes.symm⟩
    · obtain ⟨rfl, rfl⟩ := List.cons.inj hes
      exact .inr ⟨es, rfl, rfl⟩
  · exact .inl ⟨es, rfl, rfl⟩

/-- An element of a list is its last one, or stands before it. -/
theorem exists_of_append_singleton {xs us vs : List α} {a r : α} (h : xs ++ [a] = us ++ r :: vs) :
    vs = [] ∧ xs = us ∧ a = r ∨ vs ≠ [] ∧ ∃ ws, xs = us ++ r :: ws := by
  rcases exists_of_append_cons h.symm with ⟨es, rfl, hes⟩ | ⟨es, rfl, rfl⟩
  · cases es with
    | nil =>
      obtain ⟨rfl, rfl⟩ := List.cons.inj hes
      exact .inl ⟨rfl, (List.append_nil xs).symm, rfl⟩
    | cons e es => simp at hes
  · exact .inr ⟨by simp, es, rfl⟩

/-- What has a partner on the right has one on the left. -/
theorem exists_of_forall₂ {R : α → β → Prop} {xs : List α} {ys : List β}
    (h : List.Forall₂ R xs ys) : ∀ y ∈ ys, ∃ x ∈ xs, R x y := by
  induction h with
  | nil => simp
  | cons hxy _ ih =>
    intro y hy
    rcases List.mem_cons.1 hy with rfl | hy
    · exact ⟨_, List.mem_cons_self, hxy⟩
    · obtain ⟨x, hx, hR⟩ := ih y hy
      exact ⟨x, List.mem_cons_of_mem _ hx, hR⟩

/-- A list is split where its partner is. -/
theorem exists_of_forall₂_append_cons {R : α → β → Prop} {xs : List α} {ys zs : List β} {z : β}
    (h : List.Forall₂ R xs (ys ++ z :: zs)) :
    ∃ as x bs, xs = as ++ x :: bs ∧ as.length = ys.length ∧ R x z := by
  have hdrop := List.forall₂_drop_append _ _ _ h
  obtain ⟨x, bs, hxz, _, hbs⟩ := List.forall₂_cons_right_iff.1 hdrop
  refine ⟨xs.take ys.length, x, bs, ?_, ?_, hxz⟩
  · rw [← hbs, List.take_append_drop]
  · have := h.length_eq
    simp at this ⊢
    omega

/-- What a mapping that may fail gives comes from what it is given. -/
theorem exists_of_mem_mapM {f : α → Option β} {xs : List α} {ys : List β}
    (h : xs.mapM f = some ys) : ∀ y ∈ ys, ∃ x ∈ xs, f x = some y := by
  refine exists_of_forall₂ ?_
  induction xs generalizing ys with
  | nil =>
    cases h
    exact .nil
  | cons x xs ih =>
    simp only [List.mapM_cons, Option.bind_eq_bind, Option.bind_eq_some_iff, Option.pure_def,
      Option.some.injEq] at h
    obtain ⟨y, hy, zs, hzs, rfl⟩ := h
    exact .cons hy (ih hzs)

theorem toList_eq_toList_iff {a b : Option α} : a.toList = b.toList ↔ a = b := by
  cases a <;> cases b <;> simp

variable {p : α → Bool}

/-- A scan takes what passes, and stops at an element that fails or at the end. -/
theorem scan_of_forall {xs rest : List α} (h : ∀ x ∈ xs, p x = true)
    (hrest : ∀ x ∈ rest.head?, p x = false) :
    (xs ++ rest).takeWhile p = xs ∧ (xs ++ rest).dropWhile p = rest := by
  rw [List.takeWhile_append_of_pos h, List.dropWhile_append_of_pos h]
  cases rest with
  | nil => simp
  | cons x rest => simp [hrest x rfl]

/-- Only the part up to the first element that fails matters to a scan. -/
theorem scan_append {xs : List α} (h : ∃ x ∈ xs, p x = false) (rest : List α) :
    (xs ++ rest).takeWhile p = xs.takeWhile p ∧
      (xs ++ rest).dropWhile p = xs.dropWhile p ++ rest ∧ xs.dropWhile p ≠ [] := by
  have hne : xs.dropWhile p ≠ [] := by
    obtain ⟨x, hx, hp⟩ := h
    intro hnil
    rw [List.dropWhile_eq_nil_iff.1 hnil x hx] at hp
    cases hp
  have hshort : (xs.takeWhile p).length ≠ xs.length := by
    intro hlength
    have hsum := congrArg List.length (List.takeWhile_append_dropWhile (p := p) (l := xs))
    rw [List.length_append] at hsum
    exact hne (List.eq_nil_of_length_eq_zero (by omega))
  rw [List.takeWhile_append, if_neg hshort, List.dropWhile_append, if_neg (by simpa using hne)]
  exact ⟨rfl, rfl, hne⟩

/-- A scan does not go on into a list whose first element fails. -/
theorem takeWhile_append_of_head {rest : List α} (h : ∀ x ∈ rest.head?, p x = false)
    (xs : List α) : (xs ++ rest).takeWhile p = xs.takeWhile p ∧
      (xs ++ rest).dropWhile p = xs.dropWhile p ++ rest := by
  by_cases hfails : ∃ x ∈ xs, p x = false
  · exact ⟨(scan_append hfails rest).1, (scan_append hfails rest).2.1⟩
  · have hall : ∀ x ∈ xs, p x = true := by simpa using hfails
    rw [List.takeWhile_eq_self_iff.2 hall, List.dropWhile_eq_nil_iff.2 hall, List.nil_append]
    exact scan_of_forall hall h

end BoolQuery
