import MonikerIndex.Proofs.Outcome

/-!
# Repetitions

A list with repetitions holds every value where another list has it, and besides these only values
that have come before. What reads a list from the front and takes each value the first time only
cannot tell the two apart.
-/

namespace MonikerIndex

variable {α β : Type}

/-- The second list is the first one with members put in. Each stands before in the list, or is one
    of those seen at the beginning. -/
inductive Repeats : List α → List α → List α → Prop where
  | nil {seen : List α} : Repeats seen [] []
  | keep {seen xs ys : List α} {x : α} (h : Repeats (x :: seen) xs ys) :
      Repeats seen (x :: xs) (x :: ys)
  | again {seen xs ys : List α} {x : α} (hx : x ∈ seen) (h : Repeats seen xs ys) :
      Repeats seen xs (x :: ys)

namespace Repeats

variable {seen seen' xs xs' ys ys' : List α}

theorem mono (h : Repeats seen xs ys) (hsub : seen ⊆ seen') : Repeats seen' xs ys := by
  induction h generalizing seen' with
  | nil => exact .nil
  | keep _ ih => exact .keep (ih (List.cons_subset_cons _ hsub))
  | again hx _ ih => exact .again (hsub hx) (ih hsub)

theorem refl (seen xs : List α) : Repeats seen xs xs := by
  induction xs generalizing seen with
  | nil => exact .nil
  | cons x xs ih => exact .keep (ih (x :: seen))

theorem of_subset (h : ys ⊆ seen) : Repeats seen [] ys := by
  induction ys with
  | nil => exact .nil
  | cons y ys ih =>
    obtain ⟨hy, hys⟩ := List.cons_subset.mp h
    exact .again hy (ih hys)

theorem mem_or_mem (h : Repeats seen xs ys) {y : α} (hy : y ∈ ys) : y ∈ xs ∨ y ∈ seen := by
  induction h with
  | nil => cases hy
  | keep _ ih =>
    rcases List.mem_cons.mp hy with rfl | hy
    · exact .inl List.mem_cons_self
    · rcases ih hy with h | h
      · exact .inl (List.mem_cons_of_mem _ h)
      · rcases List.mem_cons.mp h with rfl | h
        · exact .inl List.mem_cons_self
        · exact .inr h
  | again hx _ ih =>
    rcases List.mem_cons.mp hy with rfl | hy
    · exact .inr hx
    · exact ih hy

theorem append (h : Repeats seen xs ys) (h' : Repeats (xs ++ seen) xs' ys') :
    Repeats seen (xs ++ xs') (ys ++ ys') := by
  induction h with
  | nil => exact h'
  | keep _ ih =>
    refine .keep (ih (h'.mono ?_))
    intro y hy
    simp only [List.cons_append, List.mem_cons, List.mem_append] at hy ⊢
    tauto
  | again hx _ ih => exact .again hx (ih h')

/-- One value put in behind an equal one. -/
theorem of_insert {low : List α} {x : α} (hx : x ∈ low) (high : List α) :
    Repeats [] (low ++ high) (low ++ x :: high) :=
  (refl [] low).append (.again (List.mem_append_left _ hx) (refl _ high))

/-- What comes from a repetition is a repetition of what came from the first. -/
theorem flatMap {f g : α → List β} {met : List β} (h : Repeats seen xs ys)
    (hfg : ∀ x, Repeats [] (f x) (g x)) (hmet : ∀ x ∈ seen, g x ⊆ met) :
    Repeats met (xs.flatMap f) (ys.flatMap g) := by
  induction h generalizing met with
  | nil => exact .nil
  | @keep seen xs ys x _ ih =>
    have hmet' : ∀ y ∈ x :: seen, g y ⊆ f x ++ met := by
      intro y hy z hz
      rcases List.mem_cons.mp hy with rfl | hy
      · rcases (hfg y).mem_or_mem hz with hz | hz
        · exact List.mem_append_left _ hz
        · cases hz
      · exact List.mem_append_right _ (hmet y hy hz)
    exact ((hfg x).mono (List.nil_subset _)).append (ih hmet')
  | again hx _ ih => exact (of_subset (hmet _ hx)).append (ih hmet)

theorem filterMap (h : Repeats [] xs ys) (f : α → Option β) :
    Repeats [] (xs.filterMap f) (ys.filterMap f) := by
  rw [List.filterMap_eq_flatMap_toList, List.filterMap_eq_flatMap_toList]
  exact h.flatMap (fun _ => refl _ _) (by simp)

/-- A traversal of the repetitions succeeds with the first, and gives repetitions. -/
theorem mapM {f : α → Except Error β} {bs seenBs : List β} (h : Repeats seen xs ys)
    (hseen : ∀ x ∈ seen, ∃ b ∈ seenBs, f x = .ok b) (hrun : xs.mapM f = .ok bs) :
    ∃ bs', ys.mapM f = .ok bs' ∧ Repeats seenBs bs bs' := by
  induction h generalizing bs seenBs with
  | nil =>
    cases hrun
    exact ⟨[], rfl, .nil⟩
  | @keep seen xs ys x _ ih =>
    rw [List.mapM_cons] at hrun
    obtain ⟨b, hb, hrun⟩ := bind_eq_ok_iff.mp hrun
    obtain ⟨rest, hrest, hrun⟩ := bind_eq_ok_iff.mp hrun
    cases hrun
    have hseen' : ∀ y ∈ x :: seen, ∃ c ∈ b :: seenBs, f y = .ok c := by
      intro y hy
      rcases List.mem_cons.mp hy with rfl | hy
      · exact ⟨b, List.mem_cons_self, hb⟩
      · obtain ⟨c, hc, hfy⟩ := hseen y hy
        exact ⟨c, List.mem_cons_of_mem _ hc, hfy⟩
    obtain ⟨rest', hrest', hrepeats⟩ := ih hseen' hrest
    refine ⟨b :: rest', ?_, .keep hrepeats⟩
    rw [List.mapM_cons, hb, hrest']
    rfl
  | @again seen xs ys x hx _ ih =>
    obtain ⟨b, hb, hfx⟩ := hseen x hx
    obtain ⟨rest', hrest', hrepeats⟩ := ih hseen hrun
    refine ⟨b :: rest', ?_, .again hb hrepeats⟩
    rw [List.mapM_cons, hfx, hrest']
    rfl

/-- A value that comes last, after an equal one, is sorted behind that one. -/
theorem sortBy_append {order : α → α → Ordering} [Std.TransCmp order] {x : α} (hx : x ∈ xs) :
    Repeats [] (sortBy order xs) (sortBy order (xs ++ [x])) := by
  obtain ⟨low, high, hsplit, hsplit', -, hhigh⟩ := @exists_sortBy_append _ order _ xs x
  have hmem : x ∈ low ++ high := by
    rw [← hsplit]
    exact mem_sortBy.mpr hx
  rw [hsplit, hsplit']
  rcases List.mem_append.mp hmem with hlow | hhigh'
  · exact of_insert hlow high
  · have hself : order x x = .eq := Std.ReflCmp.compare_self
    rw [hhigh x hhigh'] at hself
    cases hself

/-- The first value that passes a test is not a repetition. -/
theorem find?_eq (h : Repeats seen xs ys) {p : α → Bool} (hseen : ∀ x ∈ seen, p x = false) :
    ys.find? p = xs.find? p := by
  induction h with
  | nil => rfl
  | @keep seen xs ys x _ ih =>
    cases hx : p x with
    | true => rw [List.find?_cons_of_pos hx, List.find?_cons_of_pos hx]
    | false =>
      have hseen' : ∀ y ∈ x :: seen, p y = false := by
        intro y hy
        rcases List.mem_cons.mp hy with rfl | hy
        · exact hx
        · exact hseen y hy
      rw [List.find?_cons_of_neg (by simp [hx]), List.find?_cons_of_neg (by simp [hx]), ih hseen']
  | @again seen xs ys x hx _ ih =>
    rw [List.find?_cons_of_neg (by simp [hseen x hx]), ih hseen]

end Repeats

end MonikerIndex
