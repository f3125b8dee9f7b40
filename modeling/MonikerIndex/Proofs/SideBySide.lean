import Mathlib.Data.List.Forall2

/-!
# Lists side by side

Two runs are compared member by member: `List.Forall₂ R xs ys` says that the lists are as long as
each other and that `R` relates them at each place. What is collected from both lists, looked up in
them or changed at one place is then related too.
-/

namespace MonikerIndex

variable {α β γ : Type} {R : α → β → Prop} {xs : List α} {ys : List β}

/-! ### Members -/

theorem exists_mem_right_of_forall₂ (h : List.Forall₂ R xs ys) {x : α} (hx : x ∈ xs) :
    ∃ y ∈ ys, R x y := by
  induction h with
  | nil => cases hx
  | cons hhead _ ih =>
    rcases List.mem_cons.mp hx with rfl | hx
    · exact ⟨_, List.mem_cons_self, hhead⟩
    · obtain ⟨y, hy, hxy⟩ := ih hx
      exact ⟨y, List.mem_cons_of_mem _ hy, hxy⟩

theorem exists_mem_left_of_forall₂ (h : List.Forall₂ R xs ys) {y : β} (hy : y ∈ ys) :
    ∃ x ∈ xs, R x y :=
  exists_mem_right_of_forall₂ h.flip hy

theorem forall₂_imp_mem {S : α → β → Prop} (h : List.Forall₂ R xs ys)
    (hRS : ∀ a ∈ xs, ∀ b ∈ ys, R a b → S a b) : List.Forall₂ S xs ys := by
  induction h with
  | nil => exact .nil
  | cons hhead _ ih =>
    refine .cons (hRS _ List.mem_cons_self _ List.mem_cons_self hhead) (ih ?_)
    intro a ha b hb
    exact hRS a (List.mem_cons_of_mem _ ha) b (List.mem_cons_of_mem _ hb)

theorem forall₂_map_self (f : α → β) (xs : List α) :
    List.Forall₂ (fun x y => x ∈ xs ∧ y = f x) xs (xs.map f) := by
  rw [List.forall₂_map_right_iff, List.forall₂_same]
  exact fun x hx => ⟨hx, rfl⟩

/-! ### Collecting, looking up, changing -/

theorem filterMap_eq_of_forall₂ {f : α → Option γ} {g : β → Option γ} (h : List.Forall₂ R xs ys)
    (hfg : ∀ a b, R a b → f a = g b) : xs.filterMap f = ys.filterMap g := by
  induction h with
  | nil => rfl
  | cons hhead _ ih => simp only [List.filterMap_cons, hfg _ _ hhead, ih]

theorem findIdx?_eq_of_forall₂ {p : α → Bool} {q : β → Bool} (h : List.Forall₂ R xs ys)
    (hpq : ∀ a b, R a b → p a = q b) : xs.findIdx? p = ys.findIdx? q := by
  induction h with
  | nil => rfl
  | cons hhead _ ih => simp only [List.findIdx?_cons, hpq _ _ hhead, ih]

theorem mapIdx_eq_map_of_forall₂ {f : Nat → α → γ} {g : Nat → β → γ} {k : γ → γ}
    (h : List.Forall₂ R xs ys) (hfg : ∀ i a b, R a b → g i b = k (f i a)) :
    ys.mapIdx g = (xs.mapIdx f).map k := by
  induction h generalizing f g with
  | nil => rfl
  | cons hhead _ ih =>
    rw [List.mapIdx_cons, List.mapIdx_cons, List.map_cons, hfg 0 _ _ hhead,
      ih fun i a b hab => hfg (i + 1) a b hab]

theorem forall₂_modify {f : α → α} {g : β → β} (h : List.Forall₂ R xs ys)
    (hfg : ∀ a b, R a b → R (f a) (g b)) (i : Nat) :
    List.Forall₂ R (xs.modify i f) (ys.modify i g) := by
  induction h generalizing i with
  | nil => simp
  | cons hhead htail ih =>
    cases i with
    | zero => exact List.Forall₂.cons (hfg _ _ hhead) htail
    | succ i => exact List.Forall₂.cons hhead (ih i)

end MonikerIndex
