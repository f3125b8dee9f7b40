import MonikerIndex.Proofs.SideBySide
import MonikerIndex.Span
import Mathlib.Data.List.Perm.Basic
import Mathlib.Data.List.Nodup
import Mathlib.Order.Basic

/-!
# Sorting by a comparison

`sortBy` is a stable sort: it rearranges its input (`sortBy_perm`), puts it in order
(`pairwise_sortBy`), and keeps the values that compare as equal to any given one in the order in
which they came (`filter_sortBy`). These three facts determine the result, so two inputs that agree
on every class of equal values are sorted to the same list (`sortBy_eq_of_filter_eq`). That is how
the order in which facts were reported drops out of a run.

The least of some values is treated beside it: both searches for a minimum are one fold
(`foldl_least`).
-/

namespace MonikerIndex

open Std (TransCmp OrientedCmp ReflCmp)

variable {α β : Type} {order : α → α → Ordering}

/-! ### Rearrangement -/

theorem insertBy_perm (order : α → α → Ordering) (value : α) (values : List α) :
    (insertBy order value values).Perm (value :: values) := by
  induction values with
  | nil => exact List.Perm.refl _
  | cons first values ih =>
    simp only [insertBy]
    split
    · exact List.Perm.refl _
    · exact (ih.cons first).trans (List.Perm.swap value first values)

theorem sortBy_perm (order : α → α → Ordering) (values : List α) :
    (sortBy order values).Perm values := by
  induction values with
  | nil => exact List.Perm.refl _
  | cons value values ih =>
    exact (insertBy_perm order value (sortBy order values)).trans (ih.cons value)

@[simp] theorem mem_insertBy {value x : α} {values : List α} :
    x ∈ insertBy order value values ↔ x = value ∨ x ∈ values := by
  rw [(insertBy_perm order value values).mem_iff, List.mem_cons]

@[simp] theorem mem_sortBy {x : α} {values : List α} : x ∈ sortBy order values ↔ x ∈ values :=
  (sortBy_perm order values).mem_iff

/-! ### Order -/

theorem pairwise_insertBy [TransCmp order] {value : α} {values : List α}
    (h : values.Pairwise fun a b => (order a b).isLE) :
    (insertBy order value values).Pairwise fun a b => (order a b).isLE := by
  induction values with
  | nil => simp [insertBy]
  | cons first values ih =>
    obtain ⟨hfirst, hvalues⟩ := List.pairwise_cons.mp h
    simp only [insertBy]
    split
    · rename_i hle
      refine List.pairwise_cons.mpr ⟨fun x hx => ?_, h⟩
      rcases List.mem_cons.mp hx with rfl | hx
      · exact hle
      · exact TransCmp.isLE_trans hle (hfirst x hx)
    · rename_i hnle
      refine List.pairwise_cons.mpr ⟨fun x hx => ?_, ih hvalues⟩
      rcases mem_insertBy.mp hx with rfl | hx
      · have hgt : order first x = .lt := OrientedCmp.lt_of_not_isLE hnle
        simp [hgt]
      · exact hfirst x hx

/-- Sorting puts the values in order. -/
theorem pairwise_sortBy [TransCmp order] (values : List α) :
    (sortBy order values).Pairwise fun a b => (order a b).isLE := by
  induction values with
  | nil => exact List.Pairwise.nil
  | cons value values ih => exact pairwise_insertBy ih

/-! ### Stability -/

theorem filter_insertBy [TransCmp order] (value x : α) (values : List α) :
    (insertBy order value values).filter (fun a => (order a x).isEq) =
      (value :: values).filter fun a => (order a x).isEq := by
  induction values with
  | nil => rfl
  | cons first values ih =>
    simp only [insertBy]
    split
    · rfl
    · rename_i hnle
      -- a value passes only what is strictly below it, which is in another class
      by_cases hx : order value x = .eq
      · have hlt : order first value = .lt := OrientedCmp.lt_of_not_isLE hnle
        have hne : order first x = .lt := TransCmp.lt_of_lt_of_eq hlt hx
        simp only [List.filter_cons, hne, ih, hx]
        simp
      · simp only [List.filter_cons, ih]
        simp [hx]

/-- Values that compare as equal keep their order. -/
theorem filter_sortBy [TransCmp order] (x : α) (values : List α) :
    (sortBy order values).filter (fun a => (order a x).isEq) =
      values.filter fun a => (order a x).isEq := by
  induction values with
  | nil => rfl
  | cons value values ih =>
    rw [sortBy, filter_insertBy, List.filter_cons, List.filter_cons, ih]

/-- Lists that agree on every class of equal values have the same members. -/
theorem mem_of_filter_eq [ReflCmp order] {xs ys : List α} {a : α}
    (hclass : ∀ x, xs.filter (fun a => (order a x).isEq) = ys.filter fun a => (order a x).isEq)
    (ha : a ∈ xs) : a ∈ ys := by
  have hself : a ∈ xs.filter fun b => (order b a).isEq :=
    List.mem_filter.mpr ⟨ha, by simp [ReflCmp.compare_self]⟩
  rw [hclass a] at hself
  exact (List.mem_filter.mp hself).1

/-- Two lists in order are equal if they agree on every class of equal values. -/
theorem eq_of_pairwise_of_filter_eq [TransCmp order] {xs ys : List α}
    (hxs : xs.Pairwise fun a b => (order a b).isLE)
    (hys : ys.Pairwise fun a b => (order a b).isLE)
    (hclass : ∀ x, xs.filter (fun a => (order a x).isEq) = ys.filter fun a => (order a x).isEq) :
    xs = ys := by
  induction xs generalizing ys with
  | nil =>
    cases ys with
    | nil => rfl
    | cons b ys =>
      have hb : b ∈ [] := mem_of_filter_eq (fun x => (hclass x).symm) List.mem_cons_self
      cases hb
  | cons a xs ih =>
    cases ys with
    | nil =>
      have ha : a ∈ [] := mem_of_filter_eq hclass List.mem_cons_self
      cases ha
    | cons b ys =>
      obtain ⟨ha, hxs'⟩ := List.pairwise_cons.mp hxs
      obtain ⟨hb, hys'⟩ := List.pairwise_cons.mp hys
      have hba : (order b a).isLE := by
        have hmem : a ∈ b :: ys := mem_of_filter_eq hclass List.mem_cons_self
        rcases List.mem_cons.mp hmem with rfl | h
        · exact ReflCmp.isLE_rfl
        · exact hb a h
      have hab : (order a b).isLE := by
        have hmem : b ∈ a :: xs := mem_of_filter_eq (fun x => (hclass x).symm) List.mem_cons_self
        rcases List.mem_cons.mp hmem with rfl | h
        · exact ReflCmp.isLE_rfl
        · exact ha b h
      -- the heads are in one class, and each is the first of it
      have heq : order b a = .eq := OrientedCmp.isLE_antisymm hba hab
      have hhead : a = b := by
        have h := hclass a
        simp only [List.filter_cons, ReflCmp.compare_self, heq, Ordering.isEq_eq, if_true] at h
        exact (List.cons.inj h).1
      subst hhead
      have htail : xs = ys := by
        refine ih hxs' hys' fun x => ?_
        have h := hclass x
        simp only [List.filter_cons] at h
        split at h
        · exact (List.cons.inj h).2
        · exact h
      rw [htail]

/-- Inputs that agree on every class of equal values are sorted to the same list. -/
theorem sortBy_eq_of_filter_eq [TransCmp order] {xs ys : List α}
    (h : ∀ x, xs.filter (fun a => (order a x).isEq) = ys.filter fun a => (order a x).isEq) :
    sortBy order xs = sortBy order ys := by
  refine eq_of_pairwise_of_filter_eq (pairwise_sortBy xs) (pairwise_sortBy ys) fun x => ?_
  rw [filter_sortBy, filter_sortBy, h x]

/-- Where only equal values compare as equal, the order of the input does not matter. -/
theorem sortBy_eq_of_perm [TransCmp order] {xs ys : List α} (hperm : xs.Perm ys)
    (heq : ∀ a ∈ xs, ∀ b ∈ xs, order a b = .eq → a = b) : sortBy order xs = sortBy order ys := by
  refine List.Perm.eq_of_pairwise ?_ (pairwise_sortBy xs) (pairwise_sortBy ys)
    ((sortBy_perm order xs).trans (hperm.trans (sortBy_perm order ys).symm))
  intro a b ha hb hab hba
  exact heq a (mem_sortBy.mp ha) b (hperm.mem_iff.mpr (mem_sortBy.mp hb))
    (OrientedCmp.isLE_antisymm hab hba)

/-! ### One value more -/

/-- A list in order falls into what is not above a given value and what is. -/
theorem exists_split_of_pairwise [TransCmp order] (a : α) {values : List α}
    (h : values.Pairwise fun a b => (order a b).isLE) :
    ∃ low high, values = low ++ high ∧ (∀ x ∈ low, (order x a).isLE) ∧
      ∀ x ∈ high, order a x = .lt := by
  induction values with
  | nil => exact ⟨[], [], rfl, by simp, by simp⟩
  | cons first values ih =>
    obtain ⟨hfirst, hvalues⟩ := List.pairwise_cons.mp h
    by_cases hle : (order first a).isLE
    · obtain ⟨low, high, rfl, hlow, hhigh⟩ := ih hvalues
      refine ⟨first :: low, high, rfl, ?_, hhigh⟩
      intro x hx
      rcases List.mem_cons.mp hx with rfl | hx
      · exact hle
      · exact hlow x hx
    · have hlt : order a first = .lt := OrientedCmp.lt_of_not_isLE hle
      refine ⟨[], first :: values, rfl, by simp, ?_⟩
      intro x hx
      rcases List.mem_cons.mp hx with rfl | hx
      · exact hlt
      · exact TransCmp.lt_of_lt_of_isLE hlt (hfirst x hx)

/-- A value that comes last is sorted behind all that is not above it. -/
theorem exists_sortBy_append [TransCmp order] (values : List α) (a : α) :
    ∃ low high, sortBy order values = low ++ high ∧ sortBy order (values ++ [a]) = low ++ a :: high ∧
      (∀ x ∈ low, (order x a).isLE) ∧ ∀ x ∈ high, order a x = .lt := by
  have hsorted : (sortBy order values).Pairwise fun a b => (order a b).isLE :=
    pairwise_sortBy values
  obtain ⟨low, high, hsplit, hlow, hhigh⟩ := exists_split_of_pairwise a hsorted
  refine ⟨low, high, hsplit, ?_, hlow, hhigh⟩
  rw [hsplit] at hsorted
  obtain ⟨hlow', hhigh', -⟩ := List.pairwise_append.mp hsorted
  refine eq_of_pairwise_of_filter_eq (pairwise_sortBy _) ?_ ?_
  · refine List.pairwise_append.mpr ⟨hlow', List.pairwise_cons.mpr ⟨?_, hhigh'⟩, ?_⟩
    · intro x hx
      simp [hhigh x hx]
    · intro x hx y hy
      rcases List.mem_cons.mp hy with rfl | hy
      · exact hlow x hx
      · exact TransCmp.isLE_trans (hlow x hx) (by simp [hhigh y hy])
  · intro x
    have hclass : (sortBy order values).filter (fun b => (order b x).isEq) =
        values.filter fun b => (order b x).isEq := filter_sortBy x values
    rw [hsplit] at hclass
    rw [filter_sortBy, List.filter_append, ← hclass]
    simp only [List.filter_append, List.filter_cons, List.filter_nil, List.append_assoc]
    by_cases hx : order a x = .eq
    · -- nothing above the value is in its class
      have hnone : high.filter (fun b => (order b x).isEq) = [] := by
        rw [List.filter_eq_nil_iff]
        intro y hy heq
        have hya : order a y = .eq := by
          have hxy : order x y = .eq := OrientedCmp.eq_symm (by simpa using heq)
          exact TransCmp.eq_trans hx hxy
        rw [hhigh y hy] at hya
        cases hya
      rw [hnone]
      rfl
    · simp [hx]

/-! ### Agreement by a key -/

/-- Whether two lists have, for each key, the same values in the same order. -/
def AgreeBy {κ : Type} [DecidableEq κ] (key : α → κ) (xs ys : List α) : Prop :=
  ∀ k, xs.filter (fun x => key x = k) = ys.filter fun x => key x = k

namespace AgreeBy

variable {κ : Type} [DecidableEq κ] {key : α → κ} {xs ys xs' ys' : List α}

theorem refl (key : α → κ) (xs : List α) : AgreeBy key xs xs := fun _ => rfl

theorem symm (h : AgreeBy key xs ys) : AgreeBy key ys xs := fun k => (h k).symm

/-- A test that all pass with one key keeps the same values of both lists. -/
theorem filter_eq (h : AgreeBy key xs ys) (k : κ) {p : α → Bool}
    (hp : ∀ x, p x = true → key x = k) : xs.filter p = ys.filter p := by
  have hclass : ∀ zs : List α, zs.filter p = (zs.filter fun x => key x = k).filter p := by
    intro zs
    rw [List.filter_filter]
    refine List.filter_congr fun x _ => ?_
    cases hx : p x with
    | false => rfl
    | true => simp [hp x hx]
  rw [hclass xs, hclass ys, h k]

theorem mem_iff (h : AgreeBy key xs ys) {x : α} : x ∈ xs ↔ x ∈ ys := by
  have hclass := congrArg (fun zs => x ∈ zs) (h (key x))
  simpa using hclass

theorem append (h : AgreeBy key xs ys) (h' : AgreeBy key xs' ys') :
    AgreeBy key (xs ++ xs') (ys ++ ys') := by
  intro k
  rw [List.filter_append, List.filter_append, h k, h' k]

theorem map {key' : β → κ} {f : α → β} (h : AgreeBy key xs ys) (hf : ∀ x, key' (f x) = key x) :
    AgreeBy key' (xs.map f) (ys.map f) := by
  intro k
  simp only [List.filter_map, Function.comp_def, hf, h k]

/-- A rearrangement agrees with the list where no key occurs twice. -/
theorem of_perm (hperm : xs.Perm ys) (hnodup : (xs.map key).Nodup) : AgreeBy key xs ys := by
  intro k
  have hclass : (xs.filter fun x => key x = k).Perm (ys.filter fun x => key x = k) :=
    hperm.filter _
  have hdistinct : (xs.filter fun x => key x = k).Pairwise fun a b => key a ≠ key b :=
    (List.pairwise_map.mp hnodup).filter _
  have hkey : ∀ x ∈ xs.filter fun x => key x = k, key x = k := by simp
  -- two values in the class would have the same key
  match hfilter : xs.filter fun x => key x = k with
  | [] =>
    rw [hfilter] at hclass
    exact hclass.nil_eq
  | [a] =>
    rw [hfilter] at hclass
    exact (List.singleton_perm.mp hclass)
  | a :: b :: rest =>
    rw [hfilter] at hdistinct hkey
    have hne := (List.pairwise_cons.mp hdistinct).1 b List.mem_cons_self
    exact absurd ((hkey a List.mem_cons_self).trans
      (hkey b (List.mem_cons_of_mem _ List.mem_cons_self)).symm) hne

/-- Lists that agree by what decides their order are sorted to the same list. -/
theorem sortBy_eq [TransCmp order] (h : AgreeBy key xs ys)
    (horder : ∀ a b, order a b = .eq → key a = key b) : sortBy order xs = sortBy order ys := by
  refine sortBy_eq_of_filter_eq fun x => h.filter_eq (key x) fun a ha => ?_
  exact horder a x (by simpa using ha)

end AgreeBy

/-! ### Numbered values

The sorted values with the numbers they came under are in strict order: by the comparison, and by
their numbers where that leaves them equal. -/

/-- Whether a numbered value stands before another one: by the comparison, then by number. -/
def Precedes (order : α → α → Ordering) (a b : α × Nat) : Prop :=
  order a.1 b.1 = .lt ∨ order a.1 b.1 = .eq ∧ a.2 < b.2

theorem Precedes.trans [TransCmp order] {a b c : α × Nat} (hab : Precedes order a b)
    (hbc : Precedes order b c) : Precedes order a c := by
  rcases hab with hab | ⟨hab, hnum⟩
  · rcases hbc with hbc | ⟨hbc, -⟩
    · exact Or.inl (TransCmp.lt_trans hab hbc)
    · exact Or.inl (TransCmp.lt_of_lt_of_eq hab hbc)
  · rcases hbc with hbc | ⟨hbc, hnum'⟩
    · exact Or.inl (TransCmp.lt_of_eq_of_lt hab hbc)
    · exact Or.inr ⟨TransCmp.eq_trans hab hbc, Nat.lt_trans hnum hnum'⟩

/-- A value with the least number goes before all that it compares as equal to. -/
theorem exists_numbering_insertBy [TransCmp order] (value : α) (number : Nat)
    {numbered : List (α × Nat)} (hpair : numbered.Pairwise (Precedes order))
    (hnum : ∀ a ∈ numbered, number < a.2) :
    ∃ result : List (α × Nat), result.Perm ((value, number) :: numbered) ∧
      result.Pairwise (Precedes order) ∧
      result.map Prod.fst = insertBy order value (numbered.map Prod.fst) := by
  induction numbered with
  | nil => exact ⟨[(value, number)], List.Perm.refl _, List.pairwise_singleton _ _, rfl⟩
  | cons first rest ih =>
    obtain ⟨hfirst, hrest⟩ := List.pairwise_cons.mp hpair
    simp only [List.map_cons, insertBy]
    by_cases hle : (order value first.1).isLE
    · have hbefore : Precedes order (value, number) first := by
        rcases Ordering.isLE_iff_eq_lt_or_eq_eq.mp hle with h | h
        · exact Or.inl h
        · exact Or.inr ⟨h, hnum first List.mem_cons_self⟩
      refine ⟨(value, number) :: first :: rest, List.Perm.refl _, ?_, by simp [hle]⟩
      refine List.pairwise_cons.mpr ⟨fun a ha => ?_, hpair⟩
      rcases List.mem_cons.mp ha with rfl | ha
      · exact hbefore
      · exact hbefore.trans (hfirst a ha)
    · obtain ⟨result, hperm, hresult, hmap⟩ := ih hrest fun a ha =>
        hnum a (List.mem_cons_of_mem _ ha)
      refine ⟨first :: result, ?_, ?_, by simp [hle, hmap]⟩
      · exact (hperm.cons first).trans (List.Perm.swap _ _ _)
      · refine List.pairwise_cons.mpr ⟨fun a ha => ?_, hresult⟩
        rcases List.mem_cons.mp (hperm.mem_iff.mp ha) with rfl | ha
        · exact Or.inl (OrientedCmp.lt_of_not_isLE hle)
        · exact hfirst a ha

/-- Sorted values are in strict order by the comparison and then by the numbers they came under. -/
theorem exists_numbering_sortBy (order : α → α → Ordering) [TransCmp order] (values : List α)
    (number : Nat) :
    ∃ numbered : List (α × Nat), numbered.Perm (values.zipIdx number) ∧
      numbered.Pairwise (Precedes order) ∧ numbered.map Prod.fst = sortBy order values := by
  induction values generalizing number with
  | nil => exact ⟨[], List.Perm.refl _, List.Pairwise.nil, rfl⟩
  | cons value values ih =>
    obtain ⟨rest, hperm, hpair, hmap⟩ := ih (number + 1)
    have hnum : ∀ a ∈ rest, number < a.2 := by
      intro a ha
      exact List.le_snd_of_mem_zipIdx (hperm.mem_iff.mp ha)
    obtain ⟨numbered, hperm', hpair', hmap'⟩ := exists_numbering_insertBy value number hpair hnum
    refine ⟨numbered, ?_, hpair', ?_⟩
    · rw [List.zipIdx_cons]
      exact hperm'.trans (hperm.cons _)
    · rw [hmap', hmap, sortBy]

/-! ### Sorting two lists side by side -/

theorem forall₂_insertBy {order' : β → β → Ordering} {R : α → β → Prop}
    (hR : ∀ a b, R a b → ∀ a' b', R a' b' → order a a' = order' b b') {a : α} {b : β}
    {xs : List α} {ys : List β} (hab : R a b) (h : List.Forall₂ R xs ys) :
    List.Forall₂ R (insertBy order a xs) (insertBy order' b ys) := by
  induction h with
  | nil => exact List.Forall₂.cons hab List.Forall₂.nil
  | cons hhead htail ih =>
    simp only [insertBy, hR _ _ hab _ _ hhead]
    split
    · exact List.Forall₂.cons hab (List.Forall₂.cons hhead htail)
    · exact List.Forall₂.cons hhead ih

/-- Lists whose values correspond and compare alike are sorted alike. -/
theorem forall₂_sortBy {order' : β → β → Ordering} {R : α → β → Prop}
    (hR : ∀ a b, R a b → ∀ a' b', R a' b' → order a a' = order' b b') {xs : List α} {ys : List β}
    (h : List.Forall₂ R xs ys) : List.Forall₂ R (sortBy order xs) (sortBy order' ys) := by
  induction h with
  | nil => exact List.Forall₂.nil
  | cons hhead _ ih => exact forall₂_insertBy hR hhead ih

/-- Sorting commutes with a map that keeps the comparison. -/
theorem sortBy_map {order' : β → β → Ordering} {f : α → β} {xs : List α}
    (hf : ∀ a ∈ xs, ∀ b ∈ xs, order' (f a) (f b) = order a b) :
    sortBy order' (xs.map f) = (sortBy order xs).map f := by
  have hR : ∀ a b, a ∈ xs ∧ b = f a → ∀ a' b', a' ∈ xs ∧ b' = f a' → order a a' = order' b b' := by
    rintro a b ⟨ha, rfl⟩ a' b' ⟨ha', rfl⟩
    exact (hf a ha a' ha').symm
  have hsorted : List.Forall₂ (fun a b => b = f a) (sortBy order xs) (sortBy order' (xs.map f)) :=
    (forall₂_sortBy hR (forall₂_map_self f xs)).imp fun _ _ h => h.2
  have heq : List.Forall₂ Eq (sortBy order' (xs.map f)) ((sortBy order xs).map f) :=
    List.forall₂_map_right_iff.mpr hsorted.flip
  exact List.forall₂_eq_eq_eq ▸ heq

/-! ### Least values -/

/-- A fold that keeps the better of two values ends at a least one. -/
theorem foldl_least (le better : α → α → Prop) [DecidableRel better]
    (hrefl : ∀ a, le a a) (htrans : ∀ a b c, le a b → le b c → le a c)
    (hbetter : ∀ a b, better a b → le a b) (hworse : ∀ a b, ¬better a b → le b a)
    (first : α) (others : List α) :
    let least := others.foldl (fun best value => if better value best then value else best) first
    least ∈ first :: others ∧ ∀ value ∈ first :: others, le least value := by
  induction others generalizing first with
  | nil => simp [hrefl]
  | cons value others ih =>
    simp only [List.foldl_cons]
    split
    · rename_i h
      obtain ⟨hmem, hle⟩ := ih value
      refine ⟨List.mem_cons_of_mem _ hmem, fun x hx => ?_⟩
      rcases List.mem_cons.mp hx with rfl | hx
      · exact htrans _ _ _ (hle value List.mem_cons_self) (hbetter _ _ h)
      · exact hle x hx
    · rename_i h
      obtain ⟨hmem, hle⟩ := ih first
      refine ⟨?_, fun x hx => ?_⟩
      · rcases List.mem_cons.mp hmem with h' | h'
        · rw [h']
          exact List.mem_cons_self
        · exact List.mem_cons_of_mem _ (List.mem_cons_of_mem _ h')
      · rcases List.mem_cons.mp hx with rfl | hx
        · exact hle x List.mem_cons_self
        · rcases List.mem_cons.mp hx with rfl | hx
          · exact htrans _ _ _ (hle first List.mem_cons_self) (hworse _ _ h)
          · exact hle x (List.mem_cons_of_mem _ hx)

end MonikerIndex
