import MonikerIndex.Error
import MonikerIndex.Proofs.Sorting

/-!
# Outcomes

A run ends with a value or with an error. Two runs are compared by `Alike`: either both succeed,
with related values, or both fail with errors of one kind. The relation is kept by each way in
which runs are put together, so two runs of a whole pipeline are compared stage by stage.

Successful runs are taken apart by `bind_eq_ok_iff` and `mapM_eq_ok_iff`.
-/

namespace MonikerIndex

variable {α β γ δ : Type}

/-! ### Successful runs -/

theorem bind_eq_ok_iff {ε : Type} {x : Except ε α} {f : α → Except ε β} {b : β} :
    (x >>= f) = .ok b ↔ ∃ a, x = .ok a ∧ f a = .ok b := by
  cases x with
  | error e => simp [bind, Except.bind]
  | ok a => simp [bind, Except.bind]

theorem map_eq_ok_iff {ε : Type} {x : Except ε α} {f : α → β} {b : β} :
    x.map f = .ok b ↔ ∃ a, x = .ok a ∧ f a = b := by
  cases x with
  | error e => simp [Except.map]
  | ok a => simp [Except.map]

theorem map_eq_error_iff {ε : Type} {x : Except ε α} {f : α → β} {e : ε} :
    x.map f = .error e ↔ x = .error e := by
  cases x with
  | error e' => simp [Except.map]
  | ok a => simp [Except.map]

theorem toOption_eq_some_iff {ε : Type} {x : Except ε α} {a : α} :
    x.toOption = some a ↔ x = .ok a := by
  cases x with
  | error e => simp [Except.toOption]
  | ok a => simp [Except.toOption]

/-- A traversal succeeds if it succeeds at every member. -/
theorem mapM_eq_ok_iff {ε : Type} {f : α → Except ε β} {xs : List α} {ys : List β} :
    xs.mapM f = .ok ys ↔ List.Forall₂ (fun x y => f x = .ok y) xs ys := by
  induction xs generalizing ys with
  | nil =>
    rw [List.forall₂_nil_left_iff, List.mapM_nil]
    exact ⟨fun h => (Except.ok.inj h).symm, fun h => h ▸ rfl⟩
  | cons x xs ih =>
    rw [List.mapM_cons, bind_eq_ok_iff, List.forall₂_cons_left_iff]
    constructor
    · rintro ⟨y, hy, h⟩
      obtain ⟨rest, hrest, h⟩ := bind_eq_ok_iff.mp h
      exact ⟨y, rest, hy, ih.mp hrest, (Except.ok.inj h).symm⟩
    · rintro ⟨y, rest, hy, hrest, rfl⟩
      exact ⟨y, hy, bind_eq_ok_iff.mpr ⟨rest, ih.mpr hrest, rfl⟩⟩

/-- A traversal fails as it fails at some member. -/
theorem exists_error_of_mapM_eq_error {ε : Type} {f : α → Except ε β} {xs : List α} {e : ε}
    (h : xs.mapM f = .error e) : ∃ x ∈ xs, f x = .error e := by
  induction xs with
  | nil => cases h
  | cons x xs ih =>
    rw [List.mapM_cons] at h
    cases hx : f x with
    | error e' =>
      rw [hx] at h
      cases h
      exact ⟨x, List.mem_cons_self, hx⟩
    | ok y =>
      rw [hx] at h
      cases hxs : xs.mapM f with
      | error e' =>
        have he : e' = e := by
          change (xs.mapM f >>= fun rest => pure (y :: rest)) = .error e at h
          rw [hxs] at h
          exact Except.error.inj h
        obtain ⟨x', hx', hfail⟩ := ih (he ▸ hxs)
        exact ⟨x', List.mem_cons_of_mem _ hx', hfail⟩
      | ok rest =>
        change (xs.mapM f >>= fun rest => pure (y :: rest)) = .error e at h
        rw [hxs] at h
        cases h

/-! ### Comparing two runs -/

/-- Two runs that both succeed, with related values, or both fail, with errors of one kind. -/
inductive Alike (R : α → β → Prop) : Except Error α → Except Error β → Prop where
  | ok {a : α} {b : β} (h : R a b) : Alike R (.ok a) (.ok b)
  | error {e e' : Error} (h : e.kind = e'.kind) : Alike R (.error e) (.error e')

namespace Alike

variable {R : α → β → Prop} {S : γ → δ → Prop}

theorem rel_of_ok {a : α} {b : β} (h : Alike R (.ok a) (.ok b)) : R a b := by
  cases h with
  | ok h => exact h

theorem bind {x : Except Error α} {y : Except Error β} {f : α → Except Error γ}
    {g : β → Except Error δ} (h : Alike R x y) (hfg : ∀ a b, R a b → Alike S (f a) (g b)) :
    Alike S (x >>= f) (y >>= g) := by
  cases h with
  | ok h => exact hfg _ _ h
  | error h => exact .error h

theorem map {x : Except Error α} {y : Except Error β} {f : α → γ} {g : β → δ} (h : Alike R x y)
    (hfg : ∀ a b, R a b → S (f a) (g b)) : Alike S (x.map f) (y.map g) := by
  cases h with
  | ok h => exact .ok (hfg _ _ h)
  | error h => exact .error h

theorem imp {S : α → β → Prop} {x : Except Error α} {y : Except Error β} (h : Alike R x y)
    (hRS : ∀ a b, R a b → S a b) : Alike S x y := by
  cases h with
  | ok h => exact .ok (hRS _ _ h)
  | error h => exact .error h

/-- Two traversals are alike if they are at every pair of members. -/
theorem mapM {f : α → Except Error γ} {g : β → Except Error δ} {xs : List α} {ys : List β}
    (h : List.Forall₂ R xs ys) (hfg : ∀ a b, R a b → Alike S (f a) (g b)) :
    Alike (List.Forall₂ S) (xs.mapM f) (ys.mapM g) := by
  induction h with
  | nil => exact .ok List.Forall₂.nil
  | cons hhead _ ih =>
    rw [List.mapM_cons, List.mapM_cons]
    refine (hfg _ _ hhead).bind fun c d hcd => ih.bind fun cs ds hcds => ?_
    exact .ok (List.Forall₂.cons hcd hcds)

/-- A traversal of the images of some values. -/
theorem mapM_map {f : α → Except Error γ} {g : β → Except Error γ} {k : α → β} {xs : List α}
    (hfg : ∀ x ∈ xs, Alike Eq (f x) (g (k x))) : Alike Eq (xs.mapM f) ((xs.map k).mapM g) := by
  have hside : Alike (List.Forall₂ Eq) (xs.mapM f) ((xs.map k).mapM g) := by
    refine mapM (forall₂_map_self k xs) ?_
    rintro x _ ⟨hx, rfl⟩
    exact hfg x hx
  rwa [List.forall₂_eq_eq_eq] at hside

/-- Two runs over lists are alike if each pair of steps keeps the states related. -/
theorem foldlM {f : α → γ → Except Error α} {g : β → δ → Except Error β} {cs : List γ}
    {ds : List δ} (hstep : ∀ a b c d, R a b → S c d → Alike R (f a c) (g b d))
    (h : List.Forall₂ S cs ds) {a : α} {b : β} (hab : R a b) :
    Alike R (cs.foldlM f a) (ds.foldlM g b) := by
  induction h generalizing a b with
  | nil => exact .ok hab
  | cons hhead _ ih =>
    rw [List.foldlM_cons, List.foldlM_cons]
    exact (hstep a b _ _ hab hhead).bind fun a' b' hab' => ih hab'

/-- Two checks of one condition that fail in one way only are alike. -/
theorem of_ok_iff {x y : Except Error Unit} {P : Prop} {kind : ErrorKind} (hx : x = .ok () ↔ P)
    (hy : y = .ok () ↔ P) (hkind : ∀ e, x = .error e → e.kind = kind)
    (hkind' : ∀ e, y = .error e → e.kind = kind) : Alike (fun _ _ => P) x y := by
  cases x with
  | ok _ =>
    have hP := hx.mp rfl
    rw [hy.mpr hP]
    exact .ok hP
  | error e =>
    cases y with
    | ok _ => cases hx.mpr (hy.mp rfl)
    | error e' => exact .error ((hkind e rfl).trans (hkind' e' rfl).symm)

/-- Runs that are alike, with what they come to. -/
theorem attach {x : Except Error α} {y : Except Error β} (h : Alike R x y) :
    Alike (fun a b => x = .ok a ∧ R a b) x y := by
  cases h with
  | ok h => exact .ok ⟨rfl, h⟩
  | error h => exact .error h

theorem trans {x : Except Error α} {y : Except Error β} {z : Except Error γ} {S : β → γ → Prop}
    (h : Alike R x y) (h' : Alike S y z) : Alike (Relation.Comp R S) x z := by
  cases h with
  | ok h =>
    cases h' with
    | ok h' => exact .ok ⟨_, h, h'⟩
  | error h =>
    cases h' with
    | error h' => exact .error (h.trans h')

/-- A traversal that fails in one way only depends on the order of its members only where these
    have the same key. -/
theorem mapM_agreeBy {κ : Type} [DecidableEq κ] {key : α → κ} {key' : γ → κ}
    {f : α → Except Error γ} {xs ys : List α} {kind : ErrorKind} (h : AgreeBy key xs ys)
    (hkey : ∀ x z, f x = .ok z → key' z = key x) (hkind : ∀ x e, f x = .error e → e.kind = kind) :
    Alike (AgreeBy key') (xs.mapM f) (ys.mapM f) := by
  -- a traversal that succeeds leaves no member at which another one could fail
  have hfail : ∀ {us vs : List α} {zs : List γ} {e : Error}, AgreeBy key us vs →
      us.mapM f = .ok zs → vs.mapM f ≠ .error e := by
    intro us vs zs e hagree hok herror
    obtain ⟨x, hx, hfx⟩ := exists_error_of_mapM_eq_error herror
    obtain ⟨z, -, hz⟩ := exists_mem_right_of_forall₂ (mapM_eq_ok_iff.mp hok) (hagree.mem_iff.mpr hx)
    rw [hfx] at hz
    cases hz
  cases hxs : xs.mapM f with
  | ok zs =>
    cases hys : ys.mapM f with
    | error e => exact absurd hys (hfail h hxs)
    | ok ws =>
      refine .ok fun k => ?_
      have hfilter : ∀ {us : List α} {zs : List γ}, us.mapM f = .ok zs →
          (us.filter fun x => key x = k).mapM f = .ok (zs.filter fun z => key' z = k) := by
        intro us zs hok
        refine mapM_eq_ok_iff.mpr (List.rel_filter ?_ (mapM_eq_ok_iff.mp hok))
        intro x z hz
        simp only [decide_eq_true_eq, hkey x z hz]
      have hsame := hfilter hxs
      rw [h k, hfilter hys] at hsame
      exact (Except.ok.inj hsame).symm
  | error e =>
    cases hys : ys.mapM f with
    | ok ws => exact absurd hxs (hfail h.symm hys)
    | error e' =>
      obtain ⟨x, -, hx⟩ := exists_error_of_mapM_eq_error hxs
      obtain ⟨y, -, hy⟩ := exists_error_of_mapM_eq_error hys
      exact .error ((hkind x e hx).trans (hkind y e' hy).symm)

/-- Runs that are alike up to equality have the same value or the same kind of error. -/
theorem mapError_eq {x y : Except Error α} (h : Alike Eq x y) :
    x.mapError Error.kind = y.mapError Error.kind := by
  cases h with
  | ok h => rw [h]
  | error h => simp only [Except.mapError, h]

theorem refl (x : Except Error α) : Alike Eq x x := by
  cases x with
  | ok a => exact .ok rfl
  | error e => exact .error rfl

end Alike

end MonikerIndex
