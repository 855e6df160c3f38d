import Mathlib.Algebra.BigOperators.Group.Finset.Piecewise
import Mathlib.Data.Fintype.Basic

namespace Calcsig.Foundation.Census

open Function

variable {ι α : Type} [Fintype ι]

def census (p : α → Bool) (f : ι → α) : ℕ := (Finset.univ.filter (fun i ↦ p (f i) = true)).card

theorem census_eq_sum (p : α → Bool) (f : ι → α) : census p f = ∑ i, (p (f i)).toNat := by
  rw [census, Finset.card_filter]
  apply Finset.sum_congr rfl
  intro i _
  cases p (f i) <;> rfl

theorem census_update [DecidableEq ι] (p : α → Bool) (f : ι → α) (i : ι) (a : α) :
    census p (update f i a) + (p (f i)).toNat = census p f + (p a).toNat := by
  have hfun : (fun j ↦ (p (update f i a j)).toNat) =
      update (fun j ↦ (p (f j)).toNat) i (p a).toNat := by
    funext j
    by_cases h : j = i
    · subst h
      simp
    · simp [h]
  rw [census_eq_sum, census_eq_sum, hfun, Finset.sum_update_of_mem (Finset.mem_univ i),
    Finset.sum_eq_sum_sdiff_singleton_add (Finset.mem_univ i) (fun j ↦ (p (f j)).toNat)]
  omega

theorem census_or {p q : α → Bool} (h : ∀ a, p a = true → q a = false) (f : ι → α) :
    census (fun a ↦ p a || q a) f = census p f + census q f := by
  rw [census_eq_sum, census_eq_sum, census_eq_sum, ← Finset.sum_add_distrib]
  apply Finset.sum_congr rfl
  intro i _
  cases hp : p (f i) with
  | false => simp
  | true => simp [h (f i) hp]

theorem census_eq_zero {p : α → Bool} {f : ι → α} (h : ∀ i, p (f i) = false) : census p f = 0 := by
  simp [census, h]

theorem census_eq_of_alone {p : α → Bool} {f : ι → α} {i : ι} (h : ∀ j, j ≠ i → p (f j) = false) :
    census p f = (p (f i)).toNat := by
  rw [census_eq_sum]
  apply Finset.sum_eq_single_of_mem i (Finset.mem_univ i)
  intro j _ hj
  simp [h j hj]

theorem sum_change {M : Type} [AddCommMonoid M] [DecidableEq ι] {f f' : ι → M} {i : ι}
    (h : ∀ j, j ≠ i → f' j = f j) : ∑ j, f' j + f i = ∑ j, f j + f' i := by
  have hrest : ∑ j ∈ Finset.univ \ {i}, f' j = ∑ j ∈ Finset.univ \ {i}, f j := by
    apply Finset.sum_congr rfl
    intro j hj
    exact h j (by simpa using hj)
  rw [Finset.sum_eq_sum_sdiff_singleton_add (Finset.mem_univ i) f',
    Finset.sum_eq_sum_sdiff_singleton_add (Finset.mem_univ i) f, hrest, add_assoc, add_assoc,
    add_comm (f' i)]

section Lists

variable {α : Type} {l : List α} {i : ℕ} {a : α}

theorem countP_set_add (p : α → Bool) (h : l[i]? = some a) (b : α) :
    (l.set i b).countP p + (p a).toNat = l.countP p + (p b).toNat := by
  induction l generalizing i with
  | nil => cases h
  | cons c l ih =>
    cases i with
    | zero =>
      obtain rfl : c = a := Option.some.inj h
      simp only [List.set_cons_zero, List.countP_cons]
      cases p c <;> cases p b <;> simp
    | succ i =>
      have := ih h
      simp only [List.set_cons_succ, List.countP_cons]
      omega

theorem sum_map_set_add {M : Type} [AddCommMonoid M] (f : α → M) (h : l[i]? = some a) (b : α) :
    ((l.set i b).map f).sum + f a = (l.map f).sum + f b := by
  induction l generalizing i with
  | nil => cases h
  | cons c l ih =>
    cases i with
    | zero =>
      obtain rfl : c = a := Option.some.inj h
      simp only [List.set_cons_zero, List.map_cons, List.sum_cons]
      ac_rfl
    | succ i =>
      simp only [List.set_cons_succ, List.map_cons, List.sum_cons, add_assoc, ih h]

theorem count_flatMap_set_add {β : Type} [BEq β] (f : α → List β) (h : l[i]? = some a) (b : α)
    (x : β) :
    ((l.set i b).flatMap f).count x + (f a).count x = (l.flatMap f).count x + (f b).count x := by
  simp only [List.count_flatMap]
  exact sum_map_set_add (fun a ↦ (f a).count x) h b

end Lists

end Calcsig.Foundation.Census
