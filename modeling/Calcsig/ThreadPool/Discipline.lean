import Calcsig.ThreadPool.Model

namespace Calcsig.ThreadPool.Discipline

open Foundation.Runs Model

variable {ι τ : Type}

/-- What a thread that holds the mutex has learnt about the pool. -/
@[grind] def Knows (stopped : Bool) (queue : List τ) : Place τ → Prop
  | .getWait => queue = []
  | .getCheck => queue ≠ [] ∨ stopped = true
  | .getFront => queue ≠ []
  | _ => True

theorem knows_of_unlocked {p : Place τ} (h : p.locked = false) (stopped : Bool) (queue : List τ) :
    Knows stopped queue p := by
  cases p <;> trivial

theorem Knows.stopped {stopped : Bool} {queue : List τ} {p : Place τ} (h : Knows stopped queue p) :
    Knows true queue p := by
  cases p with
  | getCheck => exact .inr rfl
  | _ => exact h

@[grind] def idle : Place τ → Bool
  | .outside | .getLock | .addStopped _ => true
  | _ => false

/-- A thread between lock and unlock holds the mutex. Conversely the holder is
such a thread, or one that `get_task` has let go with the mutex. -/
structure Inv (s : Pool ι τ) : Prop where
  holds : ∀ i, (s.place i).locked = true → s.mutex = some i
  holder : ∀ i, s.mutex = some i →
    (s.place i).locked = true ∨ s.isStopped = true ∧ idle (s.place i) = true
  knows : ∀ i, Knows s.isStopped s.taskQueue (s.place i)

theorem Inv.alone {s : Pool ι τ} (h : Inv s) {i j : ι} (hi : (s.place i).locked = true)
    (hne : j ≠ i) : (s.place j).locked = false := by
  rw [Bool.eq_false_iff]
  intro hj
  exact hne (Option.some.inj ((h.holds j hj).symm.trans (h.holds i hi)))

theorem inv_init : Inv (Pool.init : Pool ι τ) where
  holds _ h := by cases h
  holder _ h := by cases h
  knows _ := trivial

section Moves

variable [DecidableEq ι] {s s' : Pool ι τ} {b : Bool}

theorem holds_move (h : Inv s) (hm : Move s b s') (j : ι) (hj : (s'.place j).locked = true) :
    s'.mutex = some j := by
  have hold := h.holds j
  cases hm with
  | free i hi hf =>
    have hloc := hf.locked
    grind
  | lock i hi hl hfree =>
    have hloc := hl.locked
    grind
  | inside i hi hin =>
    have hloc := hin.locked
    grind
  | unlock i hi hu =>
    have hloc := hu.locked
    have hmine := h.holds i
    grind
  | stop => exact hold hj
  | _ => grind

theorem holder_move (h : Inv s) (hm : Move s b s') (j : ι) (hj : s'.mutex = some j) :
    (s'.place j).locked = true ∨ s'.isStopped = true ∧ idle (s'.place j) = true := by
  have hold := h.holder j
  cases hm with
  | free i hi hf => cases hf <;> grind
  | lock i hi hl hfree =>
    have hloc := hl.locked
    grind
  | inside i hi hin =>
    have hloc := hin.locked
    grind
  | _ => grind

theorem knows_move (h : Inv s) (hm : Move s b s') (j : ι) :
    Knows s'.isStopped s'.taskQueue (s'.place j) := by
  have hold := h.knows j
  have hmine := h.holds j
  cases hm with
  | free i hi hf => cases hf <;> grind
  | lock i hi hl hfree => cases hl <;> grind
  | inside i hi hin => cases hin <;> grind
  | unlock i hi hu => cases hu <;> grind
  | push i task hi =>
    by_cases hji : j = i
    · simp [hji, Knows]
    · simpa [hji] using knows_of_unlocked (h.alone (by rw [hi]; rfl) hji) _ _
  | pop i task rest hi =>
    by_cases hji : j = i
    · simp [hji, Knows]
    · simpa [hji] using knows_of_unlocked (h.alone (by rw [hi]; rfl) hji) _ _
  | stop => exact hold.stopped
  | _ => grind

theorem inv_move (h : Inv s) (hm : Move s b s') : Inv s' :=
  ⟨holds_move h hm, holder_move h hm, knows_move h hm⟩

end Moves

variable [DecidableEq ι] [Fintype ι]

theorem inv_step {s : Pool ι τ} (a : Act ι τ) (h : Inv s) : Inv (s.step a) := by
  rcases step_cases s a with he | hm
  · rwa [he]
  · exact inv_move h hm

theorem inv_run (acts : List (Act ι τ)) : Inv (run Pool.step Pool.init acts) :=
  run_keeps (I := Inv) (fun _ a h ↦ inv_step a h) inv_init acts

/-- Whoever holds the mutex is inside a call. -/
def HeldInside (s : Pool ι τ) : Prop := ∀ i, s.mutex = some i → s.place i ≠ .outside

def Disciplined (s : Pool ι τ) : Prop := Inv s ∧ ∀ i, s.mutex = some i → (s.place i).locked = true

omit [DecidableEq ι] [Fintype ι] in
theorem Disciplined.heldInside {s : Pool ι τ} (h : Disciplined s) : HeldInside s := by
  intro i hi ho
  have hl := h.2 i hi
  rw [ho] at hl
  cases hl

theorem disciplined_step {s : Pool ι τ} {a : Act ι τ} (h : Disciplined s) (ha : leaks s a = false) :
    Disciplined (s.step a) := by
  have hcases := step_cases s a
  rw [ha] at hcases
  rcases hcases with he | hm
  · rwa [he]
  · refine ⟨inv_move h.1 hm, fun j hj ↦ ?_⟩
    generalize s.step a = s' at hm hj ⊢
    have hmine := h.2 j
    cases hm with
    | free i hi hf =>
      have hloc := hf.locked
      grind
    | lock i hi hl hfree =>
      have hloc := hl.locked
      grind
    | inside i hi hin =>
      have hloc := hin.locked
      grind
    | _ => grind

theorem step_of_leaks {s : Pool ι τ} {a : Act ι τ} (ha : leaks s a = true) :
    ∃ i, s.place i = .getCheck ∧ s.step a = s.goto i .outside := by
  cases a with
  | next i =>
    cases hi : s.place i with
    | getCheck =>
      simp only [leaks, hi] at ha
      exact ⟨i, hi, by simp only [Pool.step, Pool.next, hi, ha, if_true]⟩
    | _ => simp [leaks, hi] at ha
  | _ => cases ha

theorem leak_breaks {s : Pool ι τ} {a : Act ι τ} (h : Inv s) (ha : leaks s a = true) :
    ¬ HeldInside (s.step a) := by
  obtain ⟨i, hi, he⟩ := step_of_leaks ha
  intro hin
  rw [he] at hin
  exact hin i (h.holds i (by rw [hi]; rfl)) (by simp)

theorem heldInside_iff (acts : List (Act ι τ)) :
    Throughout Pool.step HeldInside Pool.init acts ↔
      Along Pool.step (fun s a ↦ leaks s a = false) Pool.init acts := by
  apply throughout_iff_along (D := Disciplined) (fun s h ↦ h.heldInside)
  · exact fun s a h ha ↦ disciplined_step h ha
  · exact fun s a h ha ↦ leak_breaks h.1 (by simpa using ha)
  · exact ⟨inv_init, fun _ h ↦ by cases h⟩

end Calcsig.ThreadPool.Discipline
