import Calcsig.ThreadPool.Elastic

namespace Calcsig.ThreadPool.FunctionPool

open Foundation.Runs Foundation.Census Elastic
open ObjectPool.Model (int32 int32_of_range int32_lt)

/-- Where a worker is in the loop that creates threads and in the test that
takes it off, up to the next load or update. -/
inductive Adjusting
  | growStopped (taskNums : ℤ)
  | growCur (taskNums : ℤ)
  | growUsed (taskNums curNum : ℤ)
  | growMax (taskNums : ℤ)
  | spawn (taskNums : ℤ)
  | shrinkStopped (taskNums : ℤ)
  | shrinkCur
  | lower

/-- The pool of `threadpool.hpp`, whose tests and updates of `cur_num` are
separate steps. -/
def functionPool : Variant Adjusting where
  least := 4
  enter := .growStopped
  adjust c
    | .growStopped n => ⟨false, .adjust (if c.isStopped then .shrinkStopped n else .growCur n)⟩
    | .growCur n => ⟨false, .adjust (.growUsed n c.curNum)⟩
    | .growUsed n curNum =>
      ⟨false, .adjust (if curNum - c.usedNum < n then .growMax n else .shrinkStopped n)⟩
    | .growMax n => ⟨false, .adjust (if c.curNum < c.maxNum then .spawn n else .shrinkStopped n)⟩
    | .spawn n => ⟨true, .adjust (.growStopped n)⟩
    | .shrinkStopped n => ⟨false, if !c.isStopped && n == 0 then .adjust .shrinkCur else .again⟩
    | .shrinkCur => ⟨false, if c.initNum < c.curNum then .adjust .lower else .again⟩
    | .lower => ⟨false, .leave⟩

variable {τ : Type}

def Bounds (s : Pool τ Adjusting) : Prop :=
  s.initNum ≤ s.curNum ∧ s.curNum ≤ max s.initNum s.maxNum

instance (s : Pool τ Adjusting) : Decidable (Bounds s) :=
  inferInstanceAs (Decidable (s.initNum ≤ s.curNum ∧ s.curNum ≤ max s.initNum s.maxNum))

def FreshAt (s : Pool τ Adjusting) : Place τ Adjusting → Prop
  | .adjusting (.spawn _) => s.curNum < s.maxNum
  | .adjusting .lower => s.initNum < s.curNum
  | _ => True

/-- A thread is created only while there are fewer than the bound, and a worker
leaves only while there are more than at first. -/
def Fresh (s : Pool τ Adjusting) : Act τ → Prop
  | .next i => ∀ p ∈ s.workers[i]?, FreshAt s p
  | _ => True

/-- Only a pool with a positive number of threads to start with has workers. -/
structure Inv (s : Pool τ Adjusting) : Prop where
  bounds : Bounds s
  fits : max s.initNum s.maxNum < 2 ^ 31
  pos : s.workers ≠ [] → 0 < s.initNum

def curAfter (s : Pool τ Adjusting) : Place τ Adjusting → ℤ
  | .adjusting (.spawn _) => int32 (s.curNum + 1)
  | .adjusting .lower => int32 (s.curNum - 1)
  | _ => s.curNum

theorem advance_curNum (s : Pool τ Adjusting) (i : ℕ) (p : Place τ Adjusting) :
    (s.advance functionPool i p).curNum = curAfter s p := by
  cases p with
  | waiting => simp only [Pool.advance]; split <;> [split; skip] <;> rfl
  | adjusting a =>
    cases a with
    | shrinkStopped n =>
      apply settle_curNum_of_stays s i
      dsimp only [functionPool]
      split <;> simp
    | shrinkCur =>
      apply settle_curNum_of_stays s i
      dsimp only [functionPool]
      split <;> simp
    | _ => rfl
  | _ => rfl

theorem spawn_bounds_iff {s : Pool τ Adjusting} (h : Inv s) (hpos : 0 < s.initNum) :
    (s.initNum ≤ int32 (s.curNum + 1) ∧ int32 (s.curNum + 1) ≤ max s.initNum s.maxNum) ↔
      s.curNum < s.maxNum := by
  obtain ⟨hlow, hhigh⟩ := h.bounds
  have hfits := h.fits
  by_cases htop : s.curNum + 1 = 2 ^ 31
  · -- the counter wraps around, below the number of threads to start with
    have hwrap : int32 (2 ^ 31) = -2 ^ 31 := by decide
    rw [htop, hwrap]
    omega
  · rw [int32_of_range (x := s.curNum + 1) (by omega) (by omega)]
    omega

theorem curAfter_bounds_iff {s : Pool τ Adjusting} (h : Inv s) (hpos : 0 < s.initNum)
    (p : Place τ Adjusting) :
    (s.initNum ≤ curAfter s p ∧ curAfter s p ≤ max s.initNum s.maxNum) ↔ FreshAt s p := by
  obtain ⟨hlow, hhigh⟩ := h.bounds
  have hfits := h.fits
  cases p with
  | adjusting a =>
    cases a with
    | spawn n => exact spawn_bounds_iff h hpos
    | lower =>
      rw [curAfter, int32_of_range (x := s.curNum - 1) (by omega) (by omega), FreshAt]
      omega
    | _ => exact iff_of_true h.bounds trivial
  | _ => exact iff_of_true h.bounds trivial

theorem bounds_next_iff {s : Pool τ Adjusting} (h : Inv s) (i : ℕ) :
    Bounds (s.next functionPool i) ↔ Fresh s (.next i) := by
  simp only [Pool.next, Fresh]
  cases hp : s.workers[i]? with
  | none => exact iff_of_true h.bounds (fun _ hnone ↦ by cases hnone)
  | some p =>
    have hpos := h.pos (List.ne_nil_of_mem (List.mem_of_getElem? hp))
    simp only [Option.mem_def, Option.some.injEq, forall_eq', Bounds, advance_initNum,
      advance_maxNum, advance_curNum]
    exact curAfter_bounds_iff h hpos p

theorem Inv.next {s : Pool τ Adjusting} (h : Inv s) (i : ℕ) (hc : Fresh s (.next i)) :
    Inv (s.next functionPool i) := by
  have hbounds := (bounds_next_iff h i).mpr hc
  unfold Pool.next at hbounds ⊢
  cases hp : s.workers[i]? with
  | none => exact h
  | some p =>
    have hpos := h.pos (List.ne_nil_of_mem (List.mem_of_getElem? hp))
    rw [hp] at hbounds
    refine ⟨hbounds, ?_, fun _ ↦ ?_⟩
    · simp only [advance_initNum, advance_maxNum]
      exact h.fits
    · simpa only [advance_initNum] using hpos

theorem inv_step {s : Pool τ Adjusting} (h : Inv s) {a : Act τ} (hc : Fresh s a) :
    Inv (s.step functionPool a) := by
  by_cases ha : a = .stop
  · subst ha
    exact ⟨h.bounds, h.fits, h.pos⟩
  · refine step_cases functionPool s ha (fun _ _ ↦ ⟨h.bounds, h.fits, h.pos⟩) fun i p hi hp ↦ ?_
    subst hi
    have hnext := h.next i hc
    rwa [Pool.next, hp] at hnext

theorem inv_init (num most : ℕ) : Inv (Pool.init functionPool num most : Pool τ Adjusting) := by
  refine ⟨⟨le_refl _, le_max_left ..⟩, max_lt (int32_lt _) (int32_lt _), fun h ↦ ?_⟩
  have hne : (startNum functionPool num).toNat ≠ 0 := by
    intro hzero
    simp [Pool.init, hzero] at h
  change 0 < startNum functionPool num
  omega

/-- The bounds hold throughout exactly the runs in which no worker acts on a
test of `cur_num` that has become false. -/
theorem throughout_bounds_iff (num most : ℕ) (acts : List (Act τ)) :
    Throughout (Pool.step functionPool) Bounds (Pool.init functionPool num most) acts ↔
      Along (Pool.step functionPool) Fresh (Pool.init functionPool num most) acts := by
  apply throughout_iff_along (D := Inv) (fun _ hi ↦ hi.bounds) (fun _ _ hi hc ↦ inv_step hi hc) ?_
    (inv_init num most)
  intro s a hi hc
  cases a with
  | next i => exact fun hb ↦ hc ((bounds_next_iff hi i).mp hb)
  | _ => exact absurd trivial hc

section Windows

/-- Between a test of `cur_num` that the worker has passed and its update. -/
def inWindow : Place τ Adjusting → Bool
  | .adjusting (.spawn _) | .adjusting .lower => true
  | _ => false

/-- No worker changes `cur_num` while another one is between its test and its
update. -/
def Exclusive (s : Pool τ Adjusting) : Act τ → Prop
  | .next i => ∀ p ∈ s.workers[i]?, inWindow p = true → s.workers.countP inWindow ≤ 1
  | _ => True

instance (s : Pool τ Adjusting) : (a : Act τ) → Decidable (Exclusive s a)
  | .next i => inferInstanceAs (Decidable (∀ p ∈ s.workers[i]?, inWindow p = true → _))
  | .taskAdd _ | .push _ | .stop => inferInstanceAs (Decidable True)

def Tested (s : Pool τ Adjusting) : Prop := ∀ p ∈ s.workers, FreshAt s p

variable {s : Pool τ Adjusting} {i : ℕ} {p : Place τ Adjusting}

theorem freshAt_of_outside (h : inWindow p = false) : FreshAt s p := by
  cases p with
  | adjusting a => cases a <;> first | exact trivial | cases h
  | _ => trivial

theorem curAfter_of_outside (h : inWindow p = false) : curAfter s p = s.curNum := by
  cases p with
  | adjusting a => cases a <;> first | rfl | cases h
  | _ => rfl

theorem freshAt_after (s : Pool τ Adjusting) (h : inWindow p = false) :
    FreshAt s (after functionPool s p) := by
  cases p with
  | adjusting a =>
    cases a with
    | growMax n =>
      by_cases hlt : s.curNum < s.maxNum <;> simp only [after, functionPool, hlt, if_true, if_false] <;>
        first | exact hlt | trivial
    | shrinkCur =>
      by_cases hlt : s.initNum < s.curNum <;> simp only [after, functionPool, hlt, if_true, if_false] <;>
        first | exact hlt | trivial
    | growStopped n => simp only [after, functionPool]; split <;> trivial
    | growUsed n curNum => simp only [after, functionPool]; split <;> trivial
    | shrinkStopped n => simp only [after, functionPool]; split <;> trivial
    | growCur n => trivial
    | spawn n => cases h
    | lower => cases h
  | loopTest => simp only [after]; split <;> trivial
  | waiting =>
    simp only [after]
    split
    · split <;> trivial
    · trivial
  | _ => trivial

theorem outside_after (h : inWindow p = true) : inWindow (after functionPool s p) = false := by
  cases p with
  | adjusting a => cases a <;> first | rfl | cases h
  | _ => cases h

theorem tested_advance (h : Tested s) (hp : s.workers[i]? = some p)
    (hc : inWindow p = true → s.workers.countP inWindow ≤ 1) :
    Tested (s.advance functionPool i p) := by
  have hworkers := advance_workers functionPool s hp
  cases hw : inWindow p with
  | true =>
    -- nobody is left in a window
    have hcount := countP_set_add inWindow
      (worker_append hp (if spawns functionPool s p then [Place.loopTest] else [])) (after functionPool s p)
    have hnew : (if spawns functionPool s p then [Place.loopTest] else []).countP
        (inWindow (τ := τ)) = 0 := by
      split <;> rfl
    rw [← hworkers, List.countP_append, hnew, hw, outside_after hw, Bool.toNat_true, Bool.toNat_false]
      at hcount
    have hnone : (s.advance functionPool i p).workers.countP inWindow = 0 := by
      have := hc hw
      omega
    intro q hq
    exact freshAt_of_outside (by simpa using List.countP_eq_zero.mp hnone q hq)
  | false =>
    have hsame (q : Place τ Adjusting) (hq : FreshAt s q) : FreshAt (s.advance functionPool i p) q := by
      unfold FreshAt at hq ⊢
      rwa [advance_curNum, advance_initNum, advance_maxNum, curAfter_of_outside hw]
    intro q hq
    rw [hworkers] at hq
    apply hsame
    rcases List.mem_or_eq_of_mem_set hq with hq | rfl
    · rcases List.mem_append.mp hq with hq | hq
      · exact h q hq
      · split at hq
        · rw [List.mem_singleton.mp hq]
          trivial
        · cases hq
    · exact freshAt_after s hw

theorem tested_step (h : Tested s) {a : Act τ} (hc : Exclusive s a) : Tested (s.step functionPool a) := by
  by_cases ha : a = .stop
  · subst ha
    exact h
  · refine step_cases functionPool s ha (fun _ _ ↦ h) fun i p hi hp ↦ ?_
    subst hi
    exact tested_advance h hp (hc p hp)

theorem tested_init (num most : ℕ) : Tested (Pool.init functionPool num most : Pool τ Adjusting) := by
  intro p hp
  rw [List.eq_of_mem_replicate hp]
  trivial

theorem fresh_of_tested (h : Tested s) (a : Act τ) : Fresh s a := by
  cases a with
  | next i => exact fun p hp ↦ h p (List.mem_of_getElem? hp)
  | _ => trivial

end Windows

/-- The bounds hold throughout every run in which no worker changes `cur_num`
between the test and the update of another one. -/
theorem bounds_of_exclusive (num most : ℕ) (acts : List (Act τ))
    (h : Along (Pool.step functionPool) Exclusive (Pool.init functionPool num most) acts) :
    Throughout (Pool.step functionPool) Bounds (Pool.init functionPool num most) acts := by
  apply (throughout_bounds_iff num most acts).mpr
  exact along_of_invariant (I := Tested) (fun _ _ ht hc _ ↦ tested_step ht hc)
    (fun _ a ht _ ↦ fresh_of_tested ht a) (tested_init num most) h

def reachSpawn (i : ℕ) : List (Act Unit) := List.replicate 9 (.next i)

theorem bounds_of_exclusive_instance :
    Throughout (Pool.step functionPool) Bounds (Pool.init functionPool 4 5)
      (addTasks 7 ++ reachSpawn 0 ++ [.next 0] ++ reachSpawn 1 ++ [.next 1]) :=
  bounds_of_exclusive 4 5 _ (by decide +kernel)

/-- Two workers find four threads where five are allowed, and both create one. -/
theorem two_workers_grow :
    ¬ Bounds (run (Pool.step functionPool) (Pool.init functionPool 4 5)
      (addTasks 7 ++ reachSpawn 0 ++ reachSpawn 1 ++ [.next 0, .next 1])) := by
  decide +kernel

end Calcsig.ThreadPool.FunctionPool
