import Calcsig.ThreadPool.Elastic

namespace Calcsig.ThreadPool.TaskPool

open Foundation.Runs Foundation.Census Elastic
open ObjectPool.Model (int32 int32_of_range int32_lt)

def grows (c : Counts) (taskNums : ℤ) : Bool :=
  !c.isStopped && decide (c.curNum - c.usedNum ≤ taskNums) && decide (c.curNum < c.maxNum)

def shrinks (c : Counts) (taskNums : ℤ) : Bool :=
  !c.isStopped && decide (taskNums < c.curNum - c.usedNum) && decide (c.initNum < c.curNum)

/-- The pool of `threadpooltask.hpp`: one locked block creates a thread, takes the
worker itself off, or both. -/
def taskPool : Variant ℤ where
  least := 5
  enter taskNums := taskNums
  adjust c taskNums :=
    let grown := if grows c taskNums then { c with curNum := int32 (c.curNum + 1) } else c
    ⟨grows c taskNums, if shrinks grown taskNums then .leave else .again⟩

variable {τ : Type}

structure Bounds (s : Pool τ ℤ) : Prop where
  low : s.initNum ≤ s.curNum
  high : s.curNum ≤ max s.initNum s.maxNum
  live : s.curNum = s.workers.countP Place.live
  usedNonneg : 0 ≤ s.usedNum
  usedLe : s.usedNum ≤ s.curNum

structure Inv (s : Pool τ ℤ) : Prop where
  running : s.isStopped = false
  fits : max s.initNum s.maxNum < 2 ^ 31
  low : s.initNum ≤ s.curNum
  high : s.curNum ≤ max s.initNum s.maxNum
  live : s.curNum = s.workers.countP Place.live
  used : s.usedNum = s.workers.countP Place.inUse

theorem countP_inUse_le (l : List (Place τ ℤ)) : l.countP Place.inUse ≤ l.countP Place.live :=
  List.countP_mono_left (fun _ _ ↦ Place.live_of_inUse)

theorem Inv.bounds {s : Pool τ ℤ} (h : Inv s) : Bounds s := by
  have hle := countP_inUse_le s.workers
  have hlive := h.live
  have hused := h.used
  exact ⟨h.low, h.high, h.live, by omega, by omega⟩

section Moves

variable {s : Pool τ ℤ} {i : ℕ} {p q : Place τ ℤ}

theorem Inv.countP_goto (h : Inv s) (hp : s.workers[i]? = some p) (hlive : q.live = p.live) :
    s.curNum = (s.workers.set i q).countP Place.live ∧
      s.usedNum + q.inUse.toNat - p.inUse.toNat = (s.workers.set i q).countP Place.inUse := by
  have hl := countP_set_add Place.live hp q
  have hu := countP_set_add Place.inUse hp q
  have hcur := h.live
  have hused := h.used
  rw [hlive] at hl
  omega

theorem Inv.int32_used (h : Inv s) (hp : s.workers[i]? = some p) (hlive : q.live = p.live) :
    int32 (s.usedNum + q.inUse.toNat - p.inUse.toNat) =
      s.usedNum + q.inUse.toNat - p.inUse.toNat := by
  obtain ⟨hl, hu⟩ := h.countP_goto hp hlive
  have hle := countP_inUse_le (s.workers.set i q)
  have hfits := h.high.trans_lt h.fits
  exact int32_of_range (by omega) (by omega)

theorem Inv.move (h : Inv s) (hp : s.workers[i]? = some p) (hlive : q.live = p.live)
    {t : Pool τ ℤ} (hworkers : t.workers = s.workers.set i q)
    (hcounts : t.toCounts =
      { s.toCounts with usedNum := s.usedNum + q.inUse.toNat - p.inUse.toNat }) : Inv t := by
  obtain ⟨hl, hu⟩ := h.countP_goto hp hlive
  obtain ⟨⟨_, _, _, _, _⟩, _, _, _⟩ := t
  cases hcounts
  cases hworkers
  exact ⟨h.running, h.fits, h.low, h.high, hl, hu⟩

theorem Inv.goto (h : Inv s) (hp : s.workers[i]? = some p) (hlive : q.live = p.live)
    (huse : q.inUse = p.inUse) : Inv (s.goto i q) :=
  h.move hp hlive rfl (by simp [Pool.goto, huse])

end Moves

theorem Inv.spawn {s : Pool τ ℤ} (h : Inv s) (hlt : s.curNum < s.maxNum) : Inv s.spawn := by
  have hcur := h.live
  have hfits : s.maxNum < 2 ^ 31 := (le_max_right ..).trans_lt h.fits
  have hrange : int32 (s.curNum + 1) = s.curNum + 1 := int32_of_range (by omega) (by omega)
  have hlow := h.low
  refine ⟨h.running, h.fits, ?_, ?_, ?_, ?_⟩ <;> simp only [Pool.spawn]
  · omega
  · rw [hrange]
    exact (Int.add_one_le_of_lt hlt).trans (le_max_right ..)
  · rw [hrange, List.countP_append, hcur]
    rfl
  · simp [h.used, Place.inUse]

theorem Inv.leave {s : Pool τ ℤ} (h : Inv s) {i : ℕ} {n : ℤ}
    (hp : s.workers[i]? = some (.adjusting n)) (hlt : s.initNum < s.curNum) :
    Inv (s.settle i .leave) := by
  have hl := countP_set_add Place.live hp .returned
  have hu := countP_set_add Place.inUse hp .returned
  simp only [Place.live, Place.inUse, Bool.toNat_true, Bool.toNat_false] at hl hu
  have hcur := h.live
  have hhigh := h.high
  have hfits := h.high.trans_lt h.fits
  have hrange : int32 (s.curNum - 1) = s.curNum - 1 := int32_of_range (by omega) (by omega)
  refine ⟨h.running, h.fits, ?_, ?_, ?_, ?_⟩ <;> simp only [Pool.settle, Pool.goto]
  · omega
  · omega
  · omega
  · rw [h.used]
    omega

theorem advance_adjusting (s : Pool τ ℤ) (i : ℕ) (n : ℤ) :
    let grown := if grows s.toCounts n then s.spawn else s
    s.advance taskPool i (.adjusting n) =
      grown.settle i (if shrinks grown.toCounts n then .leave else .again) := by
  cases h : grows s.toCounts n <;> simp [Pool.advance, taskPool, h, Pool.spawn]

theorem Inv.adjust {s : Pool τ ℤ} (h : Inv s) {i : ℕ} {n : ℤ}
    (hp : s.workers[i]? = some (.adjusting n)) : Inv (s.advance taskPool i (.adjusting n)) := by
  rw [advance_adjusting]
  have hgrown : Inv (if grows s.toCounts n then s.spawn else s) ∧
      (if grows s.toCounts n then s.spawn else s).workers[i]? = some (.adjusting n) := by
    split
    · rename_i hg
      have hlt : s.curNum < s.maxNum := by simpa using (Bool.and_eq_true_iff.mp hg).2
      exact ⟨h.spawn hlt, worker_append hp _⟩
    · exact ⟨h, hp⟩
  generalize (if grows s.toCounts n then s.spawn else s) = t at hgrown
  obtain ⟨ht, hpt⟩ := hgrown
  split
  · rename_i hs
    exact ht.leave hpt (by simpa using (Bool.and_eq_true_iff.mp hs).2)
  · exact ht.goto hpt rfl rfl

theorem Inv.advance {s : Pool τ ℤ} (h : Inv s) {i : ℕ} {p : Place τ ℤ}
    (hp : s.workers[i]? = some p) : Inv (s.advance taskPool i p) := by
  cases p with
  | loopTest =>
    simp only [Pool.advance, h.running, Bool.false_eq_true, if_false]
    exact h.goto hp rfl rfl
  | waiting =>
    simp only [Pool.advance, h.running, Bool.false_eq_true, if_false]
    split
    · exact h
    · rename_i task rest _
      exact h.move hp (q := .taken task (int32 rest.length)) rfl rfl
        (by simp [Pool.goto, Place.inUse])
  | taken task n =>
    have hused := h.int32_used (q := .running task n) hp rfl
    refine h.move hp (q := .running task n) rfl rfl ?_
    rw [← hused]
    simp [Pool.advance, Pool.goto, Place.inUse]
  | running task n => exact h.goto hp rfl rfl
  | ran n =>
    have hused := h.int32_used (q := .adjusting n) hp rfl
    refine h.move hp (q := .adjusting n) rfl rfl ?_
    rw [← hused]
    simp [Pool.advance, Pool.goto, Place.inUse, taskPool]
  | adjusting n => exact h.adjust hp
  | returned => exact h

theorem inv_step {s : Pool τ ℤ} (h : Inv s) {a : Act τ} (ha : a ≠ .stop) :
    Inv (s.step taskPool a) :=
  step_cases taskPool s ha (fun _ _ ↦ ⟨h.running, h.fits, h.low, h.high, h.live, h.used⟩)
    (fun _ _ _ hp ↦ h.advance hp)

theorem inv_init {num : ℕ} (most : ℕ) (h : 0 ≤ startNum taskPool num) :
    Inv (Pool.init taskPool num most : Pool τ ℤ) := by
  have hlt : max (startNum taskPool num) (int32 most) < 2 ^ 31 := max_lt (int32_lt _) (int32_lt _)
  refine ⟨rfl, hlt, le_refl _, le_max_left .., ?_, ?_⟩
  · simp [Pool.init, List.countP_replicate, Place.live, Int.toNat_of_nonneg h]
  · simp [Pool.init, List.countP_replicate, Place.inUse]

/-- The bounds hold in every state of every run in which the pool is not
stopped, exactly if the number of threads to start with is an `int` that is
not negative. -/
theorem bounds_iff (num most : ℕ) (acts : List (Act τ)) (h : Act.stop ∉ acts) :
    Throughout (Pool.step taskPool) Bounds (Pool.init taskPool num most) acts ↔
      0 ≤ startNum taskPool num := by
  constructor
  · intro hall
    have hlive : startNum taskPool num = _ := hall.first.live
    omega
  · intro hpos
    apply throughout_of_invariant (I := Inv) (C := fun _ a ↦ a ≠ .stop) (fun _ ↦ Inv.bounds)
      (fun _ _ hi ha ↦ inv_step hi ha) (inv_init most hpos)
    exact along_of_forall (fun a ha _ ↦ ne_of_mem_of_not_mem ha h) _

def serveOne (i : ℕ) : List (Act Unit) := List.replicate 6 (.next i)

theorem bounds_iff_instance :
    Throughout (Pool.step taskPool) Bounds (Pool.init taskPool 2 8) (addTasks 7 ++ serveOne 0) ∧
      (run (Pool.step taskPool) (Pool.init taskPool 2 8) (addTasks 7 ++ serveOne 0)).curNum = 6 := by
  refine ⟨(bounds_iff 2 8 _ ?_).mpr (by decide), by decide +kernel⟩
  simp [addTasks, serveOne]

/-- A pool asked for `2 ^ 31` threads starts none and counts a negative number. -/
theorem thread_count_negative :
    (Pool.init taskPool (2 ^ 31) 0 : Pool Unit ℤ).curNum = -2 ^ 31 ∧
      (Pool.init taskPool (2 ^ 31) 0 : Pool Unit ℤ).workers = [] ∧
      ¬ Bounds (Pool.init taskPool (2 ^ 31) 0 : Pool Unit ℤ) := by
  refine ⟨by decide, by decide, fun h ↦ ?_⟩
  exact absurd (h.usedNonneg.trans h.usedLe) (by decide)

end Calcsig.ThreadPool.TaskPool
