import Calcsig.ThreadPool.TaskPool

namespace Calcsig.ThreadPool.Resizing

open Foundation.Runs Foundation.Census Elastic TaskPool
open ObjectPool.Model (int32 int32_of_range)

variable {τ : Type}

def retires (s : Pool τ ℤ) (later taskNums : ℤ) : Bool :=
  shrinks { (if grows s.toCounts taskNums then s.spawn else s).toCounts with usedNum := later } taskNums

/-- One execution of the locked block of a worker. The lock does not cover
`used_num`, which may have become another number by the second test. -/
def block (s : Pool τ ℤ) (i : ℕ) (later taskNums : ℤ) : Pool τ ℤ :=
  let grown := if grows s.toCounts taskNums then s.spawn else s
  let next := if retires s later taskNums then .leave else .again
  { grown with usedNum := later }.settle i next

/-- The block creates a thread or takes off its own, not both, and it adds a
worker where the first test asks for one. -/
structure Consistent (s s' : Pool τ ℤ) (i : ℕ) (taskNums : ℤ) : Prop where
  exclusive : ¬ (s'.workers.length = s.workers.length + 1 ∧ s'.workers[i]? = some .returned)
  increases : s.curNum - s.usedNum ≤ taskNums → s.curNum < s.maxNum →
    s.workers.countP Place.live < s'.workers.countP Place.live

theorem block_usedNum {s : Pool τ ℤ} {i : ℕ} {taskNums : ℤ}
    (hp : s.workers[i]? = some (.adjusting taskNums)) :
    block s i s.usedNum taskNums = s.step taskPool (.next i) := by
  simp only [Pool.step, Pool.next, hp, advance_adjusting, block, retires]
  by_cases hg : grows s.toCounts taskNums = true
  · simp only [if_pos hg]
    rfl
  · simp only [if_neg hg]

section Block

variable {s : Pool τ ℤ} {i : ℕ} {later taskNums : ℤ}

theorem grows_iff (h : Inv s) :
    grows s.toCounts taskNums = true ↔ s.curNum - s.usedNum ≤ taskNums ∧ s.curNum < s.maxNum := by
  simp [grows, h.running]

theorem retires_iff (h : Inv s) (hg : grows s.toCounts taskNums = true) :
    retires s later taskNums = true ↔ taskNums ≤ s.curNum - later := by
  have hlt := ((grows_iff h).mp hg).2
  have hlow := h.low
  have hlive := h.live
  have hfits : s.maxNum < 2 ^ 31 := (le_max_right ..).trans_lt h.fits
  have hrange : int32 (s.curNum + 1) = s.curNum + 1 := int32_of_range (by omega) (by omega)
  simp only [retires, hg, if_true, shrinks, Pool.spawn, h.running, hrange, Bool.not_false,
    Bool.true_and, Bool.and_eq_true, decide_eq_true_eq]
  omega

theorem block_workers (s : Pool τ ℤ) (i : ℕ) (later taskNums : ℤ) :
    (block s i later taskNums).workers =
      (s.workers ++ if grows s.toCounts taskNums then [Place.loopTest] else []).set i
        (if retires s later taskNums then .returned else .loopTest) := by
  simp only [block, settle_workers]
  cases grows s.toCounts taskNums <;> cases retires s later taskNums <;>
    simp [Pool.spawn, Next.place]

theorem block_workers_grown (later : ℤ) (hg : grows s.toCounts taskNums = true)
    (hp : s.workers[i]? = some (.adjusting taskNums)) :
    let s' := block s i later taskNums
    s'.workers.length = s.workers.length + 1 ∧
      s'.workers[i]? = some (if retires s later taskNums then .returned else .loopTest) ∧
      s'.workers.countP Place.live =
        s.workers.countP Place.live + if retires s later taskNums then 0 else 1 := by
  intro s'
  have hp' := worker_append hp [Place.loopTest]
  have hi := (List.getElem?_eq_some_iff.mp hp').1
  have hcount := countP_set_add Place.live hp'
    (if retires s later taskNums then .returned else .loopTest)
  have hworkers : s'.workers = _ := block_workers s i later taskNums
  rw [hg, if_pos rfl] at hworkers
  rw [hworkers]
  refine ⟨by simp, List.getElem?_set_self hi, ?_⟩
  rw [List.countP_append] at hcount
  split at hcount <;> rename_i hr <;> simp [Place.live, hr] at hcount ⊢ <;> omega

theorem consistent_iff (h : Inv s) (hp : s.workers[i]? = some (.adjusting taskNums)) :
    Consistent s (block s i later taskNums) i taskNums ↔
      taskNums < s.curNum - s.usedNum ∨ s.curNum - later < taskNums ∨ s.maxNum ≤ s.curNum := by
  by_cases hg : grows s.toCounts taskNums = true
  · obtain ⟨hidle, hroom⟩ := (grows_iff h).mp hg
    obtain ⟨hlen, hplace, hlive⟩ := block_workers_grown later hg hp
    have hconsistent : Consistent s (block s i later taskNums) i taskNums ↔
        ¬ retires s later taskNums = true := by
      cases hr : retires s later taskNums with
      | true =>
        rw [hr, if_pos rfl] at hplace
        exact iff_of_false (fun hc ↦ hc.exclusive ⟨hlen, hplace⟩) (by simp)
      | false =>
        rw [hr, if_neg Bool.false_ne_true] at hplace hlive
        refine iff_of_true ⟨fun hboth ↦ ?_, fun _ _ ↦ by omega⟩ (by simp)
        simp [hplace] at hboth
    rw [hconsistent, retires_iff h hg]
    omega
  · have hno := mt (grows_iff h).mpr hg
    have hlen : (block s i later taskNums).workers.length = s.workers.length := by
      rw [block_workers, if_neg hg]
      simp
    refine iff_of_true ⟨?_, fun hidle hroom ↦ absurd ⟨hidle, hroom⟩ hno⟩ (by omega)
    rw [hlen]
    omega

end Block

section Reached

variable {num most : ℕ} {acts : List (Act τ)}

theorem workers_nil_step {s : Pool τ ℤ} (h : s.workers = []) (a : Act τ) :
    (s.step taskPool a).workers = [] := by
  cases a with
  | next i => simp [Pool.step, Pool.next, h]
  | taskAdd task =>
    simp only [Pool.step, Pool.taskAdd]
    split <;> exact h
  | push j =>
    simp only [Pool.step, Pool.push]
    split <;> exact h
  | stop => exact h

theorem inv_or_workers_nil (num most : ℕ) (h : Act.stop ∉ acts) :
    Inv (run (Pool.step taskPool) (Pool.init taskPool num most) acts) ∨
      (run (Pool.step taskPool) (Pool.init taskPool num most) acts).workers = [] := by
  by_cases hpos : 0 ≤ startNum taskPool num
  · have hrun : Along (Pool.step taskPool) (fun _ a ↦ a ≠ .stop)
        (Pool.init taskPool num most : Pool τ ℤ) acts :=
      along_of_forall (fun a ha _ ↦ ne_of_mem_of_not_mem ha h) _
    exact .inl (run_invariant (I := Inv) (fun _ _ hi ha ↦ inv_step hi ha) (inv_init most hpos) hrun)
  · refine .inr (run_keeps (I := fun s : Pool τ ℤ ↦ s.workers = []) (fun _ a hs ↦
      workers_nil_step hs a) ?_ acts)
    simp [Pool.init, Int.toNat_of_nonpos (by omega : startNum taskPool num ≤ 0)]

end Reached

/-- Whatever run without a stop has led to the block, it works against itself
exactly when it creates a thread and then sees no fewer idle workers than
tasks left. -/
theorem resize_consistent_iff (num most : ℕ) (acts : List (Act τ)) (hstop : Act.stop ∉ acts) (i : ℕ)
    (later taskNums : ℤ)
    (hp : (run (Pool.step taskPool) (Pool.init taskPool num most) acts).workers[i]? =
      some (.adjusting taskNums)) :
    let s := run (Pool.step taskPool) (Pool.init taskPool num most) acts
    block s i s.usedNum taskNums = s.step taskPool (.next i) ∧
      (Consistent s (block s i later taskNums) i taskNums ↔
        taskNums < s.curNum - s.usedNum ∨ s.curNum - later < taskNums ∨ s.maxNum ≤ s.curNum) := by
  intro s
  refine ⟨block_usedNum hp, ?_⟩
  rcases inv_or_workers_nil num most hstop with hinv | hnone
  · exact consistent_iff hinv hp
  · rw [hnone] at hp
    cases hp

section Sample

def firstOf (n : ℕ) : List (Act Unit) :=
  List.replicate n (.taskAdd ()) ++ List.replicate n (.push 0) ++ List.replicate 5 (.next 0)

theorem resize_consistent_iff_instance :
    let s := run (Pool.step taskPool) (Pool.init taskPool 5 8) (firstOf 7)
    s.workers[0]? = some (.adjusting 6) ∧ Consistent s (block s 0 0 6) 0 6 := by
  intro s
  have hp : s.workers[0]? = some (.adjusting 6) := rfl
  exact ⟨hp, ((resize_consistent_iff 5 8 (firstOf 7) (by simp [firstOf]) 0 0 6 hp).2).mpr
    (.inr (.inl (by decide)))⟩

/-- With as many tasks left as idle workers, a worker creates a thread and goes
away itself. -/
theorem resize_undone :
    let s := run (Pool.step taskPool) (Pool.init taskPool 5 8) (firstOf 6)
    let s' := s.step taskPool (.next 0)
    s.workers[0]? = some (.adjusting 5) ∧ s.curNum - s.usedNum = 5 ∧ s.curNum < s.maxNum ∧
      s'.workers.length = s.workers.length + 1 ∧ s'.workers[0]? = some .returned ∧
      s'.workers.countP Place.live = s.workers.countP Place.live ∧ ¬ Consistent s s' 0 5 := by
  intro s s'
  have hboth : s'.workers.length = s.workers.length + 1 ∧ s'.workers[0]? = some .returned :=
    ⟨rfl, rfl⟩
  exact ⟨rfl, rfl, by decide, hboth.1, hboth.2, rfl, fun h ↦ h.exclusive hboth⟩

end Sample

end Calcsig.ThreadPool.Resizing
