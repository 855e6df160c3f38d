import Calcsig.ThreadPool.FunctionPool
import Calcsig.ThreadPool.TaskPool

namespace Calcsig.ThreadPool.Draining

open Foundation.Runs Foundation.Census Elastic FunctionPool TaskPool
open ObjectPool.Model (int32_of_range)

variable {τ α : Type} (v : Variant α)

def Gone (s : Pool τ α) : Prop := ∀ p ∈ s.workers, p.live = false

/-- When all workers have returned and no call of `task_add` is in progress, no
task is left. -/
def Drained (s : Pool τ α) : Prop := Gone s → s.pending = [] → s.tasks = []

def exits (s : Pool τ α) : Place τ α → Bool
  | .loopTest => s.isStopped
  | .waiting => s.isStopped && s.tasks.isEmpty
  | .adjusting a =>
    match (v.adjust s.toCounts a).next with
    | .leave => true
    | _ => false
  | _ => false

def LastExit (s : Pool τ α) (i : ℕ) : Prop :=
  s.workers.countP Place.live = 1 ∧
    ∃ p, s.workers[i]? = some p ∧ exits v s p = true ∧ spawns v s p = false

def Serving (s : Pool τ α) : Act τ → Prop
  | .next i => LastExit v s i → s.pending = [] → s.tasks = []
  | .push j => j = 0 → s.pending.length = 1 → ¬ Gone s
  | _ => True

section Exits

variable {v} {s : Pool τ α} {i : ℕ} {p : Place τ α}

theorem gone_iff : Gone s ↔ s.workers.countP Place.live = 0 := by
  simp [Gone, List.countP_eq_zero]

theorem after_live (v : Variant α) (s : Pool τ α) (p : Place τ α) :
    (after v s p).live = (p.live && !exits v s p) := by
  cases p with
  | loopTest => cases h : s.isStopped <;> simp [after, exits, Place.live, h]
  | waiting => cases h : s.isStopped <;> cases ht : s.tasks <;> simp [after, exits, Place.live, h, ht]
  | adjusting a =>
    cases h : (v.adjust s.toCounts a).next <;> simp [after, exits, Place.live, Next.place, h]
  | _ => rfl

theorem live_of_exits (h : exits v s p = true) : p.live = true := by
  cases p <;> first | rfl | cases h

theorem live_of_spawns (h : spawns v s p = true) : p.live = true := by
  cases p <;> first | rfl | cases h

theorem countP_advance (hp : s.workers[i]? = some p) :
    (s.advance v i p).workers.countP Place.live + (exits v s p).toNat =
      s.workers.countP Place.live + (spawns v s p).toNat := by
  have hnew : (if spawns v s p then [Place.loopTest] else []).countP (Place.live (τ := τ) (α := α)) =
      (spawns v s p).toNat := by
    cases spawns v s p <;> rfl
  have hlive : p.live.toNat = (p.live && !exits v s p).toNat + (exits v s p).toNat := by
    cases h : exits v s p with
    | false => simp
    | true => simp [live_of_exits h]
  have hcount := countP_set_add Place.live
    (worker_append hp (if spawns v s p then [Place.loopTest] else [])) (after v s p)
  rw [← advance_workers v s hp, List.countP_append, hnew, after_live] at hcount
  omega

theorem gone_next_iff (v : Variant α) (s : Pool τ α) (i : ℕ) :
    Gone (s.next v i) ↔ Gone s ∨ LastExit v s i := by
  simp only [gone_iff, LastExit, Pool.next]
  cases hp : s.workers[i]? with
  | none => simp
  | some p =>
    have hcount := countP_advance (v := v) hp
    have hpos (h : p.live = true) : 0 < s.workers.countP Place.live :=
      List.countP_pos_iff.mpr ⟨p, List.mem_of_getElem? hp, h⟩
    simp only [Option.some.injEq, exists_eq_left']
    cases he : exits v s p with
    | true =>
      have hlive := hpos (live_of_exits he)
      cases hs : spawns v s p <;> simp only [he, hs, Bool.toNat_true, Bool.toNat_false,
        reduceCtorEq, and_true, and_false, or_false] at hcount ⊢ <;> omega
    | false =>
      simp only [he, Bool.toNat_false, reduceCtorEq, false_and, and_false, or_false] at hcount ⊢
      cases hs : spawns v s p with
      | true =>
        have hlive := hpos (live_of_spawns hs)
        rw [hs, Bool.toNat_true] at hcount
        omega
      | false =>
        rw [hs, Bool.toNat_false] at hcount
        omega

theorem next_of_gone (h : Gone s) (v : Variant α) (i : ℕ) : s.next v i = s := by
  unfold Pool.next
  cases hp : s.workers[i]? with
  | none => rfl
  | some p =>
    have hlive := h p (List.mem_of_getElem? hp)
    cases p <;> first | rfl | cases hlive

theorem next_pending (v : Variant α) (s : Pool τ α) (i : ℕ) :
    (s.next v i).pending = s.pending := by
  unfold Pool.next
  split
  · rfl
  · exact advance_pending ..

theorem tasks_of_waiting (h : exits v s .waiting = true) : s.tasks = [] := by
  simpa using (Bool.and_eq_true_iff.mp h).2

theorem LastExit.next_tasks (h : LastExit v s i) : (s.next v i).tasks = s.tasks := by
  obtain ⟨-, p, hp, hexit, -⟩ := h
  simp only [Pool.next, hp, advance_tasks]
  cases p with
  | waiting => rw [tasks_of_waiting hexit, List.tail_nil]
  | _ => rfl

end Exits

section Runs

variable {v} {s : Pool τ α}

theorem drained_next_iff (h : Drained s) (i : ℕ) :
    Drained (s.next v i) ↔ (LastExit v s i → s.pending = [] → s.tasks = []) := by
  constructor
  · intro hd hlast hpending
    have hgone := (gone_next_iff v s i).mpr (.inr hlast)
    exact hlast.next_tasks ▸ hd hgone ((next_pending v s i).trans hpending)
  · intro hserve hgone hpending
    rw [next_pending] at hpending
    rcases (gone_next_iff v s i).mp hgone with hgone | hlast
    · rw [next_of_gone hgone]
      exact h hgone hpending
    · exact hlast.next_tasks.trans (hserve hlast hpending)

theorem drained_push_iff (h : Drained s) (j : ℕ) :
    Drained (s.push j) ↔ (j = 0 → s.pending.length = 1 → ¬ Gone s) := by
  unfold Pool.push
  cases hj : s.pending[j]? with
  | none =>
    refine iff_of_true h fun hzero hlen _ ↦ ?_
    have := List.getElem?_eq_none_iff.mp hj
    omega
  | some task =>
    have hlt := (List.getElem?_eq_some_iff.mp hj).1
    have herase : s.pending.eraseIdx j = [] ↔ s.pending.length = 1 := by
      rw [List.eq_nil_iff_length_eq_zero, List.length_eraseIdx_of_lt hlt]
      omega
    constructor
    · intro hd _ hlen hgone
      simpa using hd hgone (herase.mpr hlen)
    · intro hserve hgone hpending
      have hlen := herase.mp hpending
      exact absurd hgone (hserve (by omega) hlen)

theorem drained_step_iff (h : Drained s) (a : Act τ) : Drained (s.step v a) ↔ Serving v s a := by
  cases a with
  | next i => exact drained_next_iff h i
  | push j => exact drained_push_iff h j
  | stop => exact iff_of_true h trivial
  | taskAdd task =>
    refine iff_of_true ?_ trivial
    simp only [Pool.step, Pool.taskAdd]
    split
    · exact h
    · intro _ hpending
      simp at hpending

end Runs

section Orderly

/-- After a stop the last worker does not return at the test of its loop with a
task in the queue, and the last call of `task_add` in progress finds a worker. -/
def Orderly (s : Pool τ α) : Act τ → Prop
  | .next i => s.isStopped = true → s.workers[i]? = some .loopTest →
      s.workers.countP Place.live = 1 → s.pending = [] → s.tasks = []
  | .push j => j = 0 → s.pending.length = 1 → ¬ Gone s
  | _ => True

def LastShrinks (s : Pool τ Adjusting) (i : ℕ) : Prop :=
  s.workers[i]? = some (.adjusting .lower) ∧ s.workers.countP Place.live = 1

def ShrinksOrderly (s : Pool τ Adjusting) : Act τ → Prop
  | .next i => LastShrinks s i → s.pending = [] → s.tasks = []
  | _ => True

theorem leaves_of_exits {v : Variant α} {s : Pool τ α} {a : α} (h : exits v s (.adjusting a) = true) :
    (v.adjust s.toCounts a).next = .leave := by
  cases hnext : (v.adjust s.toCounts a).next with
  | leave => rfl
  | _ => simp [exits, hnext] at h

section FunctionPool

variable {s : Pool τ Adjusting} {i : ℕ} {p : Place τ Adjusting}

theorem exits_functionPool (h : exits functionPool s p = true) :
    (p = .loopTest ∧ s.isStopped = true) ∨ p = .waiting ∨ p = .adjusting .lower := by
  cases p with
  | loopTest => exact .inl ⟨rfl, h⟩
  | waiting => exact .inr (.inl rfl)
  | adjusting a =>
    have hleave := leaves_of_exits h
    cases a with
    | lower => exact .inr (.inr rfl)
    | shrinkStopped n =>
      simp only [functionPool] at hleave
      split at hleave <;> cases hleave
    | shrinkCur =>
      simp only [functionPool] at hleave
      split at hleave <;> cases hleave
    | _ => cases hleave
  | _ => cases h

theorem serving_functionPool_iff (s : Pool τ Adjusting) (a : Act τ) :
    Serving functionPool s a ↔ Orderly s a ∧ ShrinksOrderly s a := by
  cases a with
  | next i =>
    constructor
    · intro h
      refine ⟨fun hstop hp hlast ↦ h ⟨hlast, _, hp, hstop, rfl⟩, fun hlast ↦ ?_⟩
      exact h ⟨hlast.2, _, hlast.1, rfl, rfl⟩
    · rintro ⟨hloop, hshrink⟩ ⟨hlast, p, hp, hexit, -⟩ hpending
      rcases exits_functionPool hexit with ⟨rfl, hstop⟩ | rfl | rfl
      · exact hloop hstop hp hlast hpending
      · exact tasks_of_waiting hexit
      · exact hshrink ⟨hp, hlast⟩ hpending
  | _ => exact (and_iff_left trivial).symm

theorem exits_running (hstop : s.isStopped = false) (h : exits functionPool s p = true) :
    p = .adjusting .lower := by
  rcases exits_functionPool h with ⟨-, hyes⟩ | rfl | rfl
  · rw [hstop] at hyes
    cases hyes
  · simp [exits, hstop] at h
  · rfl

/-- While the pool is not stopped, `cur_num` is the number of its workers. -/
structure Counted (s : Pool τ Adjusting) : Prop where
  inv : FunctionPool.Inv s
  tested : Tested s
  running : s.isStopped = false
  live : s.workers ≠ [] → s.curNum = s.workers.countP Place.live

theorem curAfter_live (h : Counted s) (hp : s.workers[i]? = some p) :
    curAfter s p = s.curNum + (spawns functionPool s p).toNat - (exits functionPool s p).toNat := by
  obtain ⟨hlow, hhigh⟩ := h.inv.bounds
  have hfits := h.inv.fits
  have hmem := List.mem_of_getElem? hp
  have hpos := h.inv.pos (List.ne_nil_of_mem hmem)
  have hexit (hne : p ≠ .adjusting .lower) : exits functionPool s p = false := by
    cases he : exits functionPool s p with
    | false => rfl
    | true => exact (hne (exits_running h.running he)).elim
  have hsame (hw : inWindow p = false) (hspawn : spawns functionPool s p = false) :
      curAfter s p = s.curNum + (spawns functionPool s p).toNat - (exits functionPool s p).toNat := by
    rw [curAfter_of_outside hw, hspawn, hexit (by rintro rfl; cases hw)]
    simp
  cases p with
  | adjusting a =>
    cases a with
    | spawn n =>
      have hlt : s.curNum < s.maxNum := h.tested _ hmem
      rw [curAfter, int32_of_range (by omega) (by omega), hexit (by simp)]
      simp [spawns, functionPool]
    | lower =>
      rw [curAfter, int32_of_range (by omega) (by omega)]
      simp [spawns, exits, functionPool]
    | _ => exact hsame rfl rfl
  | _ => exact hsame rfl rfl

theorem Counted.step (h : Counted s) {a : Act τ} (ha : a ≠ .stop) (hc : Exclusive s a) :
    Counted (s.step functionPool a) := by
  refine ⟨FunctionPool.inv_step h.inv (fresh_of_tested h.tested a), tested_step h.tested hc, ?_, ?_⟩
  · exact step_cases (P := fun t ↦ t.isStopped = false) functionPool s ha (fun _ _ ↦ h.running)
      (fun _ _ _ _ ↦ (advance_isStopped ..).trans h.running)
  · refine step_cases (P := fun t ↦ t.workers ≠ [] → t.curNum = t.workers.countP Place.live)
      functionPool s ha (fun _ _ ↦ h.live) fun i p _ hp _ ↦ ?_
    have hcount := countP_advance (v := functionPool) hp
    have hlive := h.live (List.ne_nil_of_mem (List.mem_of_getElem? hp))
    rw [advance_curNum, curAfter_live h hp]
    omega

theorem Counted.not_lastShrinks (h : Counted s) (i : ℕ) : ¬ LastShrinks s i := by
  rintro ⟨hp, hlast⟩
  have hmem := List.mem_of_getElem? hp
  have hlt : s.initNum < s.curNum := h.tested _ hmem
  have hpos := h.inv.pos (List.ne_nil_of_mem hmem)
  have hlive := h.live (List.ne_nil_of_mem hmem)
  omega

theorem counted_init (num most : ℕ) : Counted (Pool.init functionPool num most : Pool τ Adjusting) := by
  refine ⟨FunctionPool.inv_init num most, tested_init num most, rfl, fun hne ↦ ?_⟩
  have hpos : 0 < startNum functionPool num := (FunctionPool.inv_init num most).pos hne
  simp [Pool.init, List.countP_replicate, Place.live, Int.toNat_of_nonneg hpos.le]

end FunctionPool

section TaskPool

variable {s : Pool τ ℤ} {i : ℕ}

/-- The pool is stopped, or it has no workers at all, or it counts them right. -/
def Manned (s : Pool τ ℤ) : Prop :=
  s.isStopped = true ∨ s.workers = [] ∨ (TaskPool.Inv s ∧ 0 < s.initNum)

theorem exits_taskPool {p : Place τ ℤ} (h : exits taskPool s p = true) :
    (p = .loopTest ∧ s.isStopped = true) ∨ p = .waiting ∨ ∃ n, p = .adjusting n := by
  cases p with
  | loopTest => exact .inl ⟨rfl, h⟩
  | waiting => exact .inr (.inl rfl)
  | adjusting n => exact .inr (.inr ⟨n, rfl⟩)
  | _ => cases h

/-- The locked block takes the worker off only while there are more than to start
with, so that it is never the last one. -/
theorem Manned.not_last_shrinks (h : Manned s) {n : ℤ} (hp : s.workers[i]? = some (.adjusting n))
    (hexit : exits taskPool s (.adjusting n) = true) (hspawn : spawns taskPool s (.adjusting n) = false) :
    s.workers.countP Place.live ≠ 1 := by
  have hgrows : grows s.toCounts n = false := hspawn
  have hshrinks : shrinks s.toCounts n = true := by
    have hleave := leaves_of_exits hexit
    simp only [taskPool, hgrows] at hleave
    cases hs : shrinks s.toCounts n with
    | true => rfl
    | false => simp [hs] at hleave
  simp only [shrinks, Bool.and_eq_true, Bool.not_eq_true', decide_eq_true_eq] at hshrinks
  obtain ⟨⟨hrunning, -⟩, hlt⟩ := hshrinks
  rcases h with hstop | hnone | ⟨hinv, hpos⟩
  · rw [hstop] at hrunning
    cases hrunning
  · rw [hnone] at hp
    cases hp
  · have hlive := hinv.live
    omega

theorem serving_taskPool_iff (h : Manned s) (a : Act τ) : Serving taskPool s a ↔ Orderly s a := by
  cases a with
  | next i =>
    constructor
    · intro hserve hstop hp hlast
      exact hserve ⟨hlast, _, hp, hstop, rfl⟩
    · rintro hloop ⟨hlast, p, hp, hexit, hspawn⟩ hpending
      rcases exits_taskPool hexit with ⟨rfl, hstop⟩ | rfl | ⟨n, rfl⟩
      · exact hloop hstop hp hlast hpending
      · exact tasks_of_waiting hexit
      · exact (h.not_last_shrinks hp hexit hspawn hlast).elim
  | _ => exact Iff.rfl

theorem Manned.step (h : Manned s) (a : Act τ) : Manned (s.step taskPool a) := by
  by_cases ha : a = .stop
  · subst ha
    exact .inl rfl
  · refine step_cases taskPool s ha (fun _ _ ↦ ?_) fun i p _ hp ↦ ?_
    · refine h.imp_right (Or.imp_right fun ⟨hinv, hpos⟩ ↦ ⟨?_, hpos⟩)
      exact ⟨hinv.running, hinv.fits, hinv.low, hinv.high, hinv.live, hinv.used⟩
    · rcases h with hstop | hnone | ⟨hinv, hpos⟩
      · exact .inl ((advance_isStopped ..).trans hstop)
      · rw [hnone] at hp
        cases hp
      · exact .inr (.inr ⟨hinv.advance hp, (advance_initNum ..).symm ▸ hpos⟩)

theorem manned_init (num most : ℕ) : Manned (Pool.init taskPool num most : Pool τ ℤ) := by
  by_cases hpos : 0 < startNum taskPool num
  · exact .inr (.inr ⟨TaskPool.inv_init most hpos.le, hpos⟩)
  · refine .inr (.inl ?_)
    have hzero : (startNum taskPool num).toNat = 0 := Int.toNat_of_nonpos (not_lt.mp hpos)
    simp only [Pool.init, hzero, List.replicate_zero]

end TaskPool

end Orderly

section Runs

variable (num most : ℕ) (acts : List (Act τ))

theorem taskPool_drained_iff :
    Throughout (Pool.step taskPool) Drained (Pool.init taskPool num most) acts ↔
      Along (Pool.step taskPool) Orderly (Pool.init taskPool num most) acts := by
  have hstep {s : Pool τ ℤ} (a : Act τ) (h : Drained s ∧ Manned s) :
      Drained (s.step taskPool a) ↔ Orderly s a :=
    (drained_step_iff h.1 a).trans (serving_taskPool_iff h.2 a)
  apply throughout_iff_along (D := fun s ↦ Drained s ∧ Manned s) (fun _ h ↦ h.1)
    (fun _ a h hc ↦ ⟨(hstep a h).mpr hc, h.2.step a⟩) (fun _ a h ↦ mt (hstep a h).mp)
  exact ⟨fun _ _ ↦ rfl, manned_init num most⟩

theorem functionPool_drained_iff :
    Throughout (Pool.step functionPool) Drained (Pool.init functionPool num most) acts ↔
      Along (Pool.step functionPool) (fun s a ↦ Orderly s a ∧ ShrinksOrderly s a)
        (Pool.init functionPool num most) acts := by
  have hstep {s : Pool τ Adjusting} (a : Act τ) (h : Drained s) :
      Drained (s.step functionPool a) ↔ Orderly s a ∧ ShrinksOrderly s a :=
    (drained_step_iff h a).trans (serving_functionPool_iff s a)
  exact throughout_iff_along (D := Drained) (fun _ h ↦ h) (fun _ a h ↦ (hstep a h).mpr)
    (fun _ a h ↦ mt (hstep a h).mp) (fun _ _ ↦ rfl) acts

theorem never_lastShrinks (hstop : Act.stop ∉ acts)
    (h : Along (Pool.step functionPool) Exclusive (Pool.init functionPool num most) acts) :
    Along (Pool.step functionPool) (fun s a ↦ ∀ i, a = .next i → ¬ LastShrinks s i)
      (Pool.init functionPool num most) acts := by
  have hrunning : Along (Pool.step functionPool) (fun _ a ↦ a ≠ .stop)
      (Pool.init functionPool num most) acts :=
    along_of_forall (fun a ha _ ↦ ne_of_mem_of_not_mem ha hstop) _
  exact along_of_invariant (I := Counted) (fun _ _ hc ha _ ↦ hc.step ha.1 ha.2)
    (fun _ _ hc _ i _ ↦ hc.not_lastShrinks i) (counted_init num most) (hrunning.and h)

end Runs

section Accounting

def accepts (s : Pool τ α) : Act τ → List τ
  | .taskAdd task => if s.isStopped then [] else [task]
  | _ => []

def runs : Place τ α → List τ
  | .running task _ => [task]
  | _ => []

def executes (s : Pool τ α) : Act τ → List τ
  | .next i => s.workers[i]?.toList.flatMap runs
  | _ => []

def held : Place τ α → List τ
  | .taken task _ | .running task _ => [task]
  | _ => []

def inside (s : Pool τ α) : List τ := s.workers.flatMap held ++ s.tasks ++ s.pending

variable {v} {s : Pool τ α} {i : ℕ} {p : Place τ α}

theorem held_after (v : Variant α) (s : Pool τ α) (p : Place τ α) :
    (held p ++ s.tasks).Perm (runs p ++ held (after v s p) ++ (s.advance v i p).tasks) := by
  rw [advance_tasks]
  cases p with
  | loopTest => cases h : s.isStopped <;> simp [held, runs, after, h]
  | waiting =>
    cases ht : s.tasks with
    | nil => cases h : s.isStopped <;> simp [held, runs, after, h, ht]
    | cons task rest => simp [held, runs, after, ht]
  | adjusting a =>
    cases h : (v.adjust s.toCounts a).next <;> simp [held, runs, after, Next.place, h]
  | _ => simp [held, runs, after]

theorem inside_advance (hp : s.workers[i]? = some p) :
    (inside s).Perm (runs p ++ inside (s.advance v i p)) := by
  classical
  have hnew : (if spawns v s p then [Place.loopTest] else []).flatMap (held (τ := τ) (α := α)) = [] := by
    cases spawns v s p <;> rfl
  rw [List.perm_iff_count]
  intro x
  have hworkers := count_flatMap_set_add held
    (worker_append hp (if spawns v s p then [Place.loopTest] else [])) (after v s p) x
  have hplace := (held_after (i := i) v s p).count_eq x
  rw [← advance_workers v s hp, List.flatMap_append, hnew, List.append_nil] at hworkers
  simp only [inside, List.count_append, advance_pending] at hplace ⊢
  omega

theorem inside_step (v : Variant α) (s : Pool τ α) (a : Act τ) :
    (inside s ++ accepts s a).Perm (executes s a ++ inside (s.step v a)) := by
  cases a with
  | stop => simp [accepts, executes, Pool.step, inside]
  | taskAdd task =>
    cases h : s.isStopped <;> simp [accepts, executes, Pool.step, Pool.taskAdd, inside, h]
  | next i =>
    simp only [accepts, executes, Pool.step, Pool.next, List.append_nil]
    cases hp : s.workers[i]? with
    | none => simp
    | some p => simpa using inside_advance (v := v) hp
  | push j =>
    simp only [accepts, executes, Pool.step, Pool.push, List.append_nil, List.nil_append]
    cases hj : s.pending[j]? with
    | none => exact .refl _
    | some task =>
      obtain ⟨hlt, rfl⟩ := List.getElem?_eq_some_iff.mp hj
      have hperm := (List.getElem_cons_eraseIdx_perm hlt).symm.append_left
        (s.workers.flatMap held ++ s.tasks)
      simpa [inside] using hperm

variable (v) (num most : ℕ) (acts : List (Act τ))

def accepted : List τ := trace (Pool.step v) accepts (Pool.init v num most) acts

def executed : List τ := trace (Pool.step v) executes (Pool.init v num most) acts

theorem inside_of_gone (h : Gone s) (hpending : s.pending = []) : inside s = s.tasks := by
  have hheld : s.workers.flatMap held = [] := by
    rw [List.flatMap_eq_nil_iff]
    intro p hp
    have hlive := h p hp
    cases p <;> first | rfl | cases hlive
  simp [inside, hheld, hpending]

theorem accepted_perm :
    (accepted v num most acts).Perm
      (executed v num most acts ++ inside (run (Pool.step v) (Pool.init v num most) acts)) := by
  have hperm := trace_perm inside (inside_step v) (Pool.init v num most) acts
  have hempty : inside (Pool.init v num most : Pool τ α) = [] := by
    simp [inside, Pool.init, held]
  rwa [hempty, List.nil_append] at hperm

theorem tasks_eq_nil_iff (hgone : Gone (run (Pool.step v) (Pool.init v num most) acts))
    (hpending : (run (Pool.step v) (Pool.init v num most) acts).pending = []) :
    (run (Pool.step v) (Pool.init v num most) acts).tasks = [] ↔
      (accepted v num most acts).Perm (executed v num most acts) := by
  have hperm := accepted_perm v num most acts
  rw [inside_of_gone hgone hpending] at hperm
  constructor
  · intro htasks
    rwa [htasks, List.append_nil] at hperm
  · intro hall
    have hlen := (hall.symm.trans hperm).length_eq
    rw [List.length_append] at hlen
    exact List.length_eq_zero_iff.mp (by omega)

/-- When all is over and no task is left, each accepted one was run exactly once. -/
def RunsOnce : Prop :=
  Gone (run (Pool.step v) (Pool.init v num most) acts) →
    (run (Pool.step v) (Pool.init v num most) acts).pending = [] →
    ((run (Pool.step v) (Pool.init v num most) acts).tasks = [] ↔
      (accepted v num most acts).Perm (executed v num most acts))

end Accounting

/-- The pool of `threadpooltask.hpp` drains exactly if after a stop the last worker
does not return at the test of its loop with a task in the queue and no task is
pushed behind it; the locked block never takes the last worker off. In the pool of
`threadpool.hpp` it may take itself off as well, but not before a stop unless two
workers are between their tests and updates at once. -/
theorem pools_drain_iff (num most : ℕ) (acts : List (Act τ)) :
    (Throughout (Pool.step taskPool) Drained (Pool.init taskPool num most) acts ↔
      Along (Pool.step taskPool) Orderly (Pool.init taskPool num most) acts) ∧
    (Throughout (Pool.step functionPool) Drained (Pool.init functionPool num most) acts ↔
      Along (Pool.step functionPool) (fun s a ↦ Orderly s a ∧ ShrinksOrderly s a)
        (Pool.init functionPool num most) acts) ∧
    (Act.stop ∉ acts →
      Along (Pool.step functionPool) Exclusive (Pool.init functionPool num most) acts →
      Along (Pool.step functionPool) (fun s a ↦ ∀ i, a = .next i → ¬ LastShrinks s i)
        (Pool.init functionPool num most) acts) ∧
    RunsOnce taskPool num most acts ∧ RunsOnce functionPool num most acts :=
  ⟨taskPool_drained_iff num most acts, functionPool_drained_iff num most acts,
    never_lastShrinks num most acts, tasks_eq_nil_iff taskPool num most acts,
    tasks_eq_nil_iff functionPool num most acts⟩

instance (s : Pool τ α) : Decidable (Gone s) :=
  inferInstanceAs (Decidable (∀ p ∈ s.workers, p.live = false))

def stopBeforeRunning (v : Variant α) : Pool Unit α :=
  run (Pool.step v) (Pool.init v 0 0)
    ([.taskAdd (), .push 0, .stop] ++ (List.range v.least).map .next)

theorem accepted_task_left :
    (Gone (stopBeforeRunning functionPool) ∧ (stopBeforeRunning functionPool).pending = [] ∧
      (stopBeforeRunning functionPool).tasks = [()]) ∧
    (Gone (stopBeforeRunning taskPool) ∧ (stopBeforeRunning taskPool).pending = [] ∧
      (stopBeforeRunning taskPool).tasks = [()]) := by
  decide +kernel

end Calcsig.ThreadPool.Draining
