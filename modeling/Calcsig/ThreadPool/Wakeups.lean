import Calcsig.Foundation.Census
import Calcsig.ThreadPool.Discipline

namespace Calcsig.ThreadPool.Wakeups

open Foundation.Runs Foundation.Census Model Discipline

variable {ι τ : Type}

/-- Inside the mutex, with a task still to be taken or to be announced. -/
@[simp] def onDuty : Place τ → Bool
  | .getStopped | .getEmpty | .getCheck | .getFront | .addSignal => true
  | _ => false

theorem locked_of_onDuty {p : Place τ} (h : onDuty p = true) : p.locked = true := by
  cases p <;> first | rfl | cases h

/-- The threads that a queued task can count on. -/
def counts (p : Place τ) : Bool := p.isSignalled || onDuty p

def Covered [Fintype ι] (s : Pool ι τ) : Prop :=
  s.isStopped = false → (∃ w, s.place w = .asleep) → s.taskQueue.length ≤ census counts s.place

variable [DecidableEq ι] [Fintype ι] {s s' : Pool ι τ} {b : Bool} {i w : ι}

theorem census_goto (s : Pool ι τ) (i : ι) (p : Place τ) :
    census counts (s.goto i p).place + (counts (s.place i)).toNat =
      census counts s.place + (counts p).toNat :=
  census_update counts s.place i p

/-- A thread that goes on without falling asleep keeps the balance when its own
weight makes up for what it does to the queue. -/
theorem covered_goto {q p : Place τ} (hc : Covered s) (hi : s.place i = q)
    (hplace : s'.place = (s.goto i p).place) (hstop : s'.isStopped = s.isStopped)
    (hp : p.isAsleep = false)
    (hle : s'.taskQueue.length + (counts q).toNat ≤ s.taskQueue.length + (counts p).toNat) :
    Covered s' := by
  rintro hrun ⟨w, hw⟩
  rw [hplace] at hw ⊢
  have hold : s.place w = .asleep := by
    by_cases hwi : w = i
    · grind
    · simpa [hwi] using hw
  have hlen := hc (hstop ▸ hrun) ⟨w, hold⟩
  have hcensus := census_goto s i p
  rw [hi] at hcensus
  omega

theorem covered_signal (hc : Covered s) (hi : s.place i = .addSignal) (hw : s.place w = .asleep) :
    Covered ((s.goto w .signalled).goto i .addUnlock) := by
  rintro hrun -
  have hne : i ≠ w := ne_of_apply_ne s.place (by simp [hi, hw])
  have hlen := hc hrun ⟨w, hw⟩
  have hfirst := census_goto s w .signalled
  have hsecond := census_goto (s.goto w .signalled) i .addUnlock
  simp [hw, hi, hne, counts] at hfirst hsecond ⊢
  omega

omit [DecidableEq ι] in
theorem covered_of_nil (h : s.taskQueue = []) : Covered s := by
  intro _ _
  simp [h]

theorem covered_move (h : Inv s) (hc : Covered s) (hm : Move s b s') : Covered s' := by
  cases hm with
  | free i hi hf => cases hf <;> exact covered_goto hc hi rfl rfl rfl (by simp [counts])
  | lock i hi hl hfree => cases hl <;> exact covered_goto hc hi rfl rfl rfl (by simp [counts])
  | inside i hi hin =>
    cases hin with
    | empty hq => exact covered_of_nil hq
    | _ => exact covered_goto hc hi rfl rfl rfl (by simp [counts])
  | leak i hi hs =>
    intro hrun
    simp [hs] at hrun
  | pop i task rest hi hq => exact covered_goto hc hi rfl rfl rfl (by simp [hq, counts])
  | push i task hi => exact covered_goto hc hi rfl rfl rfl (by simp [counts])
  | unheard i hi hno =>
    rintro - ⟨w, hw⟩
    have hawake := hno w
    grind
  | signal i w hi hw => exact covered_signal hc hi hw
  | unlock i hi hu =>
    cases hu with
    | getWait =>
      have hq := h.knows i
      rw [hi] at hq
      exact covered_of_nil hq
    | _ => exact covered_goto hc hi rfl rfl rfl (by simp [counts])
  | wake w hw => exact covered_goto hc hw rfl rfl rfl (by simp [counts])
  | stop => exact nofun

theorem covered_run (acts : List (Act ι τ)) : Covered (run Pool.step Pool.init acts) := by
  have hkept : Inv (run Pool.step Pool.init acts) ∧ Covered (run Pool.step Pool.init acts) := by
    apply run_keeps (I := fun s ↦ Inv s ∧ Covered s) _ ⟨inv_init, covered_of_nil rfl⟩
    rintro s a ⟨h, hc⟩
    refine ⟨inv_step a h, ?_⟩
    rcases step_cases s a with he | hm
    · rwa [he]
    · exact covered_move h hc hm
  exact hkept.2

omit [DecidableEq ι] in
theorem census_counts (f : ι → Place τ) :
    census counts f = census Place.isSignalled f + census onDuty f := by
  apply census_or
  intro p hp
  cases p <;> first | rfl | cases hp

/-- While the pool runs and a worker sleeps, every queued task has a signalled
worker on its way back, but for one task that the holder of the mutex is about
to take or to announce. -/
theorem no_lost_wakeup (acts : List (Act ι τ))
    (hrun : (run Pool.step Pool.init acts).isStopped = false)
    (hasleep : ∃ w, (run Pool.step Pool.init acts).place w = .asleep) :
    ((run Pool.step Pool.init acts).mutex = none →
      (run Pool.step Pool.init acts).taskQueue.length ≤
        census Place.isSignalled (run Pool.step Pool.init acts).place) ∧
    ∀ i, (run Pool.step Pool.init acts).mutex = some i →
      (run Pool.step Pool.init acts).taskQueue.length ≤
        census Place.isSignalled (run Pool.step Pool.init acts).place +
          (onDuty ((run Pool.step Pool.init acts).place i)).toNat := by
  have h := inv_run acts
  have hlen := covered_run acts hrun hasleep
  rw [census_counts] at hlen
  have hduty {j : ι} (hj : (run Pool.step Pool.init acts).mutex ≠ some j) :
      onDuty ((run Pool.step Pool.init acts).place j) = false := by
    rw [Bool.eq_false_iff]
    exact fun hd ↦ hj (h.holds j (locked_of_onDuty hd))
  constructor
  · intro hfree
    rwa [census_eq_zero fun j ↦ hduty (by simp [hfree])] at hlen
  · intro i hi
    rwa [census_eq_of_alone fun j hj ↦ hduty (by simpa [hi] using hj.symm)] at hlen

/-- A worker sleeps, and a task is queued whose signal is still to come. -/
def queueBeforeSignal : List (Act Bool ℕ) :=
  [.getTask true, .next true, .next true, .next true, .next true,
    .addTask false 7, .next false, .next false, .next false]

theorem no_lost_wakeup_instance :
    (run Pool.step Pool.init queueBeforeSignal).taskQueue.length ≤
      census Place.isSignalled (run Pool.step Pool.init queueBeforeSignal).place + 1 :=
  (no_lost_wakeup queueBeforeSignal rfl ⟨true, rfl⟩).2 false rfl

theorem queued_before_signalled :
    (run Pool.step Pool.init queueBeforeSignal).isStopped = false ∧
    (run Pool.step Pool.init queueBeforeSignal).place true = .asleep ∧
    (run Pool.step Pool.init queueBeforeSignal).taskQueue.length = 1 ∧
    census Place.isSignalled (run Pool.step Pool.init queueBeforeSignal).place = 0 :=
  ⟨rfl, rfl, rfl, rfl⟩

end Calcsig.ThreadPool.Wakeups
