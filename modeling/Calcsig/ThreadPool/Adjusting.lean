import Calcsig.Foundation.Runs
import Mathlib.Algebra.Order.Ring.Int

namespace Calcsig.ThreadPool.Adjusting

open Foundation.Runs

/-- The members of `threadpool_98` that decide on its threads, with the number
of threads in `thread_loop` and whether `start` has been called. -/
structure Pool (τ : Type) where
  minThread : ℤ
  maxThread : ℤ
  curThread : ℤ
  maxQueue : ℕ
  isStopped : Bool
  taskQueue : List τ
  threads : ℕ
  started : Bool

inductive Call (τ : Type)
  | start
  | addTask (task : τ)
  | getTask
  | adjustThread

variable {τ : Type}

namespace Pool

/-- The constructor. The queue bound is stored as an `unsigned int`. -/
def ofArgs (least most maxQ : ℤ) : Pool τ where
  minThread := if 1 < least then least else 1
  maxThread := if 1 < most then most else 1
  curThread := if 1 < least then least else 1
  maxQueue := (maxQ % 2 ^ 32).toNat
  isStopped := false
  taskQueue := []
  threads := 0
  started := false

def start (s : Pool τ) : Pool τ :=
  { s with threads := s.threads + s.minThread.toNat, started := true }

/-- `add_task` throws on a stopped pool. -/
def addTask (s : Pool τ) (task : τ) : Pool τ :=
  if s.isStopped then s else { s with taskQueue := s.taskQueue ++ [task] }

/-- `get_task` waits while there is no task, and returns none from a stopped pool. -/
def getTask (s : Pool τ) : Pool τ :=
  if s.isStopped then s else { s with taskQueue := s.taskQueue.tail }

def isFull (s : Pool τ) : Bool := s.maxQueue ≤ s.taskQueue.length

def mayGrow (s : Pool τ) : Bool := !s.isStopped && s.isFull && decide (s.curThread < s.maxThread)

def grow : ℕ → Pool τ → Pool τ
  | 0, s => s
  | n + 1, s =>
    if s.mayGrow then grow n { s with curThread := s.curThread + 1, threads := s.threads + 1 } else s

/-- The condition under which the counter goes down. `task_size` is an `int` and
is compared with an `unsigned int`. -/
def mayLower (s : Pool τ) : Bool :=
  !s.isStopped && decide (s.taskQueue.length % 2 ^ 32 < s.maxQueue / 2) &&
    decide (s.minThread < s.curThread)

def lower (s : Pool τ) : Pool τ :=
  if s.mayLower then { s with curThread := s.curThread - 1 } else s

def adjustThread (s : Pool τ) : Pool τ := (s.grow (s.maxThread - s.curThread).toNat).lower

def step (s : Pool τ) : Call τ → Pool τ
  | .start => s.start
  | .addTask task => s.addTask task
  | .getTask => s.getTask
  | .adjustThread => s.adjustThread

end Pool

open Pool

theorem mayGrow_iff {s : Pool τ} :
    s.mayGrow = true ↔ s.isStopped = false ∧ s.isFull = true ∧ s.curThread < s.maxThread := by
  simp [mayGrow, and_assoc]

theorem grow_eq {s : Pool τ} (hrun : s.isStopped = false) (hfull : s.isFull = true) (n : ℕ)
    (hn : s.curThread + n = s.maxThread) :
    s.grow n = { s with curThread := s.maxThread, threads := s.threads + n } := by
  induction n generalizing s with
  | zero =>
    cases s
    simpa [grow] using hn
  | succ n ih =>
    have hgrow : s.mayGrow = true := mayGrow_iff.mpr ⟨hrun, hfull, by omega⟩
    have hnext : s.curThread + 1 + n = s.maxThread := by push_cast at hn; omega
    rw [grow, if_pos hgrow]
    rw [ih (s := { s with curThread := s.curThread + 1, threads := s.threads + 1 }) hrun hfull hnext]
    simp only [Nat.add_assoc, Nat.add_comm 1]

theorem grow_of_not {s : Pool τ} (h : s.mayGrow = false) (n : ℕ) : s.grow n = s := by
  cases n with
  | zero => rfl
  | succ n => simp [grow, h]

theorem grown_cases (s : Pool τ) :
    (s.mayGrow = true ∧ s.grow (s.maxThread - s.curThread).toNat =
      { s with curThread := s.maxThread,
               threads := s.threads + (s.maxThread - s.curThread).toNat }) ∨
    (s.mayGrow = false ∧ s.grow (s.maxThread - s.curThread).toNat = s) := by
  cases h : s.mayGrow with
  | false => exact .inr ⟨rfl, grow_of_not h _⟩
  | true =>
    obtain ⟨hrun, hfull, hlt⟩ := mayGrow_iff.mp h
    exact .inl ⟨rfl, grow_eq hrun hfull _ (by omega)⟩

/-- The threads there are, counting those that `start` has still to create. -/
def owed (s : Pool τ) : ℤ := s.threads + if s.started then 0 else s.minThread

def Bounded (s : Pool τ) : Prop := s.threads ≤ max s.minThread s.maxThread

def StartsOnce (s : Pool τ) : Call τ → Prop
  | .start => s.started = false
  | _ => True

/-- Threads are only created while the counter is the number of threads. -/
def Tracked (s : Pool τ) : Call τ → Prop
  | .adjustThread => s.mayGrow = true → s.curThread = owed s
  | _ => True

instance (s : Pool τ) : Decidable (Bounded s) :=
  inferInstanceAs (Decidable ((s.threads : ℤ) ≤ max s.minThread s.maxThread))

instance (s : Pool τ) : (c : Call τ) → Decidable (StartsOnce s c)
  | .start => inferInstanceAs (Decidable (s.started = false))
  | .addTask _ | .getTask | .adjustThread => inferInstanceAs (Decidable True)

instance (s : Pool τ) : (c : Call τ) → Decidable (Tracked s c)
  | .adjustThread => inferInstanceAs (Decidable (s.mayGrow = true → s.curThread = owed s))
  | .start | .addTask _ | .getTask => inferInstanceAs (Decidable True)

structure Inv (s : Pool τ) : Prop where
  pos : 0 ≤ s.minThread
  low : s.minThread ≤ s.curThread
  covers : s.curThread ≤ owed s
  bound : owed s ≤ max s.minThread s.maxThread

theorem inv_ofArgs (least most maxQ : ℤ) : Inv (ofArgs least most maxQ : Pool τ) := by
  have hpos : (0 : ℤ) ≤ if 1 < least then least else 1 := by split <;> omega
  refine ⟨hpos, le_refl _, ?_, ?_⟩ <;> simp [owed, ofArgs]

theorem Inv.bounded {s : Pool τ} (h : Inv s) : Bounded s := by
  have hle : (s.threads : ℤ) ≤ owed s := by
    unfold owed
    have := h.pos
    split <;> omega
  exact hle.trans h.bound

theorem Inv.start {s : Pool τ} (h : Inv s) (hs : s.started = false) : Inv s.start := by
  have howed : owed s.start = owed s := by
    simp [owed, Pool.start, hs, Int.toNat_of_nonneg h.pos]
  exact ⟨h.pos, h.low, howed ▸ h.covers, howed ▸ h.bound⟩

theorem Inv.lower {s : Pool τ} (h : Inv s) : Inv s.lower := by
  unfold Pool.lower
  split
  · rename_i hl
    have hlt : s.minThread < s.curThread := by simpa using (Bool.and_eq_true_iff.mp hl).2
    have hcovers : s.curThread - 1 ≤ owed s := by have := h.covers; omega
    exact ⟨h.pos, by simp only; omega, hcovers, h.bound⟩
  · exact h

theorem owed_grown (s : Pool τ) (h : s.mayGrow = true) :
    owed { s with curThread := s.maxThread,
                  threads := s.threads + (s.maxThread - s.curThread).toNat } =
      owed s + (s.maxThread - s.curThread) := by
  have hlt := (mayGrow_iff.mp h).2.2
  simp only [owed]
  omega

theorem Inv.adjustThread {s : Pool τ} (h : Inv s) (hc : s.mayGrow = true → s.curThread = owed s) :
    Inv s.adjustThread := by
  apply Inv.lower
  rcases grown_cases s with ⟨hgrow, heq⟩ | ⟨-, heq⟩ <;> rw [heq]
  · have howed : owed s + (s.maxThread - s.curThread) = s.maxThread := by
      have := hc hgrow
      omega
    have hlt := (mayGrow_iff.mp hgrow).2.2
    have hlow := h.low
    refine ⟨h.pos, by simp only; omega, ?_, ?_⟩ <;> rw [owed_grown s hgrow, howed]
    exact le_max_right ..
  · exact h

theorem inv_step {s : Pool τ} {c : Call τ} (h : Inv s) (hs : StartsOnce s c) (hc : Tracked s c) :
    Inv (s.step c) := by
  cases c with
  | start => exact h.start hs
  | adjustThread => exact h.adjustThread hc
  | addTask task =>
    simp only [Pool.step, Pool.addTask]
    split
    · exact h
    · exact ⟨h.pos, h.low, h.covers, h.bound⟩
  | getTask =>
    simp only [Pool.step, Pool.getTask]
    split
    · exact h
    · exact ⟨h.pos, h.low, h.covers, h.bound⟩

theorem lower_bounded_iff (s : Pool τ) : Bounded s.lower ↔ Bounded s := by
  unfold Pool.lower
  split <;> rfl

theorem owed_of_started {s : Pool τ} (h : s.started = true) : owed s = s.threads := by
  simp [owed, h]

theorem started_step {s : Pool τ} (h : s.started = true) (c : Call τ) :
    (s.step c).started = true := by
  cases c with
  | start => rfl
  | addTask task => simp only [Pool.step, Pool.addTask]; split <;> exact h
  | getTask => simp only [Pool.step, Pool.getTask]; split <;> exact h
  | adjustThread =>
    have hlower (s : Pool τ) : s.lower.started = s.started := by
      unfold Pool.lower
      split <;> rfl
    refine (hlower _).trans ?_
    rcases grown_cases s with ⟨-, heq⟩ | ⟨-, heq⟩ <;> rw [heq] <;> exact h

theorem not_bounded_adjustThread {s : Pool τ} (h : Inv s) (hs : s.started = true)
    (hgrow : s.mayGrow = true) (hne : s.curThread ≠ owed s) : ¬ Bounded s.adjustThread := by
  rw [Pool.adjustThread, lower_bounded_iff]
  rcases grown_cases s with ⟨-, heq⟩ | ⟨hnot, -⟩
  · rw [heq]
    have hlt := (mayGrow_iff.mp hgrow).2.2
    have hlow := h.low
    have hcovers := h.covers
    rw [owed_of_started hs] at hne hcovers
    simp only [Bounded, max_eq_right (hlow.trans hlt.le)]
    omega
  · rw [hnot] at hgrow
    cases hgrow

theorem bounded_of_tracked {s : Pool τ} (h : Inv s) {calls : List (Call τ)}
    (honce : Along Pool.step StartsOnce s calls) (hc : Along Pool.step Tracked s calls) :
    Throughout Pool.step Bounded s calls :=
  throughout_of_invariant (I := Inv) (fun _ ↦ Inv.bounded)
    (fun _ _ hi hsteps ↦ inv_step hi hsteps.1 hsteps.2) h (honce.and hc)

theorem bounded_iff_tracked {s : Pool τ} (h : Inv s) (hs : s.started = true)
    {calls : List (Call τ)} (honce : Along Pool.step StartsOnce s calls) :
    Throughout Pool.step Bounded s calls ↔ Along Pool.step Tracked s calls := by
  apply throughout_iff_along_of (D := fun s ↦ Inv s ∧ s.started = true) (A := StartsOnce)
    (fun _ hd ↦ hd.1.bounded) ?_ ?_ ⟨h, hs⟩ honce
  · intro s c hd hstart hc
    exact ⟨inv_step hd.1 hstart hc, started_step hd.2 c⟩
  · intro s c hd _ hc
    cases c with
    | adjustThread =>
      obtain ⟨hgrow, hne⟩ := Classical.not_imp.mp hc
      exact not_bounded_adjustThread hd.1 hd.2 hgrow hne
    | _ => exact absurd trivial hc

/-- The number of threads keeps to the bound if threads are only created while
the counter is their number, and in a pool that is started first only then. -/
theorem threads_bounded_iff (least most maxQ : ℤ) (calls : List (Call τ))
    (honce : Along Pool.step StartsOnce (ofArgs least most maxQ) calls) :
    (Along Pool.step Tracked (ofArgs least most maxQ) calls →
      Throughout Pool.step Bounded (ofArgs least most maxQ) calls) ∧
    (calls.head? = some .start →
      (Throughout Pool.step Bounded (ofArgs least most maxQ) calls ↔
        Along Pool.step Tracked (ofArgs least most maxQ) calls)) := by
  have hinit := inv_ofArgs (τ := τ) least most maxQ
  refine ⟨bounded_of_tracked hinit honce, fun hhead ↦ ?_⟩
  cases calls with
  | nil => cases hhead
  | cons c rest =>
    obtain rfl := Option.some.inj hhead
    have hrest := bounded_iff_tracked (hinit.start rfl) rfl honce.2
    exact ⟨fun h ↦ ⟨trivial, hrest.mp h.2⟩, fun h ↦ ⟨hinit.bounded, hrest.mpr h.2⟩⟩

def sampleCalls : List (Call Unit) :=
  [.start, .addTask (), .addTask (), .adjustThread, .getTask, .getTask, .adjustThread,
    .addTask (), .addTask (), .adjustThread]

theorem threads_bounded_iff_instance :
    Throughout Pool.step Bounded (ofArgs 1 2 2) (sampleCalls.take 9) :=
  (threads_bounded_iff 1 2 2 (sampleCalls.take 9) (by decide)).1 (by decide)

/-- The queue fills, drains and fills again, and a third thread is created in a
pool that allows two. -/
theorem third_thread_created :
    Along Pool.step StartsOnce (ofArgs 1 2 2) sampleCalls ∧
      ¬ Bounded (run Pool.step (ofArgs 1 2 2) sampleCalls) := by
  decide

end Calcsig.ThreadPool.Adjusting
