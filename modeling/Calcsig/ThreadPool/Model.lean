import Calcsig.Foundation.Runs
import Mathlib.Data.Fintype.Basic
import Mathlib.Logic.Function.Basic

namespace Calcsig.ThreadPool.Model

open Function Foundation.Runs

/-- Where a thread is: outside the pool, or before the next shared access of
`get_task` or `add_task`. A thread in `pthread_cond_wait` is asleep until it
is signalled or wakes up by itself, and then needs the mutex again. -/
inductive Place (τ : Type)
  | outside
  | getLock
  | getStopped
  | getEmpty
  | getWait
  | asleep
  | signalled
  | woken
  | getCheck
  | getFront
  | getUnlock : τ → Place τ
  | addStopped : τ → Place τ
  | addLock : τ → Place τ
  | addPush : τ → Place τ
  | addSignal
  | addUnlock

namespace Place

variable {τ : Type}

@[grind] def isAsleep : Place τ → Bool
  | asleep => true
  | _ => false

theorem isAsleep_eq_true_iff {p : Place τ} : p.isAsleep = true ↔ p = asleep := by
  cases p <;> simp [isAsleep]

@[simp, grind] def isSignalled : Place τ → Bool
  | signalled => true
  | _ => false

/-- Between obtaining the mutex and giving it back. -/
@[grind] def locked : Place τ → Bool
  | getStopped | getEmpty | getWait | getCheck | getFront | getUnlock _ => true
  | addPush _ | addSignal | addUnlock => true
  | _ => false

end Place

structure Pool (ι τ : Type) where
  mutex : Option ι
  taskQueue : List τ
  isStopped : Bool
  place : ι → Place τ

/-- A thread enters a call, takes its next step in it, signals a waiting thread
of the scheduler's choice, or wakes up by itself. -/
inductive Act (ι τ : Type)
  | getTask : ι → Act ι τ
  | addTask : ι → τ → Act ι τ
  | stop : ι → Act ι τ
  | next : ι → Act ι τ
  | signal : ι → ι → Act ι τ
  | wake : ι → Act ι τ

variable {ι τ : Type}

def Act.isWake : Act ι τ → Bool
  | wake _ => true
  | _ => false

variable [DecidableEq ι]

namespace Pool

def init : Pool ι τ := ⟨none, [], false, fun _ ↦ .outside⟩

def goto (s : Pool ι τ) (i : ι) (p : Place τ) : Pool ι τ := { s with place := update s.place i p }

def lock (s : Pool ι τ) (i : ι) (p : Place τ) : Pool ι τ :=
  if s.mutex = none then { s.goto i p with mutex := some i } else s

def unlock (s : Pool ι τ) (i : ι) (p : Place τ) : Pool ι τ := { s.goto i p with mutex := none }

variable [Fintype ι]

/-- One access to the shared state. A thread that cannot go on, because the
mutex is taken or because it sleeps, stays where it is. -/
def next (s : Pool ι τ) (i : ι) : Pool ι τ :=
  match s.place i with
  | .outside => s
  | .getLock => s.lock i .getStopped
  | .getStopped => s.goto i (if s.isStopped then .getCheck else .getEmpty)
  | .getEmpty => s.goto i (if s.taskQueue.isEmpty then .getWait else .getCheck)
  | .getWait => s.unlock i .asleep
  | .asleep => s
  | .signalled => s.lock i .getStopped
  | .woken => s.lock i .getStopped
  | .getCheck => s.goto i (if s.isStopped then .outside else .getFront)
  | .getFront =>
    match s.taskQueue with
    | [] => s
    | task :: rest => { s.goto i (.getUnlock task) with taskQueue := rest }
  | .getUnlock _ => s.unlock i .outside
  | .addStopped task => s.goto i (if s.isStopped then .outside else .addLock task)
  | .addLock task => s.lock i (.addPush task)
  | .addPush task => { s.goto i .addSignal with taskQueue := s.taskQueue ++ [task] }
  | .addSignal => if ∀ w, (s.place w).isAsleep = false then s.goto i .addUnlock else s
  | .addUnlock => s.unlock i .outside

def enter (s : Pool ι τ) (i : ι) (p : Place τ) : Pool ι τ :=
  match s.place i with
  | .outside => s.goto i p
  | _ => s

def signal (s : Pool ι τ) (i w : ι) : Pool ι τ :=
  match s.place i, s.place w with
  | .addSignal, .asleep => (s.goto w .signalled).goto i .addUnlock
  | _, _ => s

def wake (s : Pool ι τ) (w : ι) : Pool ι τ :=
  match s.place w with
  | .asleep => s.goto w .woken
  | _ => s

def stop (s : Pool ι τ) (i : ι) : Pool ι τ :=
  match s.place i with
  | .outside => { s with isStopped := true }
  | _ => s

def step (s : Pool ι τ) : Act ι τ → Pool ι τ
  | .getTask i => s.enter i .getLock
  | .addTask i task => s.enter i (.addStopped task)
  | .stop i => s.stop i
  | .next i => s.next i
  | .signal i w => s.signal i w
  | .wake w => s.wake w

end Pool

inductive FreeMove (stopped : Bool) : Place τ → Place τ → Prop
  | getTask : FreeMove stopped .outside .getLock
  | addTask (task : τ) : FreeMove stopped .outside (.addStopped task)
  | refused (task : τ) : stopped = true → FreeMove stopped (.addStopped task) .outside
  | admitted (task : τ) : stopped = false → FreeMove stopped (.addStopped task) (.addLock task)

inductive LockMove : Place τ → Place τ → Prop
  | getLock : LockMove .getLock .getStopped
  | signalled : LockMove .signalled .getStopped
  | woken : LockMove .woken .getStopped
  | addLock (task : τ) : LockMove (.addLock task) (.addPush task)

inductive InMove (stopped : Bool) (queue : List τ) : Place τ → Place τ → Prop
  | stopped : stopped = true → InMove stopped queue .getStopped .getCheck
  | running : stopped = false → InMove stopped queue .getStopped .getEmpty
  | empty : queue = [] → InMove stopped queue .getEmpty .getWait
  | filled : queue ≠ [] → InMove stopped queue .getEmpty .getCheck
  | checked : stopped = false → InMove stopped queue .getCheck .getFront

inductive UnlockMove : Place τ → Place τ → Prop
  | getWait : UnlockMove .getWait .asleep
  | getUnlock (task : τ) : UnlockMove (.getUnlock task) .outside
  | addUnlock : UnlockMove .addUnlock .outside

/-- The return of NULL from `get_task`, which keeps the mutex. -/
def leaks (s : Pool ι τ) : Act ι τ → Bool
  | .next i =>
    match s.place i with
    | .getCheck => s.isStopped
    | _ => false
  | _ => false

/-- Everything a step can do to the pool; the flag marks the leaking return. -/
inductive Move (s : Pool ι τ) : Bool → Pool ι τ → Prop
  | free (i : ι) {q p : Place τ} : s.place i = q → FreeMove s.isStopped q p →
      Move s false (s.goto i p)
  | lock (i : ι) {q p : Place τ} : s.place i = q → LockMove q p → s.mutex = none →
      Move s false { s.goto i p with mutex := some i }
  | inside (i : ι) {q p : Place τ} : s.place i = q → InMove s.isStopped s.taskQueue q p →
      Move s false (s.goto i p)
  | leak (i : ι) : s.place i = .getCheck → s.isStopped = true → Move s true (s.goto i .outside)
  | pop (i : ι) (task : τ) (rest : List τ) : s.place i = .getFront → s.taskQueue = task :: rest →
      Move s false { s.goto i (.getUnlock task) with taskQueue := rest }
  | push (i : ι) (task : τ) : s.place i = .addPush task →
      Move s false { s.goto i .addSignal with taskQueue := s.taskQueue ++ [task] }
  | unheard (i : ι) : s.place i = .addSignal → (∀ w, (s.place w).isAsleep = false) →
      Move s false (s.goto i .addUnlock)
  | signal (i w : ι) : s.place i = .addSignal → s.place w = .asleep →
      Move s false ((s.goto w .signalled).goto i .addUnlock)
  | unlock (i : ι) {q p : Place τ} : s.place i = q → UnlockMove q p → Move s false (s.unlock i p)
  | wake (w : ι) : s.place w = .asleep → Move s false (s.goto w .woken)
  | stop : Move s false { s with isStopped := true }

section Cases

variable (s : Pool ι τ)

theorem lock_cases {i : ι} {q p : Place τ} (hq : s.place i = q) (h : LockMove q p) :
    s.lock i p = s ∨ Move s false (s.lock i p) := by
  unfold Pool.lock
  split
  · rename_i hfree
    exact .inr (.lock i hq h hfree)
  · exact .inl rfl

variable [Fintype ι]

theorem next_cases (i : ι) : s.next i = s ∨ Move s (leaks s (.next i)) (s.next i) := by
  dsimp only [Pool.next, leaks]
  cases h : s.place i with
  | outside => exact .inl rfl
  | asleep => exact .inl rfl
  | getLock => exact lock_cases s h .getLock
  | signalled => exact lock_cases s h .signalled
  | woken => exact lock_cases s h .woken
  | addLock task => exact lock_cases s h (.addLock task)
  | getWait => exact .inr (.unlock i h .getWait)
  | getUnlock task => exact .inr (.unlock i h (.getUnlock task))
  | addUnlock => exact .inr (.unlock i h .addUnlock)
  | getStopped =>
    cases hs : s.isStopped with
    | true => exact .inr (.inside i h (.stopped hs))
    | false => exact .inr (.inside i h (.running hs))
  | getEmpty =>
    cases hq : s.taskQueue with
    | nil => exact .inr (.inside i h (.empty hq))
    | cons task rest => exact .inr (.inside i h (.filled (by simp [hq])))
  | getCheck =>
    cases hs : s.isStopped with
    | true => exact .inr (.leak i h hs)
    | false => exact .inr (.inside i h (.checked hs))
  | getFront =>
    cases hq : s.taskQueue with
    | nil => exact .inl rfl
    | cons task rest => exact .inr (.pop i task rest h hq)
  | addStopped task =>
    cases hs : s.isStopped with
    | true => exact .inr (.free i h (.refused task hs))
    | false => exact .inr (.free i h (.admitted task hs))
  | addPush task => exact .inr (.push i task h)
  | addSignal =>
    by_cases hno : ∀ w, (s.place w).isAsleep = false
    · simp only [if_pos hno]
      exact .inr (.unheard i h hno)
    · simp only [if_neg hno, true_or]

theorem step_cases (a : Act ι τ) : s.step a = s ∨ Move s (leaks s a) (s.step a) := by
  cases a with
  | next i => exact next_cases s i
  | getTask i =>
    simp only [Pool.step, Pool.enter]
    split <;> rename_i h
    · exact .inr (.free i h .getTask)
    · exact .inl rfl
  | addTask i task =>
    simp only [Pool.step, Pool.enter]
    split <;> rename_i h
    · exact .inr (.free i h (.addTask task))
    · exact .inl rfl
  | stop i =>
    simp only [Pool.step, Pool.stop]
    split
    · exact .inr .stop
    · exact .inl rfl
  | signal i w =>
    simp only [Pool.step, Pool.signal]
    split <;> rename_i hi hw
    · exact .inr (.signal i w hi hw)
    · exact .inl rfl
  | wake w =>
    simp only [Pool.step, Pool.wake]
    split <;> rename_i h
    · exact .inr (.wake w h)
    · exact .inl rfl

end Cases

theorem FreeMove.locked {stopped : Bool} {q p : Place τ} (h : FreeMove stopped q p) :
    q.locked = false ∧ p.locked = false := by
  cases h <;> exact ⟨rfl, rfl⟩

theorem LockMove.locked {q p : Place τ} (h : LockMove q p) : q.locked = false ∧ p.locked = true := by
  cases h <;> exact ⟨rfl, rfl⟩

theorem InMove.locked {stopped : Bool} {queue : List τ} {q p : Place τ}
    (h : InMove stopped queue q p) : q.locked = true ∧ p.locked = true := by
  cases h <;> exact ⟨rfl, rfl⟩

theorem UnlockMove.locked {q p : Place τ} (h : UnlockMove q p) :
    q.locked = true ∧ p.locked = false := by
  cases h <;> exact ⟨rfl, rfl⟩

section Fields

variable (s : Pool ι τ) (i j : ι) (p : Place τ)

@[simp, grind =] theorem goto_place :
    (s.goto i p).place j = if j = i then p else s.place j := by
  simp only [Pool.goto, update_apply]

@[simp, grind =] theorem goto_mutex : (s.goto i p).mutex = s.mutex := rfl

@[simp, grind =] theorem goto_taskQueue : (s.goto i p).taskQueue = s.taskQueue := rfl

@[simp, grind =] theorem goto_isStopped : (s.goto i p).isStopped = s.isStopped := rfl

@[simp, grind =] theorem unlock_place :
    (s.unlock i p).place j = if j = i then p else s.place j := goto_place s i j p

@[simp, grind =] theorem unlock_mutex : (s.unlock i p).mutex = none := rfl

@[simp, grind =] theorem unlock_taskQueue : (s.unlock i p).taskQueue = s.taskQueue := rfl

@[simp, grind =] theorem unlock_isStopped : (s.unlock i p).isStopped = s.isStopped := rfl

@[simp] theorem lock_isStopped : (s.lock i p).isStopped = s.isStopped := by
  unfold Pool.lock
  split <;> rfl

variable {i j} in
@[simp] theorem lock_place_of_ne (h : j ≠ i) : (s.lock i p).place j = s.place j := by
  unfold Pool.lock
  split <;> simp [h]

variable [Fintype ι]

theorem next_isStopped : (s.next i).isStopped = s.isStopped := by
  unfold Pool.next
  cases s.place i with
  | getFront => cases s.taskQueue <;> rfl
  | addSignal => dsimp only; split <;> rfl
  | _ => simp

variable {i j} in
theorem next_place_of_ne (h : j ≠ i) : (s.next i).place j = s.place j := by
  unfold Pool.next
  cases s.place i with
  | getFront => cases s.taskQueue <;> simp [h]
  | addSignal => dsimp only; split <;> simp [h]
  | _ => simp [h]

end Fields

end Calcsig.ThreadPool.Model
