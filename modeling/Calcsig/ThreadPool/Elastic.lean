import Calcsig.Foundation.Census
import Calcsig.ObjectPool.Model

namespace Calcsig.ThreadPool.Elastic

open Foundation.Runs Foundation.Census ObjectPool.Model

/-- The atomic members of `threadPool`. -/
structure Counts where
  initNum : ℤ
  curNum : ℤ
  usedNum : ℤ
  maxNum : ℤ
  isStopped : Bool
deriving DecidableEq

inductive Next (α : Type)
  | adjust (a : α)
  | again
  | leave

/-- The outcome of one step of adjusting the number of threads: whether a
thread is created, and how the worker goes on. A worker that leaves takes
itself off the count. -/
structure Adjustment (α : Type) where
  spawns : Bool
  next : Next α

/-- What the two thread pools do not share: the least number of threads they
start with, and how a worker that has run a task adjusts their number. It
knows how many tasks it left in the queue. -/
structure Variant (α : Type) where
  least : ℕ
  enter : ℤ → α
  adjust : Counts → α → Adjustment α

/-- Where a worker is in `thread_loop`, up to its next access to shared state. -/
inductive Place (τ α : Type)
  | loopTest
  | waiting
  | taken (task : τ) (taskNums : ℤ)
  | running (task : τ) (taskNums : ℤ)
  | ran (taskNums : ℤ)
  | adjusting (a : α)
  | returned

namespace Place

variable {τ α : Type}

def live : Place τ α → Bool
  | returned => false
  | _ => true

def inUse : Place τ α → Bool
  | running _ _ | ran _ => true
  | _ => false

theorem live_of_inUse {p : Place τ α} (h : p.inUse = true) : p.live = true := by
  cases p <;> first | rfl | cases h

end Place

/-- The members of `threadPool`, its threads, and the tasks of the calls of
`task_add` that have passed its test and not yet pushed. -/
structure Pool (τ α : Type) extends Counts where
  tasks : List τ
  pending : List τ
  workers : List (Place τ α)

/-- A call of `task_add` makes its test, one that has passed pushes its task,
a worker takes a step, or the pool is stopped. -/
inductive Act (τ : Type)
  | taskAdd (task : τ)
  | push (j : ℕ)
  | next (i : ℕ)
  | stop

variable {τ α : Type}

def startNum (v : Variant α) (num : ℕ) : ℤ := int32 (if v.least < num then num else v.least : ℕ)

namespace Pool

def init (v : Variant α) (num most : ℕ) : Pool τ α where
  initNum := startNum v num
  curNum := startNum v num
  usedNum := 0
  maxNum := int32 most
  isStopped := false
  tasks := []
  pending := []
  workers := List.replicate (startNum v num).toNat .loopTest

def goto (s : Pool τ α) (i : ℕ) (p : Place τ α) : Pool τ α :=
  { s with workers := s.workers.set i p }

def spawn (s : Pool τ α) : Pool τ α :=
  { s with curNum := int32 (s.curNum + 1), workers := s.workers ++ [.loopTest] }

def settle (s : Pool τ α) (i : ℕ) : Next α → Pool τ α
  | .adjust a => s.goto i (.adjusting a)
  | .again => s.goto i .loopTest
  | .leave => { s.goto i .returned with curNum := int32 (s.curNum - 1) }

variable (v : Variant α)

/-- One step of the worker at the given place. While the queue is empty and the
pool is not stopped, a worker waits. -/
def advance (s : Pool τ α) (i : ℕ) : Place τ α → Pool τ α
  | .loopTest => s.goto i (if s.isStopped then .returned else .waiting)
  | .waiting =>
    match s.tasks with
    | [] => if s.isStopped then s.goto i .returned else s
    | task :: rest => { s.goto i (.taken task (int32 rest.length)) with tasks := rest }
  | .taken task taskNums =>
    { s.goto i (.running task taskNums) with usedNum := int32 (s.usedNum + 1) }
  | .running _ taskNums => s.goto i (.ran taskNums)
  | .ran taskNums =>
    { s.goto i (.adjusting (v.enter taskNums)) with usedNum := int32 (s.usedNum - 1) }
  | .adjusting a =>
    let outcome := v.adjust s.toCounts a
    (if outcome.spawns then s.spawn else s).settle i outcome.next
  | .returned => s

def next (s : Pool τ α) (i : ℕ) : Pool τ α :=
  match s.workers[i]? with
  | none => s
  | some p => s.advance v i p

/-- `task_add` throws on a stopped pool. -/
def taskAdd (s : Pool τ α) (task : τ) : Pool τ α :=
  if s.isStopped then s else { s with pending := s.pending ++ [task] }

def push (s : Pool τ α) (j : ℕ) : Pool τ α :=
  match s.pending[j]? with
  | none => s
  | some task => { s with tasks := s.tasks ++ [task], pending := s.pending.eraseIdx j }

def step (s : Pool τ α) : Act τ → Pool τ α
  | .taskAdd task => s.taskAdd task
  | .push j => s.push j
  | .next i => s.next v i
  | .stop => { s with isStopped := true }

end Pool

section Fields

variable (v : Variant α) (s : Pool τ α) (i : ℕ)

theorem settle_initNum (n : Next α) : (s.settle i n).initNum = s.initNum := by
  cases n <;> rfl

theorem settle_maxNum (n : Next α) : (s.settle i n).maxNum = s.maxNum := by
  cases n <;> rfl

theorem settle_curNum_of_stays {n : Next α} (h : n ≠ .leave) :
    (s.settle i n).curNum = s.curNum := by
  cases n with
  | leave => exact absurd rfl h
  | _ => rfl

theorem advance_initNum (p : Place τ α) : (s.advance v i p).initNum = s.initNum := by
  cases p with
  | waiting => simp only [Pool.advance]; split <;> [split; skip] <;> rfl
  | adjusting a => simp only [Pool.advance, settle_initNum]; split <;> rfl
  | _ => rfl

theorem advance_maxNum (p : Place τ α) : (s.advance v i p).maxNum = s.maxNum := by
  cases p with
  | waiting => simp only [Pool.advance]; split <;> [split; skip] <;> rfl
  | adjusting a => simp only [Pool.advance, settle_maxNum]; split <;> rfl
  | _ => rfl

theorem advance_isStopped (p : Place τ α) : (s.advance v i p).isStopped = s.isStopped := by
  have hsettle (t : Pool τ α) (n : Next α) : (t.settle i n).isStopped = t.isStopped := by
    cases n <;> rfl
  cases p with
  | waiting => simp only [Pool.advance]; split <;> [split; skip] <;> rfl
  | adjusting a => simp only [Pool.advance, hsettle]; split <;> rfl
  | _ => rfl

theorem advance_pending (p : Place τ α) : (s.advance v i p).pending = s.pending := by
  have hsettle (t : Pool τ α) (n : Next α) : (t.settle i n).pending = t.pending := by
    cases n <;> rfl
  cases p with
  | waiting => simp only [Pool.advance]; split <;> [split; skip] <;> rfl
  | adjusting a => simp only [Pool.advance, hsettle]; split <;> rfl
  | _ => rfl

theorem advance_tasks (p : Place τ α) :
    (s.advance v i p).tasks = match p with
      | .waiting => s.tasks.tail
      | _ => s.tasks := by
  have hsettle (t : Pool τ α) (n : Next α) : (t.settle i n).tasks = t.tasks := by
    cases n <;> rfl
  cases p with
  | waiting =>
    simp only [Pool.advance]
    split <;> rename_i h
    · split <;> simp [Pool.goto, h]
    · simp [h]
  | adjusting a => simp only [Pool.advance, hsettle]; split <;> rfl
  | _ => rfl

end Fields

section Workers

variable (v : Variant α) (s : Pool τ α)

def Next.place : Next α → Place τ α
  | adjust a => .adjusting a
  | again => .loopTest
  | leave => .returned

def after : Place τ α → Place τ α
  | .loopTest => if s.isStopped then .returned else .waiting
  | .waiting =>
    match s.tasks with
    | [] => if s.isStopped then .returned else .waiting
    | task :: rest => .taken task (int32 rest.length)
  | .taken task taskNums => .running task taskNums
  | .running _ taskNums => .ran taskNums
  | .ran taskNums => .adjusting (v.enter taskNums)
  | .adjusting a => (v.adjust s.toCounts a).next.place
  | .returned => .returned

def spawns : Place τ α → Bool
  | .adjusting a => (v.adjust s.toCounts a).spawns
  | _ => false

theorem settle_workers (i : ℕ) (n : Next α) :
    (s.settle i n).workers = s.workers.set i n.place := by
  cases n <;> rfl

theorem worker_append {s : Pool τ α} {i : ℕ} {p : Place τ α} (hp : s.workers[i]? = some p)
    (new : List (Place τ α)) : (s.workers ++ new)[i]? = some p := by
  have hi := (List.getElem?_eq_some_iff.mp hp).1
  exact (List.getElem?_append_left hi).trans hp

theorem advance_workers {i : ℕ} {p : Place τ α} (hp : s.workers[i]? = some p) :
    (s.advance v i p).workers =
      (s.workers ++ if spawns v s p then [Place.loopTest] else []).set i (after v s p) := by
  have hself : s.workers.set i p = s.workers := by
    obtain ⟨hi, rfl⟩ := List.getElem?_eq_some_iff.mp hp
    exact List.set_getElem_self hi
  cases p with
  | waiting =>
    simp only [Pool.advance, after, spawns]
    split
    · split <;> simp [Pool.goto, hself]
    · simp [Pool.goto]
  | returned => simp [Pool.advance, after, spawns, hself]
  | adjusting a =>
    simp only [Pool.advance, after, spawns, settle_workers]
    split <;> rename_i hs <;> simp [Pool.spawn, hs]
  | _ => simp [Pool.advance, after, spawns, Pool.goto]

theorem step_cases {P : Pool τ α → Prop} {a : Act τ} (ha : a ≠ .stop)
    (hqueue : ∀ tasks pending, P { s with tasks := tasks, pending := pending })
    (hnext : ∀ i p, a = .next i → s.workers[i]? = some p → P (s.advance v i p)) : P (s.step v a) := by
  cases a with
  | stop => exact absurd rfl ha
  | next i =>
    simp only [Pool.step, Pool.next]
    cases hp : s.workers[i]? with
    | none => exact hqueue s.tasks s.pending
    | some p => exact hnext i p rfl hp
  | taskAdd task =>
    simp only [Pool.step, Pool.taskAdd]
    split
    · exact hqueue s.tasks s.pending
    · exact hqueue s.tasks _
  | push j =>
    simp only [Pool.step, Pool.push]
    split
    · exact hqueue s.tasks s.pending
    · exact hqueue _ _

end Workers

def addTasks (n : ℕ) : List (Act Unit) := (List.replicate n [.taskAdd (), .push 0]).flatten

end Calcsig.ThreadPool.Elastic
