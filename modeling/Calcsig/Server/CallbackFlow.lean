import Calcsig.Foundation.Census
import Calcsig.Server.StoreIntegrity
import Calcsig.Server.StoredContent
import Calcsig.Server.TaskFlow

namespace Calcsig.Server.CallbackFlow

open Function Foundation.Text Foundation.FileTree Foundation.Documents Foundation.Inodes Foundation.Runs
open Foundation.Census Utils.ContentSignature Utils.SigPath ThreadPool.Model
open Worker StoredContent Confinement Request TaskFlow SmallSteps WorkerEffects StoreIntegrity

variable {ι Ctx : Type}

/-- The running server: the queue with the threads in its calls, and what the
workers do with the tasks they have taken. -/
structure Service (ι Ctx : Type) where
  crew : Crew ι
  shop : Workshop ι Ctx

/-- The event loop handles a request, a worker takes a step in `get_task`, or it
takes a step with its task. The draws name the temporary file if `get_task`
returns at this step. -/
inductive Turn (ι : Type)
  | request (call : Call ι)
  | getTask (i : ι)
  | next (i : ι) (draws : ℕ → ℕ)
  | wake (i : ι)
  | work (i : ι) (m : Moment)

namespace Service

def start (d : Disk UInt8) : Service ι Ctx := ⟨Pool.init, .start d⟩

variable [DecidableEq ι] [Fintype ι] (env : Setting Ctx)

/-- A worker calls `get_task` only between two tasks. -/
def canTake (s : Service ι Ctx) (i : ι) : Bool :=
  match s.shop.phase i with
  | .idle => true
  | _ => false

def crewEvent (s : Service ι Ctx) : Turn ι → Option (TaskFlow.Event ι)
  | .request call => some (.request call)
  | .getTask i => if s.canTake i then some (.getTask i) else none
  | .next i _ => some (.next i)
  | .wake i => some (.wake i)
  | .work _ _ => none

/-- What the turn is for the workers: the step that leaves `get_task` begins the
work on the task it returns. -/
def deed (s : Service ι Ctx) : Turn ι → Option (Deed ι)
  | .next i draws =>
    match s.crew.place (some i) with
    | .getUnlock task => some (.begin i task draws)
    | _ => none
  | .work i m => some (.work i m)
  | _ => none

def step (s : Service ι Ctx) (turn : Turn ι) : Service ι Ctx :=
  if s.shop.down then s
  else
    ⟨(s.crewEvent turn).elim s.crew (serve env.parse s.crew),
      (s.deed turn).elim s.shop (s.shop.step env)⟩

def posts (s : Service ι Ctx) (turn : Turn ι) : List (HttpTask × Item) :=
  (s.deed turn).elim [] (s.shop.posts env)

def acknowledges (s : Service ι Ctx) (turn : Turn ι) : List HttpTask :=
  if s.shop.down then [] else (s.crewEvent turn).elim [] (acknowledged env.parse s.crew)

def FreshName (s : Service ι Ctx) (turn : Turn ι) : Prop :=
  ∀ e, s.deed turn = some e → s.shop.FreshName env e

end Service

section Hands

variable (task : HttpTask)

def heldIn : Place HttpTask → ℕ
  | .getUnlock t => if t = task then 1 else 0
  | _ => 0

def heldAt (ph : Phase Ctx) : ℕ :=
  match ph.job with
  | some job => if job.task = task then 1 else 0
  | none => 0

variable [DecidableEq ι] [Fintype ι] {s : Crew ι}

theorem heldIn_next {i : ι} (h : getting (s.place (some i)) = true) :
    heldIn task ((s.next (some i)).place (some i)) = (returned s (.next i)).count task := by
  cases hp : s.place (some i) with
  | getLock | signalled | woken =>
    simp only [Pool.next, hp, Pool.lock, returned]
    split <;> simp [hp, heldIn]
  | getStopped | getCheck => cases hs : s.isStopped <;> simp [Pool.next, hp, hs, heldIn, returned]
  | getEmpty => cases hq : s.taskQueue <;> simp [Pool.next, hp, hq, heldIn, returned]
  | getFront =>
    cases hq : s.taskQueue with
    | nil => simp [Pool.next, hp, hq, heldIn, returned]
    | cons t rest =>
      simp only [Pool.next, hp, hq, returned, List.take_succ_cons, List.take_zero]
      by_cases ht : t = task <;> simp [heldIn, ht]
  | addStopped | addLock | addPush | addSignal | addUnlock => simp [hp, getting] at h
  | _ => simp [Pool.next, hp, heldIn, returned]

def ByLoop (a : Act (Option ι) HttpTask) : Prop :=
  (∃ t, a = .addTask none t) ∨ a = .next none ∨ ∃ w, a = .signal none w

omit [DecidableEq ι] [Fintype ι] in
theorem byLoop_of_mem {t : HttpTask} {waiter : Option ι} {a : Act (Option ι) HttpTask}
    (h : a ∈ addTask t waiter) : ByLoop a := by
  have hannounce : ByLoop (announce waiter) := by
    cases waiter with
    | none => exact .inr (.inl rfl)
    | some w => exact .inr (.inr ⟨_, rfl⟩)
  simp only [addTask, List.mem_append, List.mem_cons, List.not_mem_nil, or_false] at h
  rcases h with (rfl | rfl | rfl | rfl) | rfl | rfl
  · exact .inl ⟨t, rfl⟩
  · exact .inr (.inl rfl)
  · exact .inr (.inl rfl)
  · exact .inr (.inl rfl)
  · exact hannounce
  · exact .inr (.inl rfl)

theorem heldIn_loop {a : Act (Option ι) HttpTask} (ha : ByLoop a) (j : ι) :
    heldIn task ((s.step a).place (some j)) = heldIn task (s.place (some j)) := by
  rcases ha with ⟨t, rfl⟩ | rfl | ⟨w, rfl⟩
  · simp only [Pool.step, Pool.enter]
    split <;> simp
  · rw [Pool.step, next_place_of_ne s (by simp)]
  · simp only [Pool.step, Pool.signal]
    split
    · rename_i hasleep
      by_cases hw : some j = w
      · subst hw
        simp [hasleep, heldIn]
      · simp [hw]
    · rfl

theorem heldIn_serve (parse : Reader) (e : TaskFlow.Event ι) (j : ι)
    (he : e ≠ .next j) :
    heldIn task ((serve parse s e).place (some j)) = heldIn task (s.place (some j)) := by
  cases e with
  | request call =>
    simp only [serve]
    split
    · rfl
    · rename_i t _
      split
      · exact run_invariant (I := fun s' : Crew ι ↦ heldIn task (s'.place (some j)) =
          heldIn task (s.place (some j))) (fun s' a hs ha ↦ (heldIn_loop task ha j).trans hs) rfl
          (along_of_forall (fun a ha _ ↦ byLoop_of_mem ha) s)
      · rfl
  | getTask i =>
    simp only [serve, Pool.step, Pool.enter]
    split
    · rename_i hout
      by_cases hij : j = i
      · subst hij
        simp [hout, heldIn]
      · simp [hij]
    · rfl
  | next i =>
    rw [serve, Pool.step, next_place_of_ne s (fun hij ↦ he (by rw [Option.some.inj hij]))]
  | wake i =>
    simp only [serve, Pool.step, Pool.wake]
    split
    · rename_i hasleep
      by_cases hij : j = i
      · subst hij
        simp [hasleep, heldIn]
      · simp [hij]
    · rfl

omit [DecidableEq ι] [Fintype ι] in
theorem heldAt_work (env : Setting Ctx) (m : Moment) (ph : Phase Ctx) (d : Disk UInt8) :
    heldAt task (work env m ph d).1 ≤ heldAt task ph := by
  unfold heldAt
  cases hjob : (work env m ph d).1.job with
  | none => exact Nat.zero_le _
  | some job => rw [job_work hjob]

omit [DecidableEq ι] [Fintype ι] in
theorem heldAt_posted {env : Setting Ctx} {m : Moment} {ph : Phase Ctx} {item : Item}
    (h : posted env m ph = some item) (d : Disk UInt8) : heldAt task (work env m ph d).1 = 0 := by
  cases ph with
  | posting job length sig =>
    simp only [work]
    split <;> rfl
  | _ => cases h

def handedOut (s : Crew ι) : TaskFlow.Event ι → ℕ
  | .next i => heldIn task (s.place (some i))
  | _ => 0

theorem crew_account (parse : Reader) (h : Staffed s) (e : TaskFlow.Event ι) :
    handedOut task s e + (∑ j, heldIn task ((serve parse s e).place (some j)) +
        (serve parse s e).taskQueue.count task) =
      ∑ j, heldIn task (s.place (some j)) + s.taskQueue.count task +
        (acknowledged parse s e).count task := by
  have hqueue := congrArg (List.count task) (queue_serve parse h e)
  rw [List.count_append, List.count_append] at hqueue
  by_cases hnext : ∃ i, e = .next i
  · obtain ⟨i, rfl⟩ := hnext
    have hsum := sum_change (i := i) fun j hj ↦
      heldIn_serve (s := s) task parse (.next i) j (fun he ↦ hj (by cases he; rfl))
    have hi : heldIn task ((serve parse s (.next i)).place (some i)) = _ :=
      heldIn_next task (h.workers i)
    rw [handedOut]
    omega
  · have hsame : ∑ j, heldIn task ((serve parse s e).place (some j)) =
        ∑ j, heldIn task (s.place (some j)) :=
      Finset.sum_congr rfl fun j _ ↦ heldIn_serve task parse e j fun he ↦ hnext ⟨j, he⟩
    have hnone : returned s e = [] ∧ handedOut task s e = 0 := by
      cases e with
      | next i => exact absurd ⟨i, rfl⟩ hnext
      | _ => exact ⟨rfl, rfl⟩
    rw [hnone.1, List.count_nil] at hqueue
    omega

variable {w : Workshop ι Ctx} (env : Setting Ctx)

def begun : Deed ι → ℕ
  | .begin _ t _ => if t = task then 1 else 0
  | .work _ _ => 0

theorem shop_account (e : Deed ι) :
    ((w.posts env e).map Prod.fst).count task + ∑ j, heldAt task ((w.step env e).phase j) ≤
      ∑ j, heldAt task (w.phase j) + begun task e := by
  have hchange (i : ι) (ph : Phase Ctx) := sum_change (i := i)
    fun j hj ↦ congrArg (heldAt task) (update_of_ne hj ph w.phase)
  simp only [update_self] at hchange
  cases e with
  | begin i t draws =>
    have hidle : heldAt task (.idle : Phase Ctx) = 0 := rfl
    have hbegin : heldAt task (.begin env t draws : Phase Ctx) = if t = task then 1 else 0 := rfl
    simp only [Workshop.posts, List.map_nil, List.count_nil, Workshop.step, begun]
    split
    · rename_i hi
      have := hchange i (.begin env t draws)
      rw [hi, hidle, hbegin] at this
      dsimp only
      omega
    · omega
  | work i m =>
    cases hdown : w.down with
    | true => simp [Workshop.posts, Workshop.step, hdown]
    | false =>
      have := hchange i (work env m (w.phase i) w.disk).1
      simp only [Workshop.posts, Workshop.step, begun, hdown, Bool.false_eq_true, if_false]
      split
      · rename_i job item _ hjob hitem
        have hheld : heldAt task (w.phase i) = if job.task = task then 1 else 0 := by
          rw [heldAt, hjob]
        rw [heldAt_posted task hitem w.disk] at this
        simp only [List.map_cons, List.map_nil, List.count_singleton, beq_iff_eq]
        omega
      · have hless := heldAt_work task env m (w.phase i) w.disk
        simp only [List.map_nil, List.count_nil]
        omega

end Hands

namespace Service

variable [DecidableEq ι] [Fintype ι] (env : Setting Ctx) (task : HttpTask)

def inside (s : Service ι Ctx) : ℕ :=
  ∑ i, heldIn task (s.crew.place (some i)) + s.crew.taskQueue.count task +
    ∑ i, heldAt task (s.shop.phase i)

structure Regular (s : Service ι Ctx) : Prop where
  staffed : Staffed s.crew
  orderly : s.shop.Orderly env

variable {env} {s : Service ι Ctx}

theorem inside_step (h : Regular env s) (turn : Turn ι) :
    ((s.posts env turn).map Prod.fst).count task + (s.step env turn).inside task ≤
      s.inside task + (s.acknowledges env turn).count task := by
  cases hdown : s.shop.down with
  | true =>
    have hposts : s.posts env turn = [] := by
      unfold posts
      rcases s.deed turn with _ | ⟨_ | _⟩
      · rfl
      · rfl
      · simp [Workshop.posts, hdown]
    simp [hposts, step, acknowledges, hdown]
  | false =>
    have hlink : (s.deed turn).elim 0 (begun task) ≤
        (s.crewEvent turn).elim 0 (handedOut task s.crew) := by
      cases turn with
      | next i draws =>
        cases hp : s.crew.place (some i) with
        | getUnlock t => simp [deed, crewEvent, hp, begun, handedOut, heldIn]
        | _ => simp [deed, hp]
      | _ => simp [deed, begun]
    have hshop : ((s.posts env turn).map Prod.fst).count task +
        ∑ j, heldAt task (((s.deed turn).elim s.shop (s.shop.step env)).phase j) ≤
          ∑ j, heldAt task (s.shop.phase j) + (s.deed turn).elim 0 (begun task) := by
      unfold posts
      cases s.deed turn with
      | none => simp
      | some e => exact shop_account task env e
    simp only [step, acknowledges, hdown, Bool.false_eq_true, if_false, inside]
    cases hevent : s.crewEvent turn with
    | none =>
      simp only [hevent, Option.elim_none, List.count_nil] at hlink ⊢
      omega
    | some e =>
      have hcrew := crew_account task env.parse h.staffed e
      simp only [hevent, Option.elim_some] at hlink ⊢
      omega

end Service

section Sample

end Sample

end Calcsig.Server.CallbackFlow
